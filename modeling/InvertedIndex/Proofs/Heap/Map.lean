import InvertedIndex.Proofs.Heap.Operations

namespace InvertedIndex.Heap

variable {α : Type u} {β : Type v}

def map (f : α → β) (heap : Heap α) : Heap β := ⟨heap.slots.map f, heap.capacity, by simpa using heap.size_le⟩

section Slots

variable (f : α → β) (heap : Heap α)

@[simp] lemma toList_map : (heap.map f).toList = heap.toList.map f := by
  simp [map, toList]

@[simp] lemma size_map : (heap.map f).size = heap.size := by
  simp [map, size]

@[simp] lemma peek?_map : (heap.map f).peek? = heap.peek?.map f := by
  simp [map, peek?]

lemma map_map (g : β → α) : (heap.map f).map g = heap.map (g ∘ f) := by
  simp [map]

lemma map_setFront (item : α) : (heap.setFront item).map f = (heap.map f).setFront (f item) := by
  simp only [map, setFront, mk.injEq, and_true]
  exact Array.map_setIfInBounds

lemma map_dropFront (h : 0 < heap.slots.size) (h' : 0 < (heap.map f).slots.size) :
    (heap.dropFront h).map f = (heap.map f).dropFront h' := by
  simp only [map, dropFront, mk.injEq, and_true, Array.map_pop, Array.size_map]
  congr 1
  refine Array.ext (by simp) fun i hi hi' => ?_
  simp only [Array.getElem_map, Array.getElem_swap]
  split
  · rfl
  · split <;> rfl

lemma setFront_setFront (item item' : α) : (heap.setFront item).setFront item' = heap.setFront item' := by
  simp [setFront]

lemma dropFront_setFront (item : α) (h : 0 < (heap.setFront item).slots.size) (h' : 0 < heap.slots.size) :
    (heap.setFront item).dropFront h = heap.dropFront h' := by
  simp only [setFront, dropFront, mk.injEq, and_true]
  refine Array.ext (by simp) fun i hi hi' => ?_
  simp only [Array.size_pop, Array.size_swap] at hi'
  simp only [Array.getElem_pop, Array.getElem_swap, Array.size_setIfInBounds]
  by_cases h0 : i = 0
  · rw [if_pos h0, if_pos h0, Array.getElem_setIfInBounds_ne _ (by omega)]
  · rw [if_neg h0, if_neg h0, if_neg (by omega), if_neg (by omega), Array.getElem_setIfInBounds_ne _ (by omega)]

end Slots

variable {before : α → α → Bool} {before' : β → β → Bool} {f : α → β} (hf : ∀ a b, before' (f a) (f b) = before a b)

include hf

section Sift

variable {n : Nat}

lemma firstChild_map (slots : Vector α n) (i : Nat) (h : 2 * i + 1 < n) :
    firstChild before' (slots.map f) i h = firstChild before slots i h := by
  simp only [firstChild, Vector.getElem_map, hf]

lemma siftDown_map (slots : Vector α n) (i : Nat) :
    siftDown before' (slots.map f) i = (siftDown before slots i).map f := by
  fun_induction siftDown before slots i with
  | case1 slots i h child hlt hn hb ih =>
    have hswap : (slots.map f).swap i child (by omega) hn = (slots.swap i child (by omega) hn).map f := by
      refine Vector.ext fun j hj => ?_
      simp only [Vector.getElem_map, Vector.getElem_swap]
      split
      · rfl
      · split <;> rfl
    rw [siftDown, dif_pos h]
    simp only [firstChild_map hf, Vector.getElem_map, hf]
    rw [if_pos hb, ← ih, ← hswap]
  | case2 slots i h child hlt hn hb =>
    rw [siftDown, dif_pos h]
    simp only [firstChild_map hf, Vector.getElem_map, hf]
    rw [if_neg hb]
  | case3 slots i h => rw [siftDown, dif_neg h]

lemma toArray_siftDown_map {m : Nat} {slots : Vector α n} {images : Vector β m}
    (h : images.toArray = slots.toArray.map f) (i : Nat) :
    (siftDown before' images i).toArray = (siftDown before slots i).toArray.map f := by
  obtain rfl : m = n := by simpa using congrArg Array.size h
  obtain rfl : images = slots.map f := Vector.toArray_inj.mp (by simpa using h)
  rw [siftDown_map hf, Vector.toArray_map]

end Sift

variable (heap : Heap α)

lemma map_adjustFront : (heap.adjustFront before).map f = (heap.map f).adjustFront before' := by
  simp only [adjustFront, siftDownFrom, rearrange, map, mk.injEq, and_true]
  exact (toArray_siftDown_map hf rfl 0).symm

lemma map_replaceFront (item : α) :
    (heap.replaceFront before item).map f = (heap.map f).replaceFront before' (f item) := by
  rw [replaceFront, replaceFront, map_adjustFront hf, map_setFront]

lemma removeFront?_map :
    (heap.map f).removeFront? before' = (heap.removeFront? before).map (Prod.map f (map f)) := by
  by_cases h : 0 < heap.slots.size
  · have h' : 0 < (heap.map f).slots.size := by simpa [map] using h
    rw [removeFront?, removeFront?, dif_pos h, dif_pos h', Option.map_some, Prod.map, map_adjustFront hf,
      map_dropFront f heap h h']
    simp [map]
  · have h' : ¬ 0 < (heap.map f).slots.size := by simpa [map] using h
    rw [removeFront?, removeFront?, dif_neg h, dif_neg h', Option.map_none]

lemma isOrdered_map : (heap.map f).IsOrdered before' ↔ heap.IsOrdered before := by
  simp [isOrdered_iff, map, hf]

end InvertedIndex.Heap
