import InvertedIndex.Proofs.Heap.Sift

namespace InvertedIndex.Heap

variable {α : Type u} {before : α → α → Bool}

def IsOrdered (before : α → α → Bool) (heap : Heap α) : Prop := Ordered before heap.slots.toVector

def IsOrderedBelow (before : α → α → Bool) (heap : Heap α) : Prop :=
  OrderedOn before (· ≠ 0) heap.slots.toVector

lemma isHeap_iff {heap : Heap α} : heap.isHeap before = true ↔ heap.IsOrdered before :=
  decide_eq_true_iff

lemma isOrdered_iff {heap : Heap α} :
    heap.IsOrdered before ↔ ∀ p c (_ : p < heap.slots.size) (_ : c < heap.slots.size), IsChild p c →
      before heap.slots[c] heap.slots[p] = false := by
  rw [IsOrdered, ordered_iff]
  exact ⟨fun h p c hp hc hpc => h p c hp hc hpc trivial, fun h p c hp hc hpc _ => h p c hp hc hpc⟩

lemma isOrderedBelow_iff {heap : Heap α} :
    heap.IsOrderedBelow before ↔ ∀ p c (_ : p < heap.slots.size) (_ : c < heap.slots.size), IsChild p c →
      p ≠ 0 → before heap.slots[c] heap.slots[p] = false := Iff.rfl

lemma toList_length_le (heap : Heap α) : heap.toList.length ≤ heap.capacity := heap.size_le

lemma isEmpty_iff {heap : Heap α} : heap.isEmpty = true ↔ heap.toList = [] := by
  simp [isEmpty, toList]

lemma peek?_eq (heap : Heap α) : heap.peek? = heap.toList.head? := by
  rw [peek?, toList, List.head?_eq_getElem?, Array.getElem?_toList]

lemma peek?_eq_some_iff {heap : Heap α} {item : α} :
    heap.peek? = some item ↔ ∃ others, heap.toList = item :: others := by
  rw [peek?_eq, List.head?_eq_some_iff]

lemma peek?_eq_none_iff {heap : Heap α} : heap.peek? = none ↔ heap.toList = [] := by
  rw [peek?_eq, List.head?_eq_none_iff]

lemma rearrange_perm (heap : Heap α) {f : Vector α heap.slots.size → Vector α heap.slots.size}
    (hf : ∀ slots, (f slots).Perm slots) : (heap.rearrange f).toList.Perm heap.toList :=
  (hf heap.slots.toVector).toList

@[simp] lemma rearrange_capacity (heap : Heap α) (f : Vector α heap.slots.size → Vector α heap.slots.size) :
    (heap.rearrange f).capacity = heap.capacity := rfl

lemma rearrange_orderedOn (heap : Heap α) {f : Vector α heap.slots.size → Vector α heap.slots.size}
    {inside : Nat → Prop} (hf : OrderedOn before inside (f heap.slots.toVector)) :
    OrderedOn before inside (heap.rearrange f).slots.toVector := by
  intro p c hp hc hpc hin
  simp only [rearrange, Vector.size_toArray] at hp hc
  exact hf p c hp hc hpc hin

lemma rearrange_isOrdered (heap : Heap α) {f : Vector α heap.slots.size → Vector α heap.slots.size}
    (hf : Ordered before (f heap.slots.toVector)) : (heap.rearrange f).IsOrdered before :=
  ordered_iff.mpr (heap.rearrange_orderedOn (ordered_iff.mp hf))

lemma siftDownFrom_perm (before : α → α → Bool) (heap : Heap α) (i : Nat) :
    (heap.siftDownFrom before i).toList.Perm heap.toList :=
  heap.rearrange_perm fun slots => siftDown_perm slots i

lemma adjustFront_perm (before : α → α → Bool) (heap : Heap α) : (heap.adjustFront before).toList.Perm heap.toList :=
  siftDownFrom_perm before heap 0

@[simp] lemma adjustFront_capacity (before : α → α → Bool) (heap : Heap α) :
    (heap.adjustFront before).capacity = heap.capacity := rfl

lemma adjustFront_isOrdered (hw : IsWeakOrder before) {heap : Heap α} (h : heap.IsOrderedBelow before) :
    (heap.adjustFront before).IsOrdered before := by
  apply heap.rearrange_isOrdered
  rw [ordered_iff]
  apply siftDown_orderedOn hw (fun _ _ _ _ => trivial) _ 0 trivial
  constructor
  · exact h.mono fun p hp => hp.2
  · intro p c _ _ hp0
    exact absurd hp0.lt (Nat.not_lt_zero p)

lemma peek?_least (hw : IsWeakOrder before) {heap : Heap α} (h : heap.IsOrdered before) {front item : α}
    (hf : heap.peek? = some front) (hi : item ∈ heap.toList) : before item front = false := by
  obtain ⟨i, hlt, rfl⟩ := List.mem_iff_getElem.mp hi
  obtain ⟨h0, rfl⟩ := Array.getElem?_eq_some_iff.mp hf
  exact front_least hw h h0 i hlt

lemma setFront_toList (heap : Heap α) (item : α) : (heap.setFront item).toList = heap.toList.set 0 item := by
  simp [setFront, toList]

lemma getElem_setFront (heap : Heap α) (item : α) (i : Nat) (h : i < (heap.setFront item).slots.size)
    (h' : i < heap.slots.size) : (heap.setFront item).slots[i] = if i = 0 then item else heap.slots[i] := by
  refine (Array.getElem_setIfInBounds h').trans ?_
  simp only [eq_comm]

@[simp] lemma setFront_capacity (heap : Heap α) (item : α) : (heap.setFront item).capacity = heap.capacity := rfl

lemma setFront_isOrderedBelow {heap : Heap α} (h : heap.IsOrdered before) (item : α) :
    (heap.setFront item).IsOrderedBelow before := by
  rw [isOrdered_iff] at h
  rw [isOrderedBelow_iff]
  intro p c hp hc hpc hp0
  have hlt := hpc.lt
  have hp' : p < heap.slots.size := by simpa [setFront] using hp
  have hc' : c < heap.slots.size := by simpa [setFront] using hc
  rw [getElem_setFront heap item p hp hp', getElem_setFront heap item c hc hc', if_neg hp0, if_neg (by omega)]
  exact h p c hp' hc' hpc

lemma setFront_isOrdered {heap : Heap α} (h : heap.IsOrdered before) {front item : α} (hf : heap.peek? = some front)
    (he : ∀ a, before a item = before a front) : (heap.setFront item).IsOrdered before := by
  have hbelow := isOrderedBelow_iff.mp (setFront_isOrderedBelow h item)
  rw [isOrdered_iff] at h ⊢
  intro p c hp hc hpc
  by_cases hp0 : p = 0
  · subst hp0
    obtain ⟨h0, rfl⟩ := Array.getElem?_eq_some_iff.mp hf
    have hlt := hpc.lt
    have hc' : c < heap.slots.size := by simpa [setFront] using hc
    rw [getElem_setFront heap item 0 hp h0, getElem_setFront heap item c hc hc', if_pos rfl, if_neg (by omega), he]
    exact h 0 c h0 hc' hpc
  · exact hbelow p c hp hc hpc hp0

lemma replaceFront_perm (before : α → α → Bool) {heap : Heap α} {front : α} {others : List α}
    (h : heap.toList = front :: others) (item : α) : (heap.replaceFront before item).toList.Perm (item :: others) := by
  have hset : (heap.setFront item).toList = item :: others := by rw [setFront_toList, h, List.set_cons_zero]
  exact hset ▸ adjustFront_perm before (heap.setFront item)

lemma replaceFront_isOrdered (hw : IsWeakOrder before) {heap : Heap α} (h : heap.IsOrdered before) (item : α) :
    (heap.replaceFront before item).IsOrdered before :=
  adjustFront_isOrdered hw (setFront_isOrderedBelow h item)

lemma dropFront_perm (heap : Heap α) (h : 0 < heap.slots.size) :
    (heap.slots[0] :: (heap.dropFront h).toList).Perm heap.toList := by
  have hn : heap.slots.size - 1 < heap.slots.size := by omega
  have hperm : (heap.slots.swap 0 (heap.slots.size - 1)).toList.Perm heap.toList := (Array.swap_perm h hn).toList
  refine List.Perm.trans ?_ hperm
  -- The last item of the swapped slots is the front one.
  have hlast : (heap.slots.swap 0 (heap.slots.size - 1)).toList =
      (heap.dropFront h).toList ++ [heap.slots[0]] := by
    have hne : (heap.slots.swap 0 (heap.slots.size - 1)).toList ≠ [] := by
      rw [ne_eq, ← List.length_eq_zero_iff, Array.length_toList, Array.size_swap]
      omega
    have hfirst : (heap.slots.swap 0 (heap.slots.size - 1)).toList.getLast hne = heap.slots[0] := by
      rw [List.getLast_eq_getElem]
      simp only [Array.length_toList, Array.size_swap, Array.getElem_toList, Array.getElem_swap_right]
    rw [← List.dropLast_concat_getLast hne, hfirst, dropFront, toList, Array.toList_pop]
  rw [hlast]
  exact (List.perm_append_singleton _ _).symm

lemma dropFront_isOrderedBelow {heap : Heap α} (ho : heap.IsOrdered before) (h : 0 < heap.slots.size) :
    (heap.dropFront h).IsOrderedBelow before := by
  rw [isOrdered_iff] at ho
  rw [isOrderedBelow_iff]
  intro p c hp hc hpc hp0
  simp only [dropFront, Array.size_pop, Array.size_swap] at hp hc
  have hlt := hpc.lt
  simp only [dropFront, Array.getElem_pop, Array.getElem_swap]
  rw [if_neg (by omega), if_neg (by omega), if_neg (by omega), if_neg (by omega)]
  exact ho p c (by omega) (by omega) hpc

lemma removeFront?_eq_none_iff {heap : Heap α} : heap.removeFront? before = none ↔ heap.toList = [] := by
  rw [removeFront?, toList]
  split <;> simp <;> grind

lemma peek?_of_removeFront? {heap rest : Heap α} {item : α} (h : heap.removeFront? before = some (item, rest)) :
    heap.peek? = some item := by
  rw [removeFront?] at h
  split at h
  · obtain ⟨rfl, -⟩ := Prod.mk.inj (Option.some.inj h)
    exact Array.getElem?_eq_getElem _
  · simp at h

lemma removeFront?_perm {heap rest : Heap α} {item : α} (h : heap.removeFront? before = some (item, rest)) :
    (item :: rest.toList).Perm heap.toList := by
  rw [removeFront?] at h
  split at h
  · next hn =>
    obtain ⟨rfl, rfl⟩ := Prod.mk.inj (Option.some.inj h)
    exact ((adjustFront_perm before _).cons _).trans (heap.dropFront_perm hn)
  · simp at h

lemma removeFront?_capacity {heap rest : Heap α} {item : α} (h : heap.removeFront? before = some (item, rest)) :
    rest.capacity = heap.capacity := by
  rw [removeFront?] at h
  split at h
  · obtain ⟨-, rfl⟩ := Prod.mk.inj (Option.some.inj h)
    rfl
  · simp at h

lemma removeFront?_isOrdered (hw : IsWeakOrder before) {heap rest : Heap α} {item : α}
    (ho : heap.IsOrdered before) (h : heap.removeFront? before = some (item, rest)) : rest.IsOrdered before := by
  rw [removeFront?] at h
  split at h
  · next hn =>
    obtain ⟨-, rfl⟩ := Prod.mk.inj (Option.some.inj h)
    exact adjustFront_isOrdered hw (dropFront_isOrderedBelow ho hn)
  · simp at h

lemma exists_removeFront? (before : α → α → Bool) {heap : Heap α} {front : α} {others : List α}
    (h : heap.toList = front :: others) :
    ∃ rest, heap.removeFront? before = some (front, rest) ∧ rest.toList.Perm others := by
  cases hr : heap.removeFront? before with
  | none =>
    rw [removeFront?_eq_none_iff.mp hr] at h
    cases h
  | some p =>
    obtain ⟨item, rest⟩ := p
    have hfront := peek?_of_removeFront? hr
    rw [peek?_eq, h, List.head?_cons, Option.some.injEq] at hfront
    subst hfront
    exact ⟨rest, rfl, (List.perm_cons front).mp (h ▸ removeFront?_perm hr)⟩

lemma heapify_perm (before : α → α → Bool) (heap : Heap α) : (heap.heapify before).toList.Perm heap.toList :=
  heap.rearrange_perm fun slots => siftDownBelow_perm slots _

lemma heapify_isOrdered (hw : IsWeakOrder before) (heap : Heap α) : (heap.heapify before).IsOrdered before := by
  apply heap.rearrange_isOrdered
  rw [ordered_iff]
  apply siftDownBelow_orderedOn hw
  -- The slots of the second half have no children.
  intro p c hp hc hpc hhalf
  rw [IsChild] at hpc
  rw [size] at hhalf
  omega

lemma ofArray_perm (before : α → α → Bool) (items : Array α) : (ofArray before items).toList.Perm items.toList :=
  heapify_perm before _

lemma ofArray_isOrdered (hw : IsWeakOrder before) (items : Array α) : (ofArray before items).IsOrdered before :=
  heapify_isOrdered hw _

@[simp] lemma ofArray_capacity (before : α → α → Bool) (items : Array α) :
    (ofArray before items).capacity = items.size := rfl

lemma push_eq_ok (before : α → α → Bool) {heap : Heap α} (item : α) (h : heap.toList.length < heap.capacity) :
    ∃ heap', heap.push before item = .ok heap' ∧ heap'.toList.Perm (item :: heap.toList) ∧
      heap'.capacity = heap.capacity ∧ (IsWeakOrder before → heap.IsOrdered before → heap'.IsOrdered before) := by
  have hsize : heap.slots.size < heap.capacity := h
  refine ⟨_, dif_pos hsize, ?_, rfl, ?_⟩
  · refine (siftUp_perm (heap.slots.push item).toVector heap.slots.size _).toList.trans ?_
    simp only [Array.toVector, Vector.toList_mk, Array.toList_push]
    exact List.perm_append_singleton _ _
  · intro hw ho
    rw [isOrdered_iff] at ho
    refine (rearrange_isOrdered ⟨heap.slots.push item, heap.capacity, by simpa using Nat.succ_le_of_lt hsize⟩
      (f := fun slots => siftUp before slots heap.slots.size (by simp)) ?_)
    apply siftUp_ordered hw
    constructor
    · intro p c hp hc hpc hne
      have hlt := hpc.lt
      simp only [Array.size_push] at hp hc
      simp only [Array.toVector, Vector.getElem_mk, Array.getElem_push]
      rw [dif_pos (by omega), dif_pos (by omega)]
      exact ho p c (by omega) (by omega) hpc
    · intro p c hp hc hpn hnc
      have hlt := hnc.lt
      simp only [Array.size_push] at hc
      omega

lemma lt_of_push_eq_ok {heap heap' : Heap α} {item : α} (h : heap.push before item = .ok heap') :
    heap.toList.length < heap.capacity := by
  rw [push] at h
  split at h
  · next hlt => exact hlt
  · cases h

@[simp] lemma clear_toList (heap : Heap α) : heap.clear.toList = [] := rfl

lemma clear_of_isEmpty {heap : Heap α} (h : heap.isEmpty = true) : heap.clear = heap := by
  cases heap
  cases Array.isEmpty_iff.mp h
  rfl

end InvertedIndex.Heap
