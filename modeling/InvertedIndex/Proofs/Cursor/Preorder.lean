import InvertedIndex.Proofs.Cursor.Matching
import InvertedIndex.Proofs.Heap.Trail
import InvertedIndex.Query

namespace InvertedIndex.Disjunction

open Heap

variable {C : Type} [ScoredCursor C] {d : Disjunction C}

lemma lt_size_of_onDoc {i : Nat} (h : d.onDoc i = true) : i < d.live.size := (onDoc_iff.mp h).1

lemma doc_le_of_front (ho : d.live.IsOrdered docBefore) {front : C} (hf : d.live.peek? = some front)
    (hd : DocCursor.doc front = d.doc) {c : C} (hc : c ∈ d.children) : d.doc ≤ DocCursor.doc c :=
  hd ▸ docBefore_eq_false_iff.mp (peek?_least docBefore_isWeakOrder ho hf hc)

lemma map_some_filterMap_of_isSome {α β : Type} {f : α → Option β} {xs : List α} (h : ∀ x ∈ xs, (f x).isSome = true) :
    (xs.filterMap f).map some = xs.map f := by
  induction xs with
  | nil => rfl
  | cons x xs ih =>
    obtain ⟨b, hb⟩ := Option.isSome_iff_exists.mp (h x List.mem_cons_self)
    rw [List.filterMap_cons_some hb, List.map_cons, List.map_cons, hb, ih fun y hy => h y (List.mem_cons_of_mem x hy)]

lemma matching_eq_preorder (he : d.doc ≠ DocId.exhausted) (h : d.onDoc 0 = true) :
    d.matching.map some = (Region.preorder d.onDoc d.live.size 0).map (d.live.slots[·]?) := by
  have hne : d.children ≠ [] := List.ne_nil_of_length_pos (lt_size_of_onDoc h)
  rw [matching_eq he hne, Region.walk_eq_preorder (fun _ => lt_size_of_onDoc) h]
  refine map_some_filterMap_of_isSome fun i hi => ?_
  rw [Array.getElem?_eq_getElem (Region.on_of_mem_preorder hi).1]
  rfl

/-- With the front slot on the document, the loop behind the walk ends without leaving the slots, and visits those of
the recursive preorder, each once. If the slots are a heap, these are all slots on the document. -/
theorem matching_visits_in_preorder {front : C} (hf : d.live.peek? = some front) (hd : DocCursor.doc front = d.doc)
    (he : d.doc ≠ DocId.exhausted) :
    (∃ places, Region.Trail d.onDoc (.seen 0) places ∧ (∀ p ∈ places, p.slot < d.live.size) ∧
      places.filterMap Region.Place.seen? = Region.preorder d.onDoc d.live.size 0) ∧
    d.matching.map some = (Region.preorder d.onDoc d.live.size 0).map (d.live.slots[·]?) ∧
    (Region.preorder d.onDoc d.live.size 0).Nodup ∧
    (d.isHeap = true → ∀ i, i ∈ Region.preorder d.onDoc d.live.size 0 ↔ d.onDoc i = true) := by
  have hon : d.onDoc 0 = true := (onDoc_zero_iff hf).mpr hd
  refine ⟨Region.ends_preorder (fun _ => lt_size_of_onDoc) hon, matching_eq_preorder he hon, Region.nodup_preorder 0,
    fun hheap i => ?_⟩
  have ho := isHeap_iff.mp hheap
  exact Region.mem_preorder_zero_iff (fun _ => lt_size_of_onDoc) fun p c =>
    onDoc_parent ho fun c => doc_le_of_front ho hf hd

def single (doc : DocId) : Leaf := ⟨⟨#[{ doc := doc }], 0⟩, .table [] 1, none⟩

def scattered : Disjunction Leaf where
  -- Slots 7 and 8 are on document 4, and slot 3 above them is not.
  live := ⟨#[single 4, single 4, single 4, single 1, single 4, single 4, single 4, single 4, single 4, single 2,
    single 4, single 9, single 4], 13, Nat.le_refl 13⟩
  tieBreaker := 0
  doc := 4
  cost := 13

theorem scattered_matching_visits_in_preorder :
    scattered.isHeap = false ∧ scattered.onDoc 7 = true ∧ scattered.doc ≠ DocId.exhausted ∧
    (∃ front, scattered.live.peek? = some front ∧ DocCursor.doc front = scattered.doc) ∧
    (∃ places, Region.Trail scattered.onDoc (.seen 0) places ∧ (∀ p ∈ places, p.slot < 13) ∧
      places.filterMap Region.Place.seen? = [0, 1, 4, 10, 2, 5, 12, 6]) ∧
    scattered.matching.map some = [0, 1, 4, 10, 2, 5, 12, 6].map (scattered.live.slots[·]?) := by
  have hf : scattered.live.peek? = some (single 4) := rfl
  have he : scattered.doc ≠ DocId.exhausted := by decide
  obtain ⟨hends, hmatching, -, -⟩ := matching_visits_in_preorder hf rfl he
  have hpre : Region.preorder scattered.onDoc scattered.live.size 0 = [0, 1, 4, 10, 2, 5, 12, 6] := by decide +kernel
  rw [hpre] at hends hmatching
  exact ⟨by decide +kernel, by decide +kernel, he, ⟨_, hf, rfl⟩, hends, hmatching⟩

end InvertedIndex.Disjunction
