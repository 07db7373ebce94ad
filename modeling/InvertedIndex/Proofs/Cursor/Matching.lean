import InvertedIndex.Proofs.Cursor.Union
import InvertedIndex.Proofs.Heap.Region

namespace InvertedIndex.Disjunction

open Heap FaithfulCursor

variable {C : Type} [ScoredCursor C] {d : Disjunction C}

def onDoc (d : Disjunction C) (i : Nat) : Bool := d.live.slots[i]?.any (DocCursor.doc · == d.doc)

lemma matching_eq (he : d.doc ≠ DocId.exhausted) (hne : d.children ≠ []) :
    d.matching = (Region.walk d.onDoc d.live.size).filterMap (d.live.slots[·]?) := by
  refine if_neg ?_
  rw [Heap.isEmpty_iff]
  exact fun h => h.elim hne he

lemma onDoc_iff {i : Nat} : d.onDoc i = true ↔ ∃ h : i < d.live.slots.size, DocCursor.doc d.live.slots[i] = d.doc := by
  rw [onDoc]
  by_cases h : i < d.live.slots.size
  · rw [Array.getElem?_eq_getElem h, Option.any_some, beq_iff_eq]
    exact ⟨fun hd => ⟨h, hd⟩, fun ⟨_, hd⟩ => hd⟩
  · rw [Array.getElem?_eq_none (Nat.le_of_not_lt h)]
    exact ⟨nofun, fun ⟨h', _⟩ => absurd h' h⟩

lemma filterMap_filter_range {α : Type} (p : α → Bool) (xs : List α) :
    ((List.range xs.length).filter fun i => xs[i]?.any p).filterMap (xs[·]?) = xs.filter p := by
  induction xs with
  | nil => rfl
  | cons x xs ih =>
    rw [List.length_cons, List.range_succ_eq_map]
    by_cases hx : p x = true
    · rw [List.filter_cons_of_pos (by simpa using hx), List.filter_map, List.filterMap_cons_some (b := x) (by simp),
        List.filterMap_map, List.filter_cons_of_pos hx, ← ih]
      rfl
    · rw [List.filter_cons_of_neg (by simpa using hx), List.filter_map, List.filterMap_map,
        List.filter_cons_of_neg hx, ← ih]
      rfl

lemma onDoc_zero_iff {front : C} (hf : d.live.peek? = some front) :
    d.onDoc 0 = true ↔ DocCursor.doc front = d.doc := by
  rw [peek?] at hf
  rw [onDoc, hf, Option.any_some, beq_iff_eq]

lemma onDoc_parent (ho : d.live.IsOrdered docBefore) (hle : ∀ c ∈ d.children, d.doc ≤ DocCursor.doc c) {p c : Nat}
    (hpc : IsChild p c) (hc : d.onDoc c = true) : d.onDoc p = true := by
  obtain ⟨hlt, hdoc⟩ := onDoc_iff.mp hc
  have hp : p < d.live.slots.size := Nat.lt_trans hpc.lt hlt
  have hparent := docBefore_eq_false_iff.mp (isOrdered_iff.mp ho p c hp hlt hpc)
  have hge := hle d.live.slots[p] (Array.getElem_mem_toList hp)
  exact onDoc_iff.mpr ⟨hp, UInt64.le_antisymm (hdoc ▸ hparent) hge⟩

lemma matching_perm_of_front (ho : d.live.IsOrdered docBefore) (hle : ∀ c ∈ d.children, d.doc ≤ DocCursor.doc c)
    (he : d.doc ≠ DocId.exhausted) {front : C} (hf : d.live.peek? = some front) (hd : DocCursor.doc front = d.doc) :
    d.matching.Perm (d.children.filter (DocCursor.doc · == d.doc)) := by
  obtain ⟨others, hlive⟩ := peek?_eq_some_iff.mp hf
  have hne : d.children ≠ [] := by simp [children, hlive]
  have hon : ∀ i, d.onDoc i = true → i < d.live.size := fun i hi => (onDoc_iff.mp hi).1
  have hwalk := Region.walk_perm_filter hon (fun p c => onDoc_parent ho hle) ((onDoc_zero_iff hf).mpr hd)
  have hslots : (d.live.slots[·]?) = (d.children[·]?) := funext fun i => Array.getElem?_toList.symm
  have hcond : d.onDoc = fun i => d.children[i]?.any (DocCursor.doc · == d.doc) := funext fun i =>
    congrArg (Option.any _) (congrFun hslots i)
  rw [matching_eq he hne, ← filterMap_filter_range, hslots, ← hcond]
  exact hwalk.filterMap _

lemma matching_eq_front (he : d.doc ≠ DocId.exhausted) {front : C} (hf : d.live.peek? = some front)
    (hnone : ∀ c ∈ d.children, DocCursor.doc c ≠ d.doc) : d.matching = [front] := by
  obtain ⟨others, hlive⟩ := peek?_eq_some_iff.mp hf
  have hne : d.children ≠ [] := by simp [children, hlive]
  have hon : ∀ i, d.onDoc i = false := fun i => Bool.eq_false_iff.mpr fun hi => by
    obtain ⟨hlt, hd⟩ := onDoc_iff.mp hi
    exact hnone _ (Array.getElem_mem_toList hlt) hd
  have hsize : 0 < d.live.size := List.length_pos_iff.mpr hne
  rw [peek?] at hf
  rw [matching_eq he hne, Region.walk_eq_singleton hon hsize, List.filterMap_cons_some hf, List.filterMap_nil]

variable [FaithfulCursor C]

lemma IsValid.matching_perm (h : d.IsValid) (he : d.doc ≠ DocId.exhausted) :
    d.matching.Perm (d.children.filter (DocCursor.doc · == d.doc)) := by
  cases hf : d.live.peek? with
  | none => exact absurd (h.doc_eq_exhausted_iff.mpr (peek?_eq_none_iff.mp hf)) he
  | some front =>
    refine matching_perm_of_front h.ordered (fun c => h.doc_le) he hf ?_
    rw [h.doc_eq, frontDoc, hf]
    rfl

lemma IsValid.doc_eq_iff_mem (h : d.IsValid) {c : C} (hc : c ∈ d.children) :
    DocCursor.doc c = d.doc ↔ d.doc ∈ FaithfulCursor.documents c := by
  constructor
  · intro hd
    rw [← hd]
    exact doc_mem (h.valid c hc) (h.live c hc)
  · exact fun hm => UInt64.le_antisymm (FaithfulCursor.doc_le (h.valid c hc) hm) (h.doc_le hc)

lemma IsValid.matching_perm_documents (h : d.IsValid) (he : d.doc ≠ DocId.exhausted) :
    d.matching.Perm (d.children.filter (d.doc ∈ FaithfulCursor.documents ·)) := by
  refine (h.matching_perm he).trans (List.Perm.of_eq (List.filter_congr fun c hc => ?_))
  rw [Bool.eq_iff_iff, beq_iff_eq, decide_eq_true_iff]
  exact h.doc_eq_iff_mem hc

end InvertedIndex.Disjunction
