import InvertedIndex.Posting
import InvertedIndex.Proofs.Cursor.Moves

namespace InvertedIndex.PostingCursor

structure IsSorted (c : PostingCursor) : Prop where
  increasing : Sorted.Increasing Posting.doc c.postings.toList
  real : ∀ p ∈ c.postings.toList, p.doc ≠ DocId.exhausted

lemma isSorted_of_ofList {postings : List Posting} {c : PostingCursor} (h : ofList postings = .ok c) : c.IsSorted := by
  rw [ofList] at h
  split at h
  · simp at h
  · next hany =>
    obtain rfl := Except.ok.inj h
    refine ⟨Sorted.ofList_increasing postings, ?_⟩
    intro p hp hd
    exact hany (List.any_eq_true.mpr ⟨p, Sorted.mem_of_mem_ofList _ hp, beq_iff_eq.mpr hd⟩)

lemma IsSorted.ofList_eq {c : PostingCursor} (h : c.IsSorted) :
    ofList c.postings.toList = .ok { c with position := 0 } := by
  rw [ofList, if_neg, h.increasing.ofList_eq]
  rw [List.any_eq_true]
  rintro ⟨p, hp, hd⟩
  exact h.real p hp (beq_iff_eq.mp hd)

lemma IsSorted.lt {c : PostingCursor} (h : c.IsSorted) {i j : Nat} (hij : i < j) (hj : j < c.postings.size)
    (hi : i < c.postings.size) : c.postings[i].doc < c.postings[j].doc :=
  DocId.compare_eq_lt.mp (List.pairwise_iff_getElem.mp h.increasing i j hi hj hij)

lemma doc_of_lt {c : PostingCursor} (h : c.position < c.postings.size) : c.doc = c.postings[c.position].doc := by
  simp [doc, current?, h]

lemma doc_of_ge {c : PostingCursor} (h : c.postings.size ≤ c.position) : c.doc = DocId.exhausted := by
  simp [doc, current?, h]

lemma IsSorted.doc_eq_exhausted_iff {c : PostingCursor} (h : c.IsSorted) :
    c.doc = DocId.exhausted ↔ c.postings.size ≤ c.position := by
  constructor
  · intro he
    by_contra hlt
    rw [doc_of_lt (by omega)] at he
    exact h.real _ (Array.getElem_mem_toList _) he
  · exact doc_of_ge

def documents (c : PostingCursor) : List DocId := c.rest.map Posting.doc

lemma mem_documents_iff {c : PostingCursor} {x : DocId} :
    x ∈ c.documents ↔ ∃ (i : Nat) (_ : i < c.postings.size), c.position ≤ i ∧ c.postings[i].doc = x := by
  rw [documents, rest]
  rw [List.mem_map]
  constructor
  · rintro ⟨p, hp, rfl⟩
    obtain ⟨i, hi, rfl⟩ := List.mem_iff_getElem.mp hp
    simp only [List.length_drop, Array.length_toList] at hi
    exact ⟨c.position + i, by omega, by omega, by simp⟩
  · rintro ⟨i, hi, hle, rfl⟩
    refine ⟨c.postings[i], List.mem_iff_getElem.mpr ⟨i - c.position, ?_, ?_⟩, rfl⟩
    · simp only [List.length_drop, Array.length_toList]
      omega
    · simp [Nat.add_sub_cancel' hle]

variable {c : PostingCursor}

lemma IsSorted.doc_le (h : c.IsSorted) {x : DocId} (hx : x ∈ c.documents) : c.doc ≤ x := by
  obtain ⟨i, hi, hle, rfl⟩ := mem_documents_iff.mp hx
  rw [doc_of_lt (by omega)]
  rcases Nat.eq_or_lt_of_le hle with he | hlt
  · simp only [he]
    exact UInt64.le_refl _
  · exact UInt64.le_of_lt (h.lt hlt hi (by omega))

lemma IsSorted.next_done (h : c.IsSorted) (he : c.doc ≠ DocId.exhausted) :
    ∃ c', c.next = .done c' () ∧ c'.IsSorted ∧ ∀ x, x ∈ c'.documents ↔ x ∈ c.documents ∧ c.doc < x := by
  have hlt : c.position < c.postings.size := by
    rw [ne_eq, h.doc_eq_exhausted_iff] at he
    omega
  refine ⟨{ c with position := c.position + 1 }, if_pos hlt, ⟨h.increasing, h.real⟩, fun x => ?_⟩
  rw [mem_documents_iff, mem_documents_iff, doc_of_lt hlt]
  constructor
  · rintro ⟨i, (hi : i < c.postings.size), (hle : c.position + 1 ≤ i), rfl⟩
    exact ⟨⟨i, hi, by omega, rfl⟩, h.lt hle hi hlt⟩
  · rintro ⟨⟨i, hi, hle, rfl⟩, hd⟩
    refine ⟨i, hi, ?_, rfl⟩
    rcases Nat.eq_or_lt_of_le hle with hei | hlt'
    · simp only [hei] at hd
      exact absurd hd (UInt64.lt_irrefl _)
    · exact hlt'

structure IsFirstFrom (target : DocId) (c : PostingCursor) (stop : Nat) : Prop where
  start_le : c.position ≤ stop
  le_size : stop ≤ c.postings.size
  before : ∀ i (_ : i < c.postings.size), c.position ≤ i → i < stop → c.postings[i].doc < target
  reached : ∀ i (_ : i < c.postings.size), stop ≤ i → target ≤ c.postings[i].doc

lemma IsSorted.seek_eq (h : c.IsSorted) {target : DocId} (he : c.doc ≠ DocId.exhausted) (ht : c.doc ≤ target) :
    ∃ stop, c.seek target = .done { c with position := stop } () ∧ c.IsFirstFrom target stop := by
  have hlt : c.position < c.postings.size := Nat.lt_of_not_le (mt h.doc_eq_exhausted_iff.mpr he)
  obtain ⟨hstart, hsize, hbelow, habove⟩ := Sorted.lowerBound_spec
    (fun p : Posting => decide (p.doc < target)) (Nat.le_of_lt hlt) (h.increasing.imp fun {a b} hab hb => by
      have hlt' := DocId.compare_eq_lt.mp hab
      grind)
  refine ⟨_, by rw [seek, if_neg he, if_neg (UInt64.not_lt.mpr ht)], hstart, hsize, ?_, ?_⟩
  · exact fun i hi hs hi' => of_decide_eq_true (hbelow i hi hs hi')
  · exact fun i hi hs => UInt64.not_lt.mp (of_decide_eq_false (habove i hi hs))

lemma IsSorted.seek_done (h : c.IsSorted) (he : c.doc ≠ DocId.exhausted) {target : DocId} (ht : c.doc ≤ target) :
    ∃ c', c.seek target = .done c' () ∧ c'.IsSorted ∧ ∀ x, x ∈ c'.documents ↔ x ∈ c.documents ∧ target ≤ x := by
  obtain ⟨stop, hseek, hstop⟩ := h.seek_eq he ht
  refine ⟨_, hseek, ⟨h.increasing, h.real⟩, fun x => ?_⟩
  rw [mem_documents_iff, mem_documents_iff]
  constructor
  · rintro ⟨i, hi, hle, rfl⟩
    exact ⟨⟨i, hi, Nat.le_trans hstop.start_le hle, rfl⟩, hstop.reached i hi hle⟩
  · rintro ⟨⟨i, hi, hle, rfl⟩, hd⟩
    refine ⟨i, hi, Nat.le_of_not_lt fun hlt => ?_, rfl⟩
    exact absurd hd (UInt64.not_le.mpr (hstop.before i hi hle hlt))

lemma apply_eq_done_or_fault (m : Move) (c : PostingCursor) :
    (∃ position, m.apply c = .done { c with position := position } ()) ∨ ∃ x, m.apply c = .fault x := by
  cases m with
  | next =>
    simp only [Move.apply, DocCursor.next, next]
    split
    · exact .inl ⟨_, rfl⟩
    · exact .inr ⟨_, rfl⟩
  | seek target =>
    simp only [Move.apply, DocCursor.seek, seek]
    split
    · exact .inr ⟨_, rfl⟩
    · split
      · exact .inr ⟨_, rfl⟩
      · exact .inl ⟨_, rfl⟩

lemma postings_of_apply {c' : PostingCursor} {m : Move} (hm : m.apply c = .done c' ()) :
    c'.postings = c.postings := by
  obtain ⟨position, hd⟩ | ⟨x, hx⟩ := c.apply_eq_done_or_fault m
  · rw [hd, Outcome.done.injEq] at hm
    exact hm.1 ▸ rfl
  · rw [hx] at hm
    cases hm

lemma IsSorted.of_apply {c' : PostingCursor} {m : Move} (h : c.IsSorted) (hm : m.apply c = .done c' ()) :
    c'.IsSorted := by
  have hpostings := postings_of_apply hm
  exact ⟨hpostings ▸ h.increasing, hpostings ▸ h.real⟩

instance : FaithfulCursor PostingCursor where
  IsValid := IsSorted
  documents := documents
  doc_mem {c} _ he := by
    have hlt : c.position < c.postings.size := Nat.lt_of_not_le fun hge => he (doc_of_ge hge)
    exact mem_documents_iff.mpr ⟨c.position, hlt, Nat.le_refl _, (doc_of_lt hlt).symm⟩
  doc_le h hx := h.doc_le hx
  exhausted_notMem {c} h hx := by
    obtain ⟨i, hi, -, he⟩ := mem_documents_iff.mp hx
    exact h.real _ (Array.getElem_mem_toList hi) he
  length_le_bound {c} _ := by
    simp [documents, rest, DocCursor.bound, size]
  apply_done {c m} h he hf := by
    cases m with
    | next =>
      obtain ⟨c', hc, hv, hmem⟩ := h.next_done he
      exact ⟨c', hc, hv, fun x => (hmem x).trans (and_congr_right' decide_eq_true_iff.symm)⟩
    | seek target =>
      obtain ⟨c', hc, hv, hmem⟩ := h.seek_done he hf
      exact ⟨c', hc, hv, fun x => (hmem x).trans (and_congr_right' decide_eq_true_iff.symm)⟩

end InvertedIndex.PostingCursor
