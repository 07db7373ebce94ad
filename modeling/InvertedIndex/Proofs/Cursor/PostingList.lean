import InvertedIndex.Proofs.Cursor.Posting
import InvertedIndex.Proofs.Cursor.Stream
import Mathlib.Data.List.TakeWhile

namespace InvertedIndex

/-- The documents from a place in a list on. At the end there is nothing to move to, and there is no way back. -/
structure DocSequence where
  left : List DocId

instance : DocCursor DocSequence where
  doc s := Remaining.front s.left
  next s :=
    match s.left with
    | [] => .fault .docNextExhausted
    | _ :: left => .done ⟨left⟩ ()
  seek target s :=
    match s.left with
    | [] => .fault .docSeekExhausted
    | x :: left =>
      if target < x then .fault (.docSeekBehind target x) else .done ⟨(x :: left).dropWhile (· < target)⟩ ()
  cost s := s.left.length.toUInt64
  bound s := s.left.length

namespace PostingCursor

variable {c c' : PostingCursor} {postings : List Posting}

def sequence (c : PostingCursor) : DocSequence := ⟨c.documents⟩

lemma documents_of_lt (h : c.position < c.postings.size) :
    c.documents = c.doc :: { c with position := c.position + 1 }.documents := by
  rw [documents, rest, List.drop_eq_getElem_cons (by simpa using h), List.map_cons, doc_of_lt h]
  rfl

lemma documents_of_ge (h : c.postings.size ≤ c.position) : c.documents = [] := by
  rw [documents, rest, List.drop_eq_nil_of_le (by simpa using h), List.map_nil]

lemma doc_eq_front (c : PostingCursor) : c.doc = Remaining.front c.documents := by
  by_cases h : c.position < c.postings.size
  · rw [documents_of_lt h]
    rfl
  · rw [documents_of_ge (Nat.le_of_not_lt h), doc_of_ge (Nat.le_of_not_lt h)]
    rfl

variable {target : DocId} {stop : Nat}

lemma IsFirstFrom.documents_eq (h : c.IsFirstFrom target stop) :
    { c with position := stop }.documents = c.documents.dropWhile (· < target) := by
  rw [documents, documents, rest, rest, List.dropWhile_map]
  refine congrArg (List.map Posting.doc) (Sorted.dropWhile_drop h.start_le ?_ ?_).symm
  · exact fun i hi hs hi' => decide_eq_true (h.before i (by simpa using hi) hs hi')
  · exact fun hi => decide_eq_false (UInt64.not_lt.mpr (h.reached stop (by simpa using hi) (Nat.le_refl _)))

lemma IsFirstFrom.eq_of_target_le (h : c.IsFirstFrom target stop) (ht : target ≤ c.doc) : stop = c.position := by
  rcases Nat.eq_or_lt_of_le h.start_le with he | hlt
  · exact he.symm
  · have hsize : c.position < c.postings.size := Nat.lt_of_lt_of_le hlt h.le_size
    have hbefore := h.before c.position hsize (Nat.le_refl _) hlt
    rw [← doc_of_lt hsize] at hbefore
    exact absurd ht (UInt64.not_le.mpr hbefore)

lemma IsFirstFrom.next (h : c.IsFirstFrom target stop) (hsize : c.position < c.postings.size)
    (ht : ¬ target ≤ c.doc) : { c with position := c.position + 1 }.IsFirstFrom target stop where
  start_le := by
    refine Nat.lt_of_le_of_ne h.start_le fun he => ht ?_
    subst he
    rw [doc_of_lt hsize]
    exact h.reached _ hsize (Nat.le_refl _)
  le_size := h.le_size
  before i hi hs := h.before i hi (Nat.le_of_succ_le hs)
  reached := h.reached

lemma IsFirstFrom.stepTo_eq {limit : Nat} (h : c.IsFirstFrom target stop)
    (hl : c.postings.size - c.position ≤ limit) :
    DocCursor.stepTo target limit c = .done { c with position := stop } () := by
  induction limit generalizing c with
  | zero =>
    have hstart := h.start_le
    have hsize := h.le_size
    obtain rfl : stop = c.position := by omega
    rfl
  | succ limit ih =>
    rw [DocCursor.stepTo]
    by_cases ht : target ≤ DocCursor.doc c
    · rw [if_pos ht, h.eq_of_target_le ht]
    · have hsize : c.position < c.postings.size := by
        refine Nat.lt_of_not_le fun hge => ht ?_
        change target ≤ c.doc
        rw [doc_of_ge hge]
        exact DocId.le_exhausted target
      have hnext : DocCursor.next c = .done { c with position := c.position + 1 } () := if_pos hsize
      rw [if_neg ht, hnext]
      exact ih (h.next hsize ht) (by dsimp only; omega)

lemma IsSorted.sequence_apply (h : c.IsSorted) (m : Move) : (m.apply c).mapState sequence = m.apply c.sequence := by
  by_cases hlt : c.position < c.postings.size
  · have hcons := documents_of_lt hlt
    cases m with
    | next => simp only [Move.apply, DocCursor.next, next, if_pos hlt, Outcome.mapState, sequence, hcons]
    | seek target =>
      have he : c.doc ≠ DocId.exhausted := mt h.doc_eq_exhausted_iff.mp (Nat.not_le_of_lt hlt)
      simp only [Move.apply, DocCursor.seek, sequence, hcons]
      by_cases ht : target < c.doc
      · rw [seek, if_neg he, if_pos ht, if_pos ht]
        rfl
      · obtain ⟨stop, hseek, hstop⟩ := h.seek_eq he (UInt64.not_lt.mp ht)
        rw [hseek, if_neg ht, ← hcons, ← hstop.documents_eq]
        rfl
  · have hge := Nat.le_of_not_lt hlt
    have hnil := documents_of_ge hge
    cases m with
    | next => simp only [Move.apply, DocCursor.next, next, if_neg hlt, Outcome.mapState, sequence, hnil]
    | seek target =>
      simp only [Move.apply, DocCursor.seek, seek, if_pos (doc_of_ge hge), Outcome.mapState, sequence, hnil]

lemma IsSorted.apply_eq_done_iff (h : c.IsSorted) (m : Move) :
    (∃ c', m.apply c = .done c' ()) ↔ c.doc ≠ DocId.exhausted ∧ m.IsForward c.doc := by
  constructor
  · rintro ⟨c', hm⟩
    cases m with
    | next =>
      simp only [Move.apply, DocCursor.next, next] at hm
      split at hm
      · next hlt => exact ⟨mt h.doc_eq_exhausted_iff.mp (Nat.not_le_of_lt hlt), trivial⟩
      · cases hm
    | seek target =>
      simp only [Move.apply, DocCursor.seek, seek] at hm
      split at hm
      · cases hm
      · next he =>
        split at hm
        · cases hm
        · next ht => exact ⟨he, UInt64.not_lt.mp ht⟩
  · rintro ⟨he, hf⟩
    obtain ⟨c', hm, -⟩ := FaithfulCursor.apply_done (c := c) (m := m) h he hf
    exact ⟨c', hm⟩

lemma IsSorted.sequence_run (h : c.IsSorted) (ms : List Move) :
    (DocCursor.run ms c).mapState sequence = DocCursor.run ms c.sequence := by
  induction ms generalizing c with
  | nil => rfl
  | cons m ms ih =>
    have happly := h.sequence_apply m
    rw [DocCursor.run, DocCursor.run, ← happly]
    cases hm : m.apply c with
    | done c₁ u =>
      have hrun := ih (h.of_apply hm)
      have hdoc : DocCursor.doc c₁.sequence = DocCursor.doc c₁ := c₁.doc_eq_front.symm
      simp only [Outcome.mapState, DocCursor.answer, ← hrun, hdoc]
      cases DocCursor.run ms c₁ <;> rfl
    | failed c₁ e => rfl
    | fault x => rfl

lemma postings_of_run {ms : List Move} {docs : List DocId} (h : DocCursor.run ms c = .done c' docs) :
    c'.postings = c.postings := by
  induction ms generalizing c docs with
  | nil =>
    obtain ⟨rfl, -⟩ := Outcome.done.inj h
    rfl
  | cons m ms ih =>
    obtain ⟨c₁, docs₁, hm, hrun⟩ := DocCursor.run_cons_done h
    exact (ih hrun).trans (postings_of_apply hm)

def first? (postings : List Posting) (s : DocSequence) : Option Posting :=
  s.left.head?.bind fun x => postings.find? (·.doc == x)

lemma ofList_eq_ok (h : ∀ p ∈ postings, p.doc ≠ DocId.exhausted) :
    ofList postings = .ok ⟨(Sorted.ofList Posting.doc postings).toArray, 0⟩ := by
  refine if_neg fun hany => ?_
  obtain ⟨p, hp, hd⟩ := List.any_eq_true.mp hany
  exact h p hp (beq_iff_eq.mp hd)

lemma current?_eq_first? (h : c.IsSorted) (hc : c.postings = (Sorted.ofList Posting.doc postings).toArray) :
    c.current? = first? postings c.sequence := by
  have hlist : c.postings.toList = Sorted.ofList Posting.doc postings := by rw [hc]
  by_cases hlt : c.position < c.postings.size
  · have hmem : c.postings[c.position] ∈ c.postings.toList := Array.getElem_mem_toList hlt
    have hfind := h.increasing.find?_eq hmem
    rw [hlist, Sorted.find?_ofList] at hfind
    rw [first?, sequence, documents_of_lt hlt, List.head?_cons, Option.bind_some, doc_of_lt hlt, current?,
      Array.getElem?_eq_getElem hlt, hfind]
  · have hge := Nat.le_of_not_lt hlt
    rw [first?, sequence, documents_of_ge hge, current?, Array.getElem?_eq_none hge]
    rfl

lemma front_dropWhile (left : List DocId) :
    Remaining.front (left.dropWhile (· < target)) = (left.find? (target ≤ ·)).getD DocId.exhausted := by
  rw [Remaining.front, List.headD_eq_head?_getD, ← List.find?_not_eq_head?_dropWhile]
  refine congrArg (fun p => (left.find? p).getD DocId.exhausted) (funext fun x => ?_)
  grind

lemma IsSorted.seek_spec (h : c.IsSorted) (he : c.doc ≠ DocId.exhausted) (ht : c.doc ≤ target) :
    ∃ c', c.seek target = .done c' () ∧ DocCursor.stepTo target (DocCursor.bound c) c = .done c' () ∧
      c'.doc = (c.documents.find? (target ≤ ·)).getD DocId.exhausted ∧ target ≤ c'.doc ∧
      (target = c.doc → c' = c) := by
  obtain ⟨stop, hseek, hstop⟩ := h.seek_eq he ht
  have hdoc := doc_eq_front { c with position := stop }
  rw [hstop.documents_eq, front_dropWhile] at hdoc
  refine ⟨_, hseek, hstop.stepTo_eq (Nat.le_refl _), hdoc, ?_, fun heq => ?_⟩
  · rw [hdoc]
    cases hf : c.documents.find? (target ≤ ·) with
    | none => exact DocId.le_exhausted target
    | some x =>
      have hx := List.find?_some hf
      exact of_decide_eq_true hx
  · rw [hstop.eq_of_target_le (heq ▸ UInt64.le_refl _)]

/-- Whatever the postings are, the cursor on them does what a place in the increasing list of their documents does,
faults included, and shows the first posting on each document. Seeking leads to where repeated moves to the next
document lead. -/
theorem cursor_follows_sequence (h : ∀ p ∈ postings, p.doc ≠ DocId.exhausted) :
    ∃ c, ofList postings = .ok c ∧ c.documents.Pairwise (· < ·) ∧
      (∀ x, x ∈ c.documents ↔ ∃ p ∈ postings, p.doc = x) ∧
      ∀ ms, (DocCursor.run ms c).mapState sequence = DocCursor.run ms ⟨c.documents⟩ ∧
        ∀ c' answers, DocCursor.run ms c = .done c' answers →
          c'.documents = c.documents.drop c'.position ∧
          c'.doc = Remaining.front c'.documents ∧
          c'.current? = first? postings ⟨c'.documents⟩ ∧
          c'.frequency = (first? postings ⟨c'.documents⟩).elim 0 Posting.frequency ∧
          (∀ m : Move, (∃ c'', m.apply c' = .done c'' ()) ↔ c'.doc ≠ DocId.exhausted ∧ m.IsForward c'.doc) ∧
          ∀ target, c'.doc ≠ DocId.exhausted → c'.doc ≤ target →
            ∃ c'', c'.seek target = .done c'' () ∧
              DocCursor.stepTo target (DocCursor.bound c') c' = .done c'' () ∧
              c''.doc = (c'.documents.find? (target ≤ ·)).getD DocId.exhausted ∧ target ≤ c''.doc ∧
              (target = c'.doc → c'' = c') := by
  have hc := ofList_eq_ok h
  refine ⟨_, hc, ?_, fun x => ?_, fun ms => ⟨(isSorted_of_ofList hc).sequence_run ms, fun c' answers hrun => ?_⟩⟩
  · exact (List.pairwise_map.mpr ((isSorted_of_ofList hc).increasing.imp DocId.compare_eq_lt.mp))
  · exact List.mem_map.trans Sorted.exists_key_ofList_iff
  · have hpostings := postings_of_run hrun
    have hsorted : c'.IsSorted :=
      ⟨hpostings ▸ (isSorted_of_ofList hc).increasing, hpostings ▸ (isSorted_of_ofList hc).real⟩
    have hcurrent := current?_eq_first? hsorted hpostings
    refine ⟨?_, c'.doc_eq_front, hcurrent, congrArg (Option.elim · 0 Posting.frequency) hcurrent,
      hsorted.apply_eq_done_iff, fun target he ht => hsorted.seek_spec he ht⟩
    rw [documents, rest, hpostings, List.map_drop]
    rfl

theorem cursor_follows_unsorted_sequence :
    let postings : List Posting := [⟨9, 2, 1⟩, ⟨4, 1, 1⟩, ⟨9, 5, 1⟩, ⟨16, 1, 1⟩, ⟨4, 7, 1⟩]
    (∀ p ∈ postings, p.doc ≠ DocId.exhausted) ∧
      ∃ c c' c'', ofList postings = .ok c ∧ c.documents = [4, 9, 16] ∧
        DocCursor.run [.seek 4, .next] c = .done c' [4, 9] ∧ c'.current? = some ⟨9, 2, 1⟩ ∧
        c'.seek 10 = .done c'' () ∧ c''.doc = 16 ∧
        DocCursor.run [.next, .seek 3] c = .fault (.docSeekBehind 3 9) ∧
        DocCursor.run [.seek DocId.exhausted, .next] c = .fault .docNextExhausted := by
  intro postings
  have hreal : ∀ p ∈ postings, p.doc ≠ DocId.exhausted := by decide
  obtain ⟨c, hc, hinc, hmem, hall⟩ := cursor_follows_sequence hreal
  have hleft : c.documents = [4, 9, 16] := by
    have hincreasing : Sorted.Increasing id c.documents := hinc.imp DocId.compare_eq_lt.mpr
    refine hincreasing.eq_of_mem_iff (by rw [Sorted.Increasing]; decide) fun x => (hmem x).trans ?_
    simp only [postings, List.mem_cons, List.not_mem_nil, or_false, exists_eq_or_imp, exists_eq_left]
    grind
  rw [hleft] at hall
  obtain ⟨c', hrun, hsequence⟩ := Outcome.mapState_eq_done (hall [.seek 4, .next]).1
  obtain ⟨-, hdoc, hcurrent, -, -, hseek⟩ := (hall [.seek 4, .next]).2 c' [4, 9] hrun
  have hleft' : c'.documents = [9, 16] := congrArg DocSequence.left hsequence
  rw [hleft'] at hdoc hcurrent hseek
  obtain ⟨c'', hc'', -, hdoc'', -⟩ := hseek 10 (by rw [hdoc]; decide) (by rw [hdoc]; decide)
  exact ⟨hreal, c, c', c'', hc, hleft, hrun, hcurrent, hc'', hdoc'',
    Outcome.mapState_eq_fault (hall [.next, .seek 3]).1,
    Outcome.mapState_eq_fault (hall [.seek DocId.exhausted, .next]).1⟩

end PostingCursor

end InvertedIndex
