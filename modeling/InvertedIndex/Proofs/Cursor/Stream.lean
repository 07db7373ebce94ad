import InvertedIndex.Proofs.Cursor.Tree
import Mathlib.Data.List.Perm.Subperm

namespace InvertedIndex

open FaithfulCursor

namespace DocCursor

variable {C : Type} [DocCursor C]

def stepTo (target : DocId) : (limit : Nat) → C → Outcome C Unit
  | 0, c => .done c ()
  | limit + 1, c =>
    if target ≤ doc c then .done c ()
    else
      match next c with
      | .done c () => stepTo target limit c
      | .failed c e => .failed c e
      | .fault x => .fault x

def SameFuture (c₁ c₂ : C) : Prop :=
  ∀ ms, GoesForward ms c₁ → GoesForward ms c₂ ∧
    ∃ c₁' c₂' docs, run ms c₁ = .done c₁' docs ∧ run ms c₂ = .done c₂' docs

structure Streams (c : C) (left : List DocId) : Prop where
  answers : ∀ ms, GoesForward ms c → ∃ c', run ms c = .done c' (Remaining.answers ms left)
  drains : ∃ c', drain doc c = .done c' (left, none) ∧ doc c' = DocId.exhausted
  seeks : ∀ target, (doc c ≠ DocId.exhausted → doc c ≤ target) → ∃ c₁ c₂, seek target c = .done c₁ () ∧
    stepTo target (bound c) c = .done c₂ () ∧ target ≤ doc c₂ ∧ doc c₁ = doc c₂ ∧ SameFuture c₁ c₂

end DocCursor

namespace Remaining

lemma move_next_cons {x : DocId} {xs : List DocId} (h : Sorted.Increasing id (x :: xs)) :
    move .next (x :: xs) = xs := by
  have hxs := (List.pairwise_cons.mp h).1
  rw [move, List.filter_cons_of_neg (by simp [Move.keeps, front]), List.filter_eq_self]
  intro y hy
  exact decide_eq_true (DocId.compare_eq_lt.mp (hxs y hy))

end Remaining

namespace FaithfulCursor.Represents

section Drain

variable {C : Type} [DocCursor C] [FaithfulCursor C] {c : C} {left : List DocId}

lemma length_le_bound (h : Represents c left) : left.length ≤ DocCursor.bound c := by
  have hsub : left ⊆ documents c := fun x hx => (h.mem_iff x).mpr hx
  exact Nat.le_trans (List.subperm_of_subset h.increasing.nodup hsub).length_le (FaithfulCursor.length_le_bound h.valid)

lemma next_done {x : DocId} {xs : List DocId} (h : Represents c (x :: xs)) :
    ∃ c', DocCursor.next c = .done c' () ∧ Represents c' xs := by
  obtain ⟨c', hm, hv, hmem⟩ := FaithfulCursor.apply_done (m := .next) h.valid
    (mt h.eq_nil_iff.mpr (List.cons_ne_nil x xs)) trivial
  have h' := h.move hv hmem
  rw [Remaining.move_next_cons h.increasing] at h'
  exact ⟨c', hm, h'⟩

lemma isExhausted_nil (h : Represents c []) : DocCursor.isExhausted c = true :=
  DocCursor.isExhausted_iff.mpr (h.eq_nil_iff.mp rfl)

lemma drainWithin_done {limit : Nat} (h : Represents c left) (hl : left.length ≤ limit) :
    ∃ c', DocCursor.drainWithin DocCursor.doc limit c = .done c' (left, none) ∧ DocCursor.doc c' = DocId.exhausted := by
  induction limit generalizing c left with
  | zero =>
    obtain rfl := List.length_eq_zero_iff.mp (Nat.le_zero.mp hl)
    exact ⟨c, rfl, h.eq_nil_iff.mp rfl⟩
  | succ limit ih =>
    cases left with
    | nil => exact ⟨c, by rw [DocCursor.drainWithin, if_pos h.isExhausted_nil], h.eq_nil_iff.mp rfl⟩
    | cons x xs =>
      have hne : ¬ DocCursor.isExhausted c = true := by
        rw [DocCursor.isExhausted_iff, ← h.eq_nil_iff]
        exact List.cons_ne_nil x xs
      obtain ⟨c₁, hm, h₁⟩ := h.next_done
      obtain ⟨c', hd, he⟩ := ih h₁ (Nat.le_of_succ_le_succ hl)
      refine ⟨c', ?_, he⟩
      simp [DocCursor.drainWithin, hne, hm, hd, Outcome.map, h.doc_eq, Remaining.front]

lemma stepTo_done (target : DocId) {limit : Nat} (h : Represents c left) (hl : left.length ≤ limit) :
    ∃ c', DocCursor.stepTo target limit c = .done c' () ∧ Represents c' (left.filter (target ≤ ·)) ∧
      target ≤ DocCursor.doc c' := by
  induction limit generalizing c left with
  | zero =>
    obtain rfl := List.length_eq_zero_iff.mp (Nat.le_zero.mp hl)
    exact ⟨c, rfl, h, h.eq_nil_iff.mp rfl ▸ DocId.le_exhausted target⟩
  | succ limit ih =>
    by_cases ht : target ≤ DocCursor.doc c
    · refine ⟨c, by rw [DocCursor.stepTo, if_pos ht], ?_, ht⟩
      rw [List.filter_eq_self.mpr]
      · exact h
      · intro x hx
        exact decide_eq_true (UInt64.le_trans ht (doc_le h.valid ((h.mem_iff x).mpr hx)))
    · cases left with
      | nil => exact absurd (h.eq_nil_iff.mp rfl ▸ DocId.le_exhausted target) ht
      | cons x xs =>
        obtain ⟨c₁, hm, h₁⟩ := h.next_done
        obtain ⟨c', hd, hr, ht'⟩ := ih h₁ (Nat.le_of_succ_le_succ hl)
        have hx : ¬ target ≤ x := by simpa [h.doc_eq, Remaining.front] using ht
        refine ⟨c', by rw [DocCursor.stepTo, if_neg ht, hm]; exact hd, ?_, ht'⟩
        rw [List.filter_cons_of_neg (by simpa using hx)]
        exact hr

end Drain

variable {C : Type} [ScoredCursor C] [FaithfulCursor C] {d d' : Disjunction C} {left : List DocId}

lemma apply_done (h : Represents d left) {m : Move}
    (hf : DocCursor.doc d ≠ DocId.exhausted → m.IsForward (DocCursor.doc d)) :
    ∃ d', m.apply d = .done d' () ∧ Represents d' (Remaining.move m left) := by
  obtain ⟨d', hm, hv, hmem⟩ := Disjunction.IsValid.apply_done h.valid hf
  exact ⟨d', hm, h.move hv hmem⟩

lemma run_done {ms : List Move} (h : Represents d left) (hf : DocCursor.GoesForward ms d) :
    ∃ d', DocCursor.run ms d = .done d' (Remaining.answers ms left) ∧ Represents d' (Remaining.moves ms left) := by
  induction ms generalizing d left with
  | nil => exact ⟨d, rfl, h⟩
  | cons m ms ih =>
    obtain ⟨d₁, hm, h₁⟩ := h.apply_done hf.1
    obtain ⟨d', hrun, h'⟩ := ih h₁ (hf.2 d₁ hm)
    refine ⟨d', ?_, h'⟩
    simp [DocCursor.run, DocCursor.answer, hm, hrun, Outcome.map, Remaining.answers, h₁.doc_eq]

lemma of_apply {m : Move} (h : Represents d left)
    (hf : DocCursor.doc d ≠ DocId.exhausted → m.IsForward (DocCursor.doc d)) (hm : m.apply d = .done d' ()) :
    Represents d' (Remaining.move m left) := by
  obtain ⟨d₁, hm₁, h₁⟩ := h.apply_done hf
  rw [hm, Outcome.done.injEq] at hm₁
  exact hm₁.1 ▸ h₁

lemma of_run {ms : List Move} {docs : List DocId} (h : Represents d left) (hf : DocCursor.GoesForward ms d)
    (hrun : DocCursor.run ms d = .done d' docs) :
    docs = Remaining.answers ms left ∧ Represents d' (Remaining.moves ms left) := by
  obtain ⟨d₁, hrun₁, h₁⟩ := h.run_done hf
  rw [hrun, Outcome.done.injEq] at hrun₁
  exact ⟨hrun₁.2, hrun₁.1 ▸ h₁⟩

lemma goesForward_iff {ms : List Move} (h : Represents d left) :
    DocCursor.GoesForward ms d ↔ Remaining.GoesForward ms left := by
  induction ms generalizing d left with
  | nil => exact Iff.rfl
  | cons m ms ih =>
    rw [DocCursor.GoesForward, Remaining.GoesForward]
    rw [h.doc_eq]
    refine and_congr_right fun hf => ?_
    rw [← h.doc_eq] at hf
    obtain ⟨d₁, hm, h₁⟩ := h.apply_done hf
    rw [← ih h₁]
    constructor
    · exact fun hall => hall d₁ hm
    · rintro hd c' hc
      obtain rfl : d₁ = c' := by simpa [hm] using hc
      exact hd

lemma sameFuture (h : Represents d left) (h' : Represents d' left) : DocCursor.SameFuture d d' := by
  intro ms hf
  have hf' := h'.goesForward_iff.mpr (h.goesForward_iff.mp hf)
  obtain ⟨d₁, hrun, -⟩ := h.run_done hf
  obtain ⟨d₂, hrun', -⟩ := h'.run_done hf'
  exact ⟨hf', d₁, d₂, _, hrun, hrun'⟩

lemma streams (h : Represents d left) : DocCursor.Streams d left where
  answers ms hf := by
    obtain ⟨d', hrun, -⟩ := h.run_done hf
    exact ⟨d', hrun⟩
  drains := h.drainWithin_done h.length_le_bound
  seeks target ht := by
    obtain ⟨d₁, hm, h₁⟩ := h.apply_done (m := .seek target) ht
    obtain ⟨d₂, hstep, h₂, hle⟩ := h.stepTo_done target h.length_le_bound
    exact ⟨d₁, d₂, hm, hstep, hle, h₁.doc_eq.trans h₂.doc_eq.symm, h₁.sameFuture h₂⟩

end FaithfulCursor.Represents

namespace QueryCursor

def remaining {n : Nat} (trees : List (QueryCursor n)) : List DocId := Sorted.ofList id (trees.flatMap documents)

lemma remaining_increasing {n : Nat} (children : List (QueryCursor n)) : Sorted.Increasing id (remaining children) :=
  Sorted.ofList_increasing _

lemma mem_remaining {n : Nat} {children : List (QueryCursor n)} {x : DocId} :
    x ∈ remaining children ↔ ∃ c ∈ children, x ∈ documents c := by
  rw [remaining, Sorted.mem_ofList_id, List.mem_flatMap]

lemma represents_remaining {n : Nat} {children : List (QueryCursor n)} {settings : UnionSettings}
    {d : Disjunction (QueryCursor n)} (ht : ∀ c ∈ children, IsTree c)
    (h : Disjunction.ofChildren settings children = .ok d) : Represents d (remaining children) := by
  have hv := fun c hc => (ht c hc).isValid
  refine ⟨Disjunction.isValid_ofChildren hv h, remaining_increasing _, fun x => ?_⟩
  rw [mem_remaining]
  exact Disjunction.mem_documents_ofChildren hv h x

/-- Whatever the trees are, and however far a run of moves forward has got, their union does what the sorted list of
the documents left in the trees does. -/
theorem union_streams_remaining {n : Nat} {children : List (QueryCursor n)} {settings : UnionSettings}
    (ht : ∀ c ∈ children, IsTree c) (hs : settings.IsValid)
    (hcost : Count.total ((children.filter (!DocCursor.isExhausted ·)).map fun c => (DocCursor.cost c).toNat) <
      UInt64.size) :
    Sorted.Increasing id (remaining children) ∧
      (∀ x, x ∈ remaining children ↔ ∃ c ∈ children, x ∈ documents c) ∧
      ∃ d, Disjunction.ofChildren settings children = .ok d ∧
        ∀ ms, DocCursor.GoesForward ms d →
          ∃ d', DocCursor.run ms d = .done d' (Remaining.answers ms (remaining children)) ∧
            DocCursor.doc d' = Remaining.front (Remaining.moves ms (remaining children)) ∧
            DocCursor.Streams d' (Remaining.moves ms (remaining children)) := by
  obtain ⟨d, hd⟩ := Disjunction.ofChildren_eq_ok hs hcost
  have hr := represents_remaining ht hd
  refine ⟨hr.increasing, fun x => mem_remaining, d, hd, fun ms hf => ?_⟩
  obtain ⟨d', hrun, hr'⟩ := hr.run_done hf
  exact ⟨d', hrun, hr'.doc_eq, hr'.streams⟩

def leafOn {n : Nat} (docs : Array DocId) (score : Float32) : QueryCursor (n + 1) :=
  leaf ⟨⟨docs.map fun d => ⟨d, 1, 1⟩, 0⟩, .table [] score, none⟩

lemma ofList_leafOn {docs : Array DocId} (hd : docs.toList.Pairwise (· < ·)) (hx : DocId.exhausted ∉ docs.toList) :
    PostingCursor.ofList (docs.map fun d => ⟨d, 1, 1⟩).toList = .ok ⟨docs.map fun d => ⟨d, 1, 1⟩, 0⟩ := by
  have hsorted : PostingCursor.IsSorted ⟨docs.map fun d => ⟨d, 1, 1⟩, 0⟩ := by
    constructor
    · simpa [Sorted.Increasing, List.pairwise_map, DocId.compare_eq_lt] using hd
    · intro p hp
      obtain ⟨d, hd, rfl⟩ : ∃ d ∈ docs.toList, (⟨d, 1, 1⟩ : Posting) = p := by simpa using hp
      exact fun he => hx (he ▸ hd)
  exact hsorted.ofList_eq

lemma isTree_leafOn {n : Nat} {docs : Array DocId} {score : Float32} (hd : docs.toList.Pairwise (· < ·))
    (hx : DocId.exhausted ∉ docs.toList) : IsTree (leafOn (n := n) docs score) := .leaf _ _ (ofList_leafOn hd hx)

theorem nested_union_streams_remaining :
    ∃ (inner : Disjunction (QueryCursor 1)) (outer d₁ d₂ : Disjunction (QueryCursor 2)),
      Disjunction.ofChildren { tieBreaker := 0.25 } [leafOn #[2, 6] 1, leafOn #[6] 1] = .ok inner ∧
      Disjunction.ofChildren { tieBreaker := 1 } [union inner, leafOn #[4, 6, 8] 1] = .ok outer ∧
      DocCursor.run [.seek 5, .next, .next, .seek 1] outer = .done d₁ [6, 8, DocId.exhausted, DocId.exhausted] ∧
      DocCursor.drain DocCursor.doc outer = .done d₂ ([2, 4, 6, 8], none) := by
  have h₁ : ∀ c ∈ [leafOn (n := 0) #[2, 6] 1, leafOn #[6] 1], IsTree c := by
    simp only [List.mem_cons, List.not_mem_nil, or_false, forall_eq_or_imp, forall_eq]
    exact ⟨isTree_leafOn (by decide) (by decide), isTree_leafOn (by decide) (by decide)⟩
  obtain ⟨-, -, inner, hinner, -⟩ := union_streams_remaining h₁
    (by decide : UnionSettings.IsValid { tieBreaker := 0.25 })
    (by decide +kernel)
  have hcost : DocCursor.cost (union inner) = 3 := by
    obtain ⟨-, _, _, -, hsum, rfl⟩ := Disjunction.ofChildren_eq_ok_iff.mp hinner
    exact Except.ok.inj (hsum.symm.trans (by decide +kernel))
  have h₂ : ∀ c ∈ [union inner, leafOn #[4, 6, 8] 1], IsTree c := by
    simp only [List.mem_cons, List.not_mem_nil, or_false, forall_eq_or_imp, forall_eq]
    exact ⟨.union h₁ hinner, isTree_leafOn (by decide) (by decide)⟩
  obtain ⟨hinc, hmem, outer, houter, hstream⟩ := union_streams_remaining h₂
    (by decide : UnionSettings.IsValid { tieBreaker := 1 }) (by
      have hlive : ([union inner, leafOn #[4, 6, 8] 1].filter (!DocCursor.isExhausted ·)).Sublist
        [union inner, leafOn #[4, 6, 8] 1] := List.filter_sublist
      refine Nat.lt_of_le_of_lt (Count.total_sublist (hlive.map fun c => (DocCursor.cost c).toNat)) ?_
      rw [List.map_cons, hcost]
      decide +kernel)
  have hleft : remaining [union inner, leafOn #[4, 6, 8] 1] = [2, 4, 6, 8] := by
    refine hinc.eq_of_mem_iff (by rw [Sorted.Increasing]; decide) fun x => ?_
    have hdocs := Disjunction.mem_documents_ofChildren (fun c hc => (h₁ c hc).isValid) hinner x
    have hleafs : documents (leafOn (n := 0) #[2, 6] 1) = [2, 6] ∧ documents (leafOn (n := 0) #[6] 1) = [6] ∧
      documents (leafOn (n := 1) #[4, 6, 8] 1) = [4, 6, 8] := by decide +kernel
    rw [hmem]
    change x ∈ documents (union inner) ↔ _ at hdocs
    simp only [List.mem_cons, List.not_mem_nil, or_false, exists_eq_or_imp, exists_eq_left, hleafs] at hdocs ⊢
    rw [hdocs]
    grind
  rw [hleft] at hstream
  have hstart := represents_remaining h₂ houter
  rw [hleft] at hstart
  have hforward : Remaining.GoesForward [.seek 5, .next, .next, .seek 1] [2, 4, 6, 8] := by
    refine ⟨fun _ => ?_, fun _ => trivial, fun _ => trivial, fun h => absurd ?_ h, trivial⟩
    · show (2 : DocId) ≤ 5
      decide
    · decide +kernel
  obtain ⟨d₁, hrun, -⟩ := hstream _ (hstart.goesForward_iff.mpr hforward)
  obtain ⟨d₀, hnone, -, hs⟩ := hstream [] trivial
  obtain rfl : outer = d₀ := (Outcome.done.inj hnone).1
  obtain ⟨d₂, hd₂, -⟩ := hs.drains
  exact ⟨inner, outer, d₁, d₂, hinner, houter, hrun, hd₂⟩

end QueryCursor

end InvertedIndex
