import InvertedIndex.Proofs.Cursor.Failing
import InvertedIndex.Proofs.Cursor.Matching
import InvertedIndex.Proofs.Cursor.Stream

namespace InvertedIndex

namespace Disjunction

open Heap

variable {C : Type} [ScoredCursor C] [ForwardCursor C] {d d' start : Disjunction C} {m : Move} {e : Error}

lemma IsSound.apply_done (h : d.IsSound) (hm : m.apply d = .done d' ()) : d'.IsSound := by
  by_cases hn : d.children = []
  · rw [apply_of_children_eq_nil (h.doc_eq_exhausted hn) hn] at hm
    exact (Outcome.done.inj hm).1 ▸ h
  · have hf := isForward_of_endsAt hn (.inl hm)
    have hgoes := h.goes (mt h.doc_eq_exhausted_iff.mp hn) hf
    rw [hm] at hgoes
    exact hgoes.1

lemma IsSound.of_attempts (h : start.IsSound) (ha : DocCursor.Attempts start d) : d.IsSound := by
  induction ha with
  | start => exact h
  | done _ hm ih => exact ih.apply_done hm
  | failed _ hm ih => exact (ih.apply_failed hm).1

lemma IsSound.not_on_doc (h : d.IsSound) {front : C} (hf : d.live.peek? = some front)
    (hd : DocCursor.doc front ≠ d.doc) : ∀ c ∈ d.children, DocCursor.doc c ≠ d.doc := by
  intro c hc hcd
  obtain ⟨others, hlive⟩ := peek?_eq_some_iff.mp hf
  have hle := docBefore_eq_false_iff.mp (peek?_least docBefore_isWeakOrder h.ordered hf hc)
  exact hd (UInt64.le_antisymm (hcd ▸ hle) (h.doc_le front (by simp [children, hlive])))

/-- A failed move leaves the document, and the child whose move failed in front. If that child stands on the document,
the children reported are those on the document. If it does not, none is, and it is reported alone. This takes a
seek. -/
theorem reported_after_failed_move {children : List C} {settings : UnionSettings}
    (hc : ∀ c ∈ children, ForwardCursor.IsSound c) (h : ofChildren settings children = .ok start)
    (ha : DocCursor.Attempts start d) (hm : m.apply d = .failed d' e) :
    d'.doc = d.doc ∧ d'.doc ≠ DocId.exhausted ∧ d'.score = combine d'.tieBreaker (d'.matching.map ScoredCursor.score) ∧
      ∃ c ∈ d.children, ∃ front ∈ d'.children, m.apply c = .failed front e ∧
        (DocCursor.doc front = d'.doc → d'.matching.Perm (d'.children.filter (DocCursor.doc · == d'.doc))) ∧
        (DocCursor.doc front ≠ d'.doc →
          (∀ c ∈ d'.children, DocCursor.doc c ≠ d'.doc) ∧ d'.matching = [front] ∧
            ∃ target, m = .seek target ∧ DocCursor.doc front < target) := by
  have hsound := (isSound_ofChildren hc h).of_attempts ha
  obtain ⟨hsound', hdoc, c, hcd, front, hfront, hb, hmc, hfc⟩ := hsound.apply_failed hm
  obtain ⟨others, hlive⟩ := peek?_eq_some_iff.mp hfront
  have hmem : front ∈ d'.children := by simp [Disjunction.children, hlive]
  have hreal : d'.doc ≠ DocId.exhausted := by
    rw [ne_eq, hsound'.doc_eq_exhausted_iff]
    exact List.ne_nil_of_mem hmem
  refine ⟨hdoc, hreal, rfl, c, hcd, front, hmem, hmc, ?_, fun hd => ?_⟩
  · exact matching_perm_of_front hsound'.ordered hsound'.doc_le hreal hfront
  · have hnone := hsound'.not_on_doc hfront hd
    refine ⟨hnone, matching_eq_front hreal hfront hnone, ?_⟩
    cases m with
    | next => exact absurd (hfc.trans ((beq_iff_eq.mp hb).trans hdoc.symm)) hd
    | seek target => exact ⟨target, rfl, hfc ▸ of_decide_eq_true hb⟩

end Disjunction

namespace QueryCursor

open Disjunction

def report {n : Nat} (d : Disjunction (QueryCursor n)) : DocId × List DocId × List DocId × Float32 :=
  (d.doc, d.children.map DocCursor.doc, d.matching.map DocCursor.doc, d.score)

def brittlePair (calls : List Nat) : List (QueryCursor 2) :=
  [leafOn #[1, 12] 2, unreliable ⟨leafOn #[3, 15] 5, Outages.ofCalls calls (.dataSource "corrupt posting block"), 0⟩]

lemma isSound_leafOn {n : Nat} {docs : Array DocId} {score : Float32} (hd : docs.toList.Pairwise (· < ·))
    (hx : DocId.exhausted ∉ docs.toList) : ForwardCursor.IsSound (leafOn (n := n) docs score) :=
  have htree : QueryCursor.IsTree (leafOn (n := n) docs score) := isTree_leafOn hd hx
  htree.isValid

lemma isSound_brittlePair (calls : List Nat) : ∀ c ∈ brittlePair calls, ForwardCursor.IsSound c := by
  simp only [brittlePair, List.mem_cons, List.not_mem_nil, or_false, forall_eq_or_imp, forall_eq]
  exact ⟨isSound_leafOn (by decide) (by decide), isSound_leafOn (n := 0) (by decide) (by decide)⟩

theorem reported_after_second_failure :
    ∃ (start d₁ d₂ d₃ : Disjunction (QueryCursor 2)) (e₁ e₂ : Error),
      ofChildren {} (brittlePair [0, 1]) = .ok start ∧ (Move.seek 10).apply start = .failed d₁ e₁ ∧
      Move.next.apply d₁ = .done d₂ () ∧ Move.next.apply d₂ = .failed d₃ e₂ ∧ d₃.doc = 3 ∧
      d₃.matching.Perm (d₃.children.filter (DocCursor.doc · == d₃.doc)) ∧ d₃.matching.length = 1 := by
  obtain ⟨start, hstart⟩ : ∃ start, ofChildren {} (brittlePair [0, 1]) = .ok start :=
    ofChildren_eq_ok (by decide) (by decide +kernel)
  have hrun : ((ofChildren {} (brittlePair [0, 1])).toOption.bind fun start =>
      ((Move.seek 10).apply start).failed?.bind fun (r₁ : _ × Error) =>
        (Move.next.apply r₁.1).done?.bind fun (r₂ : _ × Unit) =>
          (Move.next.apply r₂.1).failed?.map fun (r₃ : _ × Error) => report r₃.1) = some (3, [3, 12], [3], 5) := by
    decide +kernel
  rw [hstart] at hrun
  simp only [Except.toOption, Option.bind_some, Option.bind_eq_some_iff, Option.map_eq_some_iff, Prod.exists,
    Outcome.failed?_eq_some_iff, Outcome.done?_eq_some_iff, report, Prod.mk.injEq] at hrun
  obtain ⟨d₁, e₁, h₁, d₂, _, h₂, d₃, e₂, h₃, hdoc, -, hmatching, -⟩ := hrun
  obtain ⟨-, -, -, c, -, front, hfront, -, hon, hoff⟩ :=
    reported_after_failed_move (isSound_brittlePair [0, 1]) hstart ((DocCursor.Attempts.start.failed h₁).done h₂) h₃
  have hfd : DocCursor.doc front = d₃.doc := by
    by_contra hne
    obtain ⟨-, -, target, hnext, -⟩ := hoff hne
    cases hnext
  refine ⟨start, d₁, d₂, d₃, e₁, e₂, hstart, h₁, h₂, h₃, hdoc, hon hfd, ?_⟩
  simpa using congrArg List.length hmatching

/-- The first child has moved from 1 to 12 when the seek fails on the second one, which stands on 3. The union stays on
1, where it has no child left, and reports the one on 3. -/
theorem failed_seek_reports_other_document :
    ∃ (start d : Disjunction (QueryCursor 2)) (e : Error),
      (∀ c ∈ brittlePair [0], ForwardCursor.IsSound c) ∧ ofChildren {} (brittlePair [0]) = .ok start ∧
      (Move.seek 10).apply start = .failed d e ∧ d.doc = 1 ∧
      d.children.filter (DocCursor.doc · == d.doc) = [] ∧ d.matching.map DocCursor.doc = [3] ∧ d.score = 5 := by
  obtain ⟨start, hstart⟩ : ∃ start, ofChildren {} (brittlePair [0]) = .ok start :=
    ofChildren_eq_ok (by decide) (by decide +kernel)
  have hrun : ((ofChildren {} (brittlePair [0])).toOption.bind fun start =>
      ((Move.seek 10).apply start).failed?.map fun (r : _ × Error) => report r.1) = some (1, [3, 12], [3], 5) := by
    decide +kernel
  rw [hstart] at hrun
  simp only [Except.toOption, Option.bind_some, Option.map_eq_some_iff, Prod.exists, Outcome.failed?_eq_some_iff,
    report, Prod.mk.injEq] at hrun
  obtain ⟨d, e, hm, hdoc, hdocs, hmatching, hscore⟩ := hrun
  refine ⟨start, d, e, isSound_brittlePair [0], hstart, hm, hdoc, ?_, hmatching, hscore⟩
  rw [List.filter_eq_nil_iff, hdoc]
  intro c hc
  have hmem : DocCursor.doc c ∈ [3, 12] := hdocs ▸ List.mem_map_of_mem hc
  simp only [List.mem_cons, List.not_mem_nil, or_false] at hmem
  rcases hmem with h | h <;> rw [h] <;> decide

end QueryCursor

end InvertedIndex
