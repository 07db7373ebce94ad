import InvertedIndex.Proofs.Cursor.Follow
import InvertedIndex.Proofs.Cursor.Matching

namespace InvertedIndex

open FaithfulCursor

class ScoringCursor (C : Type) [ScoredCursor C] [FaithfulCursor C] where
  MayScore : C → DocId → Float32 → Prop
  mayScore_doc {c : C} : IsValid c → DocCursor.doc c ≠ DocId.exhausted →
    MayScore c (DocCursor.doc c) (ScoredCursor.score c)
  mayScore_of_apply {c c' : C} {m : Move} {x : DocId} {s : Float32} : IsValid c → DocCursor.doc c ≠ DocId.exhausted →
    m.IsForward (DocCursor.doc c) → m.apply c = .done c' () → x ∈ documents c' → MayScore c' x s → MayScore c x s

namespace ScoringCursor

variable {C : Type} [ScoredCursor C] [FaithfulCursor C]

lemma isValid_of_reaches {c c' : C} (h : DocCursor.Reaches c c') (hv : IsValid c) : IsValid c' := by
  induction h with
  | refl => exact hv
  | step _ he hf hm ih =>
    obtain ⟨c₃, hm', hv₃, -⟩ := apply_done ih he hf
    rw [hm, Outcome.done.injEq] at hm'
    exact hm'.1 ▸ hv₃

lemma mayScore_of_reaches [ScoringCursor C] {c c' : C} {x : DocId} {s : Float32} (h : DocCursor.Reaches c c')
    (hv : IsValid c) (hx : x ∈ documents c') (hs : MayScore c' x s) : MayScore c x s := by
  induction h with
  | refl => exact hs
  | step hr he hf hm ih =>
    have hv₁ := isValid_of_reaches hr hv
    obtain ⟨c₃, hm', -, hmem⟩ := apply_done hv₁ he hf
    rw [hm, Outcome.done.injEq] at hm'
    obtain rfl := hm'.1
    exact ih ((hmem x).mp hx).1 (mayScore_of_apply hv₁ he hf hm hx hs)

end ScoringCursor

namespace PostingCursor

def onDoc (x : DocId) (c : PostingCursor) : PostingCursor :=
  { c with position := c.postings.findIdx (·.doc == x) }

lemma IsSorted.onDoc_doc {c : PostingCursor} (h : c.IsSorted) (he : c.doc ≠ DocId.exhausted) : c.onDoc c.doc = c := by
  have hlt : c.position < c.postings.size := by
    rw [ne_eq, h.doc_eq_exhausted_iff] at he
    omega
  have hindex : c.postings.findIdx (·.doc == c.doc) = c.position := by
    rw [Array.findIdx_eq hlt, doc_of_lt hlt]
    refine ⟨beq_self_eq_true _, fun j hj => ?_⟩
    have hbefore := h.lt hj hlt (Nat.lt_trans hj hlt)
    exact beq_eq_false_iff_ne.mpr fun he => UInt64.lt_irrefl _ (he ▸ hbefore)
  rw [onDoc, hindex]

lemma onDoc_of_apply {c c' : PostingCursor} {m : Move} (hm : m.apply c = .done c' ()) (x : DocId) :
    c'.onDoc x = c.onDoc x := by
  have hpostings : c'.postings = c.postings := by
    cases m with
    | next =>
      change next c = .done c' () at hm
      rw [next] at hm
      split at hm <;> cases hm
      rfl
    | seek target =>
      change seek target c = .done c' () at hm
      rw [seek] at hm
      split at hm
      · cases hm
      · split at hm <;> cases hm
        rfl
  rw [onDoc, onDoc, hpostings]

end PostingCursor

namespace Leaf

def onDoc (x : DocId) (l : Leaf) : Leaf := { l with postings := l.postings.onDoc x }

lemma onDoc_doc {l : Leaf} (hv : IsValid l) (he : DocCursor.doc l ≠ DocId.exhausted) : l.onDoc (DocCursor.doc l) = l :=
  congrArg (fun c => { l with postings := c }) (PostingCursor.IsSorted.onDoc_doc hv he)

lemma onDoc_of_apply {l l' : Leaf} {m : Move} (hm : m.apply l = .done l' ()) (x : DocId) : l'.onDoc x = l.onDoc x := by
  rw [apply_eq] at hm
  obtain ⟨c, hc, rfl⟩ := Outcome.mapState_eq_done hm
  exact congrArg (fun c => { l with postings := c }) (PostingCursor.onDoc_of_apply hc x)

instance : ScoringCursor Leaf where
  MayScore l x s := s = ScoredCursor.score (l.onDoc x)
  mayScore_doc hv he := by rw [onDoc_doc hv he]
  mayScore_of_apply _ _ _ hm _ hs := by rwa [← onDoc_of_apply hm]

end Leaf

namespace Disjunction

variable {C : Type} [ScoredCursor C] [FaithfulCursor C] [ScoringCursor C] {d d' : Disjunction C}

/-- Some order of the children that contain the document, with a score that each of them may have. -/
def MayScore (d : Disjunction C) (x : DocId) (s : Float32) : Prop :=
  ∃ (cs : List C) (f : C → Float32), cs.Perm (containing x d.children) ∧
    (∀ c ∈ cs, ScoringCursor.MayScore c x (f c)) ∧ s = combine d.tieBreaker (cs.map f)

lemma IsValid.mayScore_doc (h : d.IsValid) (he : d.doc ≠ DocId.exhausted) : MayScore d d.doc d.score := by
  refine ⟨d.matching, ScoredCursor.score, h.matching_perm_documents he, fun c hc => ?_, rfl⟩
  obtain ⟨hcd, hx⟩ := mem_containing.mp ((h.matching_perm_documents he).subset hc)
  have hd := (h.doc_eq_iff_mem hcd).mpr hx
  rw [← hd]
  exact ScoringCursor.mayScore_doc (h.valid c hcd) (h.live c hcd)

lemma IsValid.mayScore_of_apply (h : d.IsValid) {m : Move} {x : DocId} {s : Float32}
    (hf : d.doc ≠ DocId.exhausted → m.IsForward d.doc) (hm : m.apply d = .done d' ())
    (hx : x ∈ d'.documents) (hs : MayScore d' x s) : MayScore d x s := by
  obtain ⟨d₁, hm', -, hmem⟩ := h.apply_done hf
  rw [hm, Outcome.done.injEq] at hm'
  obtain rfl := hm'.1
  have hk := ((hmem x).mp hx).2
  obtain ⟨cs', f, hperm, hscores, rfl⟩ := hs
  -- The children of `d'` in their order are those of `d` in some order, followed through the move.
  have hcomp : (Relation.Comp (· = List.map (follow m d.doc) ·) List.Perm) cs' (containing x d.children) := by
    rw [List.eq_map_comp_perm]
    exact hperm.trans (containing_apply h hf hm hk)
  obtain ⟨cs, rfl, hcs⟩ := hcomp
  refine ⟨cs, f ∘ follow m d.doc, hcs, fun c hc => ?_, ?_⟩
  · obtain ⟨hcd, hxc⟩ := mem_containing.mp (hcs.subset hc)
    obtain ⟨-, hxf, hreach⟩ := settle_of_mem h hcd hxc hk
    exact ScoringCursor.mayScore_of_reaches hreach (h.valid c hcd) hxf (hscores _ (List.mem_map_of_mem hc))
  · rw [tieBreaker_of_apply h hf hm, List.map_map]

instance : ScoringCursor (Disjunction C) where
  MayScore := MayScore
  mayScore_doc h he := IsValid.mayScore_doc h he
  mayScore_of_apply h _ hf hm hx hs := IsValid.mayScore_of_apply h (fun _ => hf) hm hx hs

end Disjunction

namespace Layer

variable {C : Type} [ScoredCursor C] [FaithfulCursor C] [ScoringCursor C]

def MayScore : Layer C → DocId → Float32 → Prop
  | .leaf l => ScoringCursor.MayScore l
  | .unreliable _ => fun _ _ => False
  | .union d => ScoringCursor.MayScore d

instance : ScoringCursor (Layer C) where
  MayScore := MayScore
  mayScore_doc {c} h he := by
    cases c with
    | leaf l => exact ScoringCursor.mayScore_doc (C := Leaf) h he
    | unreliable u => exact h.elim
    | union d => exact ScoringCursor.mayScore_doc (C := Disjunction C) h he
  mayScore_of_apply {c c' m x s} h he hf hm hx hs := by
    cases c with
    | leaf l =>
      rw [apply_leaf] at hm
      obtain ⟨l', hl, rfl⟩ := Outcome.mapState_eq_done hm
      exact ScoringCursor.mayScore_of_apply (C := Leaf) h he hf hl hx hs
    | unreliable u => exact h.elim
    | union d =>
      rw [apply_union] at hm
      obtain ⟨d', hd, rfl⟩ := Outcome.mapState_eq_done hm
      exact ScoringCursor.mayScore_of_apply (C := Disjunction C) h he hf hd hx hs

end Layer

namespace QueryCursor

instance : ScoringCursor Empty where
  MayScore := nofun
  mayScore_doc {c} := c.elim
  mayScore_of_apply {c} := c.elim

instance scoringCursor : (height : Nat) → ScoringCursor (QueryCursor height)
  | 0 => inferInstanceAs (ScoringCursor Empty)
  | height + 1 =>
    have := scoringCursor height
    inferInstanceAs (ScoringCursor (Layer (QueryCursor height)))

end QueryCursor

end InvertedIndex
