import InvertedIndex.Proofs.Merge.Pop
import InvertedIndex.Proofs.Outcome

namespace InvertedIndex

open Heap

variable {C : Type} [TermCursor C]

namespace MergeSource

def Moves (s : MergeSource C) : Prop := ∃ c more, TermCursor.next s.cursor = .done c more

def requeued (s : MergeSource C) : List (MergeSource C) :=
  match TermCursor.next s.cursor with
  | .done c more => if more && (TermCursor.term? c).isSome then [{ s with cursor := c }] else []
  | _ => []

def finished (s : MergeSource C) : List (MergeSource C) :=
  match TermCursor.next s.cursor with
  | .done c more => if more && (TermCursor.term? c).isSome then [] else [{ s with cursor := c }]
  | _ => []

variable {s : MergeSource C} {c : C} {more : Bool}

lemma requeued_eq (hm : TermCursor.next s.cursor = .done c more) (h : (more && (TermCursor.term? c).isSome) = true) :
    s.requeued = [{ s with cursor := c }] ∧ s.finished = [] := by
  rw [requeued, finished, hm]
  exact ⟨if_pos h, if_pos h⟩

lemma finished_eq (hm : TermCursor.next s.cursor = .done c more) (h : ¬ (more && (TermCursor.term? c).isSome) = true) :
    s.requeued = [] ∧ s.finished = [{ s with cursor := c }] := by
  rw [requeued, finished, hm]
  exact ⟨if_neg h, if_neg h⟩

lemma term?_of_mem_requeued {s' : MergeSource C} (h : s' ∈ s.requeued) : s'.term? ≠ none := by
  rw [requeued] at h
  split at h
  · next c more hm =>
    split at h
    · next hmore =>
      obtain rfl := List.mem_singleton.mp h
      rw [Bool.and_eq_true] at hmore
      exact Option.isSome_iff_ne_none.mp hmore.2
    · exact absurd h List.not_mem_nil
  · exact absurd h List.not_mem_nil

def failsToMove (s : MergeSource C) : Bool := (TermCursor.next s.cursor).failed?.isSome

lemma Moves.failsToMove_eq_false (h : s.Moves) : s.failsToMove = false := by
  obtain ⟨c, more, hm⟩ := h
  rw [failsToMove, hm]
  rfl

lemma closeErrors_append (xs ys : List (MergeSource C)) :
    closeErrors (xs ++ ys) = closeErrors xs ++ closeErrors ys := List.filterMap_append

lemma closeErrors_nil : closeErrors ([] : List (MergeSource C)) = [] := rfl

lemma closeErrors_singleton (s : MergeSource C) : closeErrors [s] = s.closing.error.toList := by
  rw [closeErrors, List.filterMap_cons]
  cases s.closing.error <;> rfl

end MergeSource

namespace MergeQueue

open MergeSource

structure Advanced (q : MergeQueue C) (members : List (MergeSource C)) (q' : MergeQueue C) : Prop where
  perm : q'.heap.toList.Perm (q.heap.toList ++ members.flatMap requeued)
  queued : IsQueued q.heap → IsQueued q'.heap
  capacity : q'.heap.capacity = q.heap.capacity
  spare : q'.spare = q.spare
  retired : q'.retired = q.retired
  closed : q'.closed = q.closed ++ members.flatMap finished
  sourceCount : q'.sourceCount = q.sourceCount

def AdvanceResult (q : MergeQueue C) (members : List (MergeSource C)) : Outcome (MergeQueue C) (List Error) → Prop
  | .done q' errors =>
    (∀ s ∈ members, s.Moves) ∧ Advanced q members q' ∧ errors = closeErrors (members.flatMap finished)
  | .failed q' e => ∃ moved s rest c q₁, members = moved ++ s :: rest ∧ (∀ m ∈ moved, m.Moves) ∧
    TermCursor.next s.cursor = .failed c e ∧ Advanced q moved q₁ ∧
      q' = { q₁ with retired := q₁.retired ++ { s with cursor := c } :: rest }
  | .fault x => ∃ s ∈ members.take (members.findIdx failsToMove), TermCursor.next s.cursor = .fault x

variable {q q₁ q₂ : MergeQueue C} {s : MergeSource C} {rest : List (MergeSource C)}

lemma Advanced.refl (q : MergeQueue C) : Advanced q [] q :=
  ⟨by simp, id, rfl, rfl, rfl, by simp, rfl⟩

lemma Advanced.sound {members : List (MergeSource C)} (ha : Advanced q members q₁) (h : q.IsSound) : q₁.IsSound :=
  ⟨ha.queued h.queued, ha.spare.trans h.spare⟩

lemma Advanced.cons (h : Advanced q [s] q₁) (hr : Advanced q₁ rest q₂) : Advanced q (s :: rest) q₂ where
  perm := by
    have hperm := hr.perm.trans (h.perm.append_right _)
    simpa using hperm
  queued := hr.queued ∘ h.queued
  capacity := hr.capacity.trans h.capacity
  spare := hr.spare.trans h.spare
  retired := hr.retired.trans h.retired
  closed := by simp [hr.closed, h.closed]
  sourceCount := hr.sourceCount.trans h.sourceCount

lemma AdvanceResult.cons {o : Outcome (MergeQueue C) (List Error)} (hs : s.Moves) (h : Advanced q [s] q₁)
    (hr : AdvanceResult q₁ rest o) :
    AdvanceResult q (s :: rest) (o.map (closeErrors s.finished ++ ·)) := by
  cases o with
  | done q' errors =>
    obtain ⟨hmoves, ha, rfl⟩ := hr
    refine ⟨List.forall_mem_cons.mpr ⟨hs, hmoves⟩, h.cons ha, ?_⟩
    rw [List.flatMap_cons, closeErrors_append]
  | failed q' e =>
    obtain ⟨moved, f, tail, c, q₂, rfl, hmoves, hf, ha, hq⟩ := hr
    exact ⟨s :: moved, f, tail, c, q₂, rfl, List.forall_mem_cons.mpr ⟨hs, hmoves⟩, hf, h.cons ha, hq⟩
  | fault x =>
    obtain ⟨f, hf, hx⟩ := hr
    refine ⟨f, ?_, hx⟩
    rw [List.findIdx_cons, hs.failsToMove_eq_false]
    exact List.mem_cons_of_mem s hf

lemma advanced_push {heap : Heap (MergeSource C)} {s' : MergeSource C} (hs : s.requeued = [s'] ∧ s.finished = [])
    (hperm : heap.toList.Perm (s' :: q.heap.toList)) (hcap : heap.capacity = q.heap.capacity)
    (hord : q.heap.IsOrdered before → heap.IsOrdered before) : Advanced q [s] { q with heap := heap } where
  perm := by simpa [hs.1] using hperm.trans (List.perm_append_singleton _ _).symm
  queued h := by
    refine ⟨hord h.ordered, ?_⟩
    intro t ht
    rcases List.mem_cons.mp (hperm.subset ht) with rfl | ht
    · exact term?_of_mem_requeued (s := s) (hs.1 ▸ List.mem_singleton_self _)
    · exact h.onTerm t ht
  capacity := hcap
  spare := rfl
  retired := rfl
  closed := by simp [hs.2]
  sourceCount := rfl

lemma advanced_close {s' : MergeSource C} (hs : s.requeued = [] ∧ s.finished = [s']) :
    Advanced q [s] { q with closed := q.closed ++ [s'] } :=
  ⟨by simp [hs.1], id, rfl, rfl, rfl, by simp [hs.2], rfl⟩

lemma advanceMembers_result (members : List (MergeSource C)) (q : MergeQueue C)
    (hroom : q.heap.toList.length + members.length ≤ q.heap.capacity) :
    AdvanceResult q members (q.advanceMembers members) := by
  induction members generalizing q with
  | nil => exact ⟨nofun, .refl q, rfl⟩
  | cons s rest ih =>
    rw [List.length_cons] at hroom
    rw [advanceMembers]
    cases hm : TermCursor.next s.cursor with
    | done c more =>
      dsimp only
      split
      · next hmore =>
        have hs := requeued_eq hm hmore
        have hlt : q.heap.toList.length < q.heap.capacity := by omega
        obtain ⟨heap, hpush, hperm, hcap, hord⟩ := push_eq_ok before { s with cursor := c } hlt
        have hrec := ih { q with heap := heap } (by
          simp only [hperm.length_eq, List.length_cons, hcap]
          omega)
        have hres := hrec.cons ⟨c, more, hm⟩ (advanced_push hs hperm hcap (hord before_isWeakOrder))
        rw [hs.2, closeErrors_nil, Outcome.map_eq_self List.nil_append] at hres
        rw [hpush]
        exact hres
      · next hmore =>
        have hs := finished_eq hm hmore
        have hrec := ih { q with closed := q.closed ++ [{ s with cursor := c }] } (by
          simp only
          omega)
        have hres := hrec.cons ⟨c, more, hm⟩ (advanced_close hs)
        rw [hs.2, closeErrors_singleton] at hres
        exact hres
    | failed c e => exact ⟨[], s, rest, c, q, rfl, nofun, hm, .refl q, rfl⟩
    | fault x =>
      refine ⟨s, ?_, hm⟩
      rw [List.findIdx_cons, failsToMove, hm]
      exact List.mem_cons_self

lemma advanceMembers_spare {members : List (MergeSource C)} {errors : List Error}
    (h : q.advanceMembers members = .done q₁ errors) : q₁.spare = q.spare := by
  induction members generalizing q errors with
  | nil =>
    obtain ⟨rfl, -⟩ := Outcome.done.inj h
    rfl
  | cons s rest ih =>
    rw [advanceMembers] at h
    split at h
    · dsimp only at h
      split at h
      · split at h
        · exact (ih h).trans rfl
        · cases h
      · obtain ⟨_, h, -⟩ := Outcome.map_eq_done h
        exact (ih h).trans rfl
    · cases h
    · cases h

lemma advance_of_done {g : TermGroup C} {errors : List Error} (h : q.IsSound)
    (hd : q.advanceMembers g.members = .done q₁ errors) :
    q.advance g = (Error.joint? errors).elim (.done q₁ ()) (.failed q₁) := by
  have hspare : { q₁ with spare := g.members.drop g.members.length } = q₁ := by
    rw [List.drop_length, ← h.spare, ← advanceMembers_spare hd]
  rw [advance, hd]
  simp only [hspare]
  cases Error.joint? errors <;> rfl

end MergeQueue

end InvertedIndex
