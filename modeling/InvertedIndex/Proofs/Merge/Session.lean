import InvertedIndex.Proofs.Merge.Balance
import Mathlib.Data.List.Nodup
import Mathlib.Data.List.Perm.Basic

/-!
Requests to a queue in any order, with any number of groups outstanding, each named by its place among these. A request
keeps the queue sound, whatever is done to the groups; if they keep their sources, it keeps every source.
-/

namespace InvertedIndex.MergeQueue

open Heap MergeSource

inductive Request (C : Type) where
  | pop
  | advance (group : Nat)
  | abandon (group : Nat)
  | discard (group : Nat)
  | move (group member : Nat)
  | handle (group : Nat) (change : TermGroup C → TermGroup C)
  | close

structure Session (C : Type) where
  queue : MergeQueue C
  outstanding : List (TermGroup C) := []
  discarded : List (TermGroup C) := []
  popped : List (TermGroup C) := []
  errors : List Error := []

namespace Session

variable {C : Type}

def handBack (s : Session C) (i : Nat) (q : MergeQueue C) : Session C :=
  { s with queue := q, outstanding := s.outstanding.eraseIdx i }

/-- A session goes on after an error. -/
def settle {σ α : Type} (resume : σ → Session C) : Outcome σ α → Except Fault (Session C)
  | .done t _ => .ok (resume t)
  | .failed t e => .ok { resume t with errors := (resume t).errors ++ [e] }
  | .fault x => .error x

def withGroup (s : Session C) (i : Nat) (f : TermGroup C → Except Fault (Session C)) : Except Fault (Session C) :=
  match s.outstanding[i]? with
  | some g => f g
  | none => .ok s

variable [TermCursor C]

def afterPop (s : Session C) : Session C :=
  { s with
    queue := s.queue.pop.2
    outstanding := s.outstanding ++ s.queue.pop.1.toList
    popped := s.popped ++ s.queue.pop.1.toList }

def step (r : Request C) (s : Session C) : Except Fault (Session C) :=
  match r with
  | .pop => .ok s.afterPop
  | .advance i => s.withGroup i fun g => settle (s.handBack i) (s.queue.advance g)
  | .abandon i => s.withGroup i fun g => .ok (s.handBack i (s.queue.abandon g))
  | .discard i => s.withGroup i fun g => .ok { s with
      outstanding := s.outstanding.eraseIdx i
      discarded := s.discarded ++ [g] }
  | .move i j => s.withGroup i fun g =>
    if h : j < g.members.length then
      settle (fun g => { s with outstanding := s.outstanding.set i g }) (g.moveMember j h)
    else .ok s
  | .handle i change => s.withGroup i fun g => .ok { s with outstanding := s.outstanding.set i (change g) }
  | .close => settle (fun q => { s with queue := q }) s.queue.close

def run : List (Request C) → Session C → Except Fault (Session C)
  | [], s => .ok s
  | r :: rs, s => (step r s).bind (run rs)

end Session

section Inversion

variable {C σ α : Type} {s s' s'' : Session C} {i : Nat} {f : TermGroup C → Except Fault (Session C)}
  {resume : σ → Session C}

namespace Session

lemma settle_eq_ok {o : Outcome σ α} (h : settle resume o = .ok s') :
    ∃ t es, o.after = .ok t ∧ s' = { resume t with errors := es } := by
  cases o with
  | done t a => exact ⟨t, _, rfl, (Except.ok.inj h).symm⟩
  | failed t e => exact ⟨t, _, rfl, (Except.ok.inj h).symm⟩
  | fault x => cases h

lemma withGroup_eq_ok (h : s.withGroup i f = .ok s') :
    s' = s ∨ ∃ g, s.outstanding[i]? = some g ∧ f g = .ok s' := by
  rw [withGroup] at h
  cases hi : s.outstanding[i]? with
  | none =>
    rw [hi] at h
    exact .inl (Except.ok.inj h).symm
  | some g =>
    rw [hi] at h
    exact .inr ⟨g, rfl, h⟩

variable [TermCursor C]

lemma afterPop_of_none (h : s.queue.pop = (none, s.queue)) : s.afterPop = s := by
  simp [afterPop, h]

lemma afterPop_of_some {g : TermGroup C} {q : MergeQueue C} (h : s.queue.pop = (some g, q)) :
    s.afterPop = { s with queue := q, outstanding := s.outstanding ++ [g], popped := s.popped ++ [g] } := by
  simp [afterPop, h]

/-- What a request makes of a session. One for a group that is not there makes nothing of it. -/
inductive Steps (s : Session C) : Request C → Session C → Prop
  | pop : Steps s .pop s.afterPop
  | nothing (r : Request C) : Steps s r s
  | advance {g : TermGroup C} {q : MergeQueue C} (i : Nat) (es : List Error) :
    s.outstanding[i]? = some g → (s.queue.advance g).after = .ok q →
      Steps s (.advance i) { s.handBack i q with errors := es }
  | abandon {g : TermGroup C} (i : Nat) :
    s.outstanding[i]? = some g → Steps s (.abandon i) (s.handBack i (s.queue.abandon g))
  | discard {g : TermGroup C} (i : Nat) :
    s.outstanding[i]? = some g → Steps s (.discard i)
      { s with outstanding := s.outstanding.eraseIdx i, discarded := s.discarded ++ [g] }
  | move {g g' : TermGroup C} {j : Nat} {hj : j < g.members.length} (i : Nat) (es : List Error) :
    s.outstanding[i]? = some g → (g.moveMember j hj).after = .ok g' →
      Steps s (.move i j) { s with outstanding := s.outstanding.set i g', errors := es }
  | handle {g : TermGroup C} (i : Nat) (change : TermGroup C → TermGroup C) :
    s.outstanding[i]? = some g → Steps s (.handle i change) { s with outstanding := s.outstanding.set i (change g) }
  | close (es : List Error) : Steps s .close { s with queue := s.queue.release, errors := es }

lemma steps_of_withGroup {r : Request C} (h : s.withGroup i f = .ok s')
    (hf : ∀ g, s.outstanding[i]? = some g → f g = .ok s' → s.Steps r s') : s.Steps r s' := by
  obtain rfl | ⟨g, hi, hg⟩ := withGroup_eq_ok h
  · exact .nothing r
  · exact hf g hi hg

lemma step_steps {r : Request C} (h : step r s = .ok s') : s.Steps r s' := by
  cases r with
  | pop =>
    obtain rfl := Except.ok.inj h
    exact .pop
  | advance i =>
    refine steps_of_withGroup h fun g hi hg => ?_
    obtain ⟨q, es, hq, rfl⟩ := settle_eq_ok hg
    exact .advance i es hi hq
  | abandon i =>
    refine steps_of_withGroup h fun g hi hg => ?_
    obtain rfl := Except.ok.inj hg
    exact .abandon i hi
  | discard i =>
    refine steps_of_withGroup h fun g hi hg => ?_
    obtain rfl := Except.ok.inj hg
    exact .discard i hi
  | move i j =>
    refine steps_of_withGroup h fun g hi hg => ?_
    split at hg
    · obtain ⟨g', es, hm, rfl⟩ := settle_eq_ok hg
      exact .move i es hi hm
    · obtain rfl := Except.ok.inj hg
      exact .nothing _
  | handle i change =>
    refine steps_of_withGroup h fun g hi hg => ?_
    obtain rfl := Except.ok.inj hg
    exact .handle i change hi
  | close =>
    obtain ⟨q, es, hq, rfl⟩ := settle_eq_ok h
    rw [after_close] at hq
    obtain rfl := Except.ok.inj hq
    exact .close es

lemma run_cons_eq_ok {r : Request C} {rs : List (Request C)} (h : run (r :: rs) s = .ok s'') :
    ∃ s', step r s = .ok s' ∧ run rs s' = .ok s'' := by
  rw [run] at h
  cases hr : step r s with
  | ok s' =>
    rw [hr] at h
    exact ⟨s', rfl, h⟩
  | error x =>
    rw [hr] at h
    cases h

end Session

end Inversion

section Soundness

variable {C : Type}

def aside (q : MergeQueue C) : List (MergeSource C) := q.retired ++ q.closed

lemma aside_subset_retire (q : MergeQueue C) (sources : List (MergeSource C)) :
    q.aside ⊆ { q with retired := q.retired ++ sources }.aside := by
  simp [aside]

lemma aside_subset_close (q : MergeQueue C) (sources : List (MergeSource C)) :
    q.aside ⊆ { q with closed := q.closed ++ sources }.aside := by
  simp [aside]

variable [TermCursor C] {q q' q'' : MergeQueue C} {g : TermGroup C} {members : List (MergeSource C)}
  {s s' : Session C} {r : Request C} {rs : List (Request C)}

structure Follows (q q' : MergeQueue C) : Prop where
  sound : q'.IsSound
  capacity : q'.heap.capacity = q.heap.capacity
  aside : q.aside ⊆ q'.aside

lemma Follows.refl (h : q.IsSound) : Follows q q := ⟨h, rfl, List.Subset.refl _⟩

lemma Follows.trans (h : Follows q q') (h' : Follows q' q'') : Follows q q'' :=
  ⟨h'.sound, h'.capacity.trans h.capacity, List.Subset.trans h.aside h'.aside⟩

lemma follows_pop (h : q.IsSound) : Follows q q.pop.2 := by
  rcases pop_taken h with ⟨-, hpop⟩ | ⟨g, heap, hpop, -, htaken⟩
  · rw [hpop]
    exact .refl h
  · rw [hpop]
    exact ⟨htaken.sound h, htaken.capacity, List.Subset.refl _⟩

lemma follows_advanceMembers (h : q.IsSound) (ha : (q.advanceMembers members).after = .ok q') : Follows q q' := by
  -- A caller may have added members, so that only the outcome tells that there was room for them.
  induction members generalizing q with
  | nil =>
    obtain rfl := Except.ok.inj ha
    exact .refl h
  | cons s rest ih =>
    rw [advanceMembers] at ha
    cases hm : TermCursor.next s.cursor with
    | done c more =>
      rw [hm] at ha
      dsimp only at ha
      split at ha
      · next hmore =>
        cases hpush : q.heap.push before { s with cursor := c } with
        | ok heap =>
          rw [hpush] at ha
          obtain ⟨heap₁, hok, hperm, hcapacity, hordered⟩ :=
            push_eq_ok before { s with cursor := c } (lt_of_push_eq_ok hpush)
          obtain rfl := Except.ok.inj (hpush.symm.trans hok)
          have hadvanced := advanced_push (requeued_eq hm hmore) hperm hcapacity (hordered before_isWeakOrder)
          exact Follows.trans ⟨hadvanced.sound h, hcapacity, List.Subset.refl _⟩ (ih (hadvanced.sound h) ha)
        | error x =>
          rw [hpush] at ha
          cases ha
      · rw [Outcome.after_map] at ha
        have hclosed : IsSound { q with closed := q.closed ++ [{ s with cursor := c }] } := ⟨h.queued, h.spare⟩
        exact Follows.trans ⟨hclosed, rfl, aside_subset_close q _⟩ (ih hclosed ha)
    | failed c e =>
      rw [hm] at ha
      obtain rfl := Except.ok.inj ha
      exact ⟨⟨h.queued, h.spare⟩, rfl, aside_subset_retire q _⟩
    | fault x =>
      rw [hm] at ha
      cases ha

lemma follows_advance (h : q.IsSound) (ha : (q.advance g).after = .ok q') : Follows q q' := by
  rw [after_advance h] at ha
  exact follows_advanceMembers h ha

lemma follows_release (h : q.IsSound) : Follows q q.release := by
  refine ⟨⟨isQueued_clear q.heap, h.spare⟩, rfl, fun m hm => ?_⟩
  simp only [aside, release, held, List.mem_append] at hm ⊢
  tauto

namespace Session

lemma step_follows (hs : s.queue.IsSound) (h : step r s = .ok s') : Follows s.queue s'.queue := by
  cases step_steps h with
  | pop => exact follows_pop hs
  | advance i es hi ha => exact follows_advance hs ha
  | abandon i hi => exact ⟨⟨hs.queued, hs.spare⟩, rfl, aside_subset_retire _ _⟩
  | close es => exact follows_release hs
  | _ => exact .refl hs

lemma step_discarded (hr : ∀ i, r ≠ .discard i) (h : step r s = .ok s') : s'.discarded = s.discarded := by
  cases step_steps h with
  | discard i hi => exact absurd rfl (hr i)
  | _ => rfl

lemma run_discarded (hrs : ∀ i, .discard i ∉ rs) (h : run rs s = .ok s') : s'.discarded = s.discarded := by
  induction rs generalizing s with
  | nil =>
    obtain rfl := Except.ok.inj h
    rfl
  | cons r rs ih =>
    obtain ⟨s₁, hr, h₁⟩ := run_cons_eq_ok h
    have hstep := step_discarded (fun i hi => hrs i (hi ▸ List.mem_cons_self)) hr
    exact (ih (fun i hi => hrs i (List.mem_cons_of_mem r hi)) h₁).trans hstep

lemma run_follows (hs : s.queue.IsSound) (h : run rs s = .ok s') : Follows s.queue s'.queue := by
  induction rs generalizing s with
  | nil =>
    obtain rfl := Except.ok.inj h
    exact .refl hs
  | cons r rs ih =>
    obtain ⟨s₁, hr, hrs⟩ := run_cons_eq_ok h
    have hfollows := step_follows hs hr
    exact hfollows.trans (ih hfollows.sound hrs)

end Session

end Soundness

section Accounts

variable {C : Type} [TermCursor C] {tag : C → Nat} {total : Nat → Nat}

omit [TermCursor C] in
lemma nodup_tags_iff {xs : List (MergeSource C)} : (tags tag xs).Nodup ↔ ∀ n, tally tag n xs ≤ 1 := by
  simp only [List.nodup_iff_count_le_one, count_tags]

/-- A queue and the groups popped from it, with a fixed number of sources for each tag. -/
structure Accounts (tag : C → Nat) (total : Nat → Nat) (q : MergeQueue C) (gs : List (TermGroup C)) : Prop where
  sound : q.IsSound
  fits : q.heap.toList.length + (gs.flatMap TermGroup.members).length ≤ q.heap.capacity
  balance : ∀ n, tally tag n q.sources + tally tag n (gs.flatMap TermGroup.members) = total n

namespace Accounts

variable {q q' : MergeQueue C} {g g' : TermGroup C} {gs gs' : List (TermGroup C)}

lemma perm (h : Accounts tag total q gs) (hp : gs.Perm gs') : Accounts tag total q gs' := by
  have hm : (gs.flatMap TermGroup.members).Perm (gs'.flatMap TermGroup.members) := hp.flatMap_right _
  refine ⟨h.sound, hm.length_eq ▸ h.fits, fun n => ?_⟩
  rw [← tally_perm tag n hm]
  exact h.balance n

lemma pop (h : Accounts tag total q gs) : Accounts tag total q.pop.2 (q.pop.1.toList ++ gs) := by
  rcases pop_taken h.sound with ⟨-, hpop⟩ | ⟨g, heap, hpop, -, htaken⟩
  · rw [hpop]
    exact h
  · have hlen := htaken.perm.length_eq
    have hfits := h.fits
    rw [List.length_append] at hlen
    rw [hpop]
    refine ⟨htaken.sound h.sound, ?_, fun n => ?_⟩
    · simp only [Option.toList_some, List.flatMap_append, List.flatMap_singleton, List.length_append, htaken.capacity]
      omega
    · have hb := h.balance n
      have hheap := tally_perm tag n htaken.perm
      simp only [sources, held, Option.toList_some, List.flatMap_append, List.flatMap_singleton,
        tally_append] at hb hheap ⊢
      omega

lemma takeBack (h : Accounts tag total q (g :: gs)) (ht : TakenBack tag q g.members q') : Accounts tag total q' gs := by
  have hfits := h.fits
  have hlen := ht.length_le
  rw [List.flatMap_cons, List.length_append] at hfits
  refine ⟨ht.sound h.sound, ?_, fun n => ?_⟩
  · rw [ht.capacity]
    omega
  · have hb := h.balance n
    have htb := ht.balance n
    rw [List.flatMap_cons, tally_append] at hb
    omega

lemma release (h : Accounts tag total q gs) : Accounts tag total q.release gs := by
  have ht : TakenBack tag q [] q.release := takenBack_release q
  refine ⟨ht.sound h.sound, ?_, fun n => ?_⟩
  · have hfits := h.fits
    have hlen := ht.length_le
    rw [ht.capacity]
    rw [List.length_nil] at hlen
    omega
  · rw [ht.balance n]
    exact h.balance n

lemma change (h : Accounts tag total q (g :: gs)) (ht : (tags tag g'.members).Perm (tags tag g.members)) :
    Accounts tag total q (g' :: gs) := by
  refine ⟨h.sound, ?_, fun n => ?_⟩
  · have hfits := h.fits
    have hlen : g'.members.length = g.members.length := by simpa [tags] using ht.length_eq
    rw [List.flatMap_cons, List.length_append] at hfits ⊢
    rwa [hlen]
  · have hb := h.balance n
    have htally : tally tag n g'.members = tally tag n g.members := by
      rw [← count_tags, ← count_tags, ht.count_eq]
    rw [List.flatMap_cons, tally_append] at hb ⊢
    rwa [htally]

lemma room (h : Accounts tag total q (g :: gs)) : q.heap.toList.length + g.members.length ≤ q.heap.capacity := by
  have hfits := h.fits
  rw [List.flatMap_cons, List.length_append] at hfits
  omega

lemma advance (ht : IsKept tag) (h : Accounts tag total q (g :: gs)) (ha : (q.advance g).after = .ok q') :
    Accounts tag total q' gs := by
  rcases advance_takenBack ht h.sound h.room with ⟨q₁, hq₁, hback⟩ | ⟨m, -, x, hx, -⟩
  · obtain rfl := Except.ok.inj (ha.symm.trans hq₁)
    exact h.takeBack hback
  · rw [ha] at hx
    cases hx

lemma nodup_tags (h : Accounts tag total q gs) (htotal : ∀ n, total n ≤ 1) :
    (tags tag (q.sources ++ gs.flatMap TermGroup.members)).Nodup := by
  refine nodup_tags_iff.mpr fun n => ?_
  rw [tally_append, h.balance n]
  exact htotal n

end Accounts

def Request.Keeps (tag : C → Nat) : Request C → Prop
  | .handle _ change => ∀ g, (tags tag (change g).members).Perm (tags tag g.members)
  | _ => True

lemma tags_moveMember (ht : IsKept tag) {g g' : TermGroup C} {j : Nat} {hj : j < g.members.length}
    (h : (g.moveMember j hj).after = .ok g') : tags tag g'.members = tags tag g.members := by
  have hmoved (c : C) (hc : (TermCursor.next g.members[j].cursor).after = .ok c) :
      tags tag (g.members.set j { g.members[j] with cursor := c }) = tags tag g.members := by
    rw [tags, List.map_set, ht _ c hc]
    simp [tags, ← List.map_set]
  rw [TermGroup.moveMember] at h
  cases hm : TermCursor.next g.members[j].cursor with
  | done c more =>
    rw [hm] at h
    exact Except.ok.inj h ▸ hmoved c (by rw [hm]; rfl)
  | failed c e =>
    rw [hm] at h
    exact Except.ok.inj h ▸ hmoved c (by rw [hm]; rfl)
  | fault x =>
    rw [hm] at h
    cases h

namespace Session

variable {s s' : Session C} {r : Request C} {rs : List (Request C)} {i : Nat} {g g' : TermGroup C}

/-- A request succeeds with a session of some kind, unless the move of a cursor in hand is a fault. -/
def Yields (s : Session C) (P : Session C → Prop) : Except Fault (Session C) → Prop
  | .ok s' => P s'
  | .error x => ∃ g ∈ s.outstanding, ∃ m ∈ g.members, TermCursor.next m.cursor = .fault x

lemma withGroup_yields {P : Session C → Prop} {f : TermGroup C → Except Fault (Session C)} (h : P s)
    (hf : ∀ g, s.outstanding[i]? = some g → s.Yields P (f g)) : s.Yields P (s.withGroup i f) := by
  rw [withGroup]
  cases hi : s.outstanding[i]? with
  | none => exact h
  | some g => exact hf g hi

def IsAccounted (tag : C → Nat) (total : Nat → Nat) (s : Session C) : Prop :=
  Accounts tag total s.queue (s.outstanding ++ s.discarded)

lemma IsAccounted.pick (h : s.IsAccounted tag total) (hi : s.outstanding[i]? = some g) :
    Accounts tag total s.queue (g :: (s.outstanding.eraseIdx i ++ s.discarded)) := by
  obtain ⟨hlt, rfl⟩ := List.getElem?_eq_some_iff.mp hi
  exact h.perm ((List.getElem_cons_eraseIdx_perm hlt).symm.append_right _)

lemma IsAccounted.change (h : s.IsAccounted tag total) (hi : s.outstanding[i]? = some g)
    (ht : (tags tag g'.members).Perm (tags tag g.members)) :
    Accounts tag total s.queue (s.outstanding.set i g' ++ s.discarded) := by
  have hlt := (List.getElem?_eq_some_iff.mp hi).1
  exact ((h.pick hi).change ht).perm ((List.set_perm_cons_eraseIdx hlt g').symm.append_right _)

lemma IsAccounted.advance (ht : IsKept tag) (h : s.IsAccounted tag total) (hi : s.outstanding[i]? = some g) :
    s.Yields (IsAccounted tag total) (settle (s.handBack i) (s.queue.advance g)) := by
  have hg := h.pick hi
  cases ho : s.queue.advance g with
  | done q u => exact hg.advance ht (congrArg Outcome.after ho)
  | failed q e => exact hg.advance ht (congrArg Outcome.after ho)
  | fault x =>
    have hback := advance_takenBack ht h.sound hg.room
    rw [ho] at hback
    obtain ⟨q', hq, -⟩ | ⟨m, hm, x', hx, hfault⟩ := hback
    · cases hq
    · exact ⟨g, List.mem_of_getElem? hi, m, hm, Except.error.inj hx ▸ hfault⟩

lemma IsAccounted.move (ht : IsKept tag) (h : s.IsAccounted tag total) (hi : s.outstanding[i]? = some g) {j : Nat}
    (hj : j < g.members.length) : s.Yields (IsAccounted tag total)
      (settle (fun g => { s with outstanding := s.outstanding.set i g }) (g.moveMember j hj)) := by
  cases ho : g.moveMember j hj with
  | done g' more => exact h.change hi (.of_eq (tags_moveMember ht (by rw [ho]; rfl)))
  | failed g' e => exact h.change hi (.of_eq (tags_moveMember ht (by rw [ho]; rfl)))
  | fault x => exact ⟨g, List.mem_of_getElem? hi, _, List.getElem_mem hj, Outcome.mapState_eq_fault ho⟩

lemma step_accounts (ht : IsKept tag) (h : s.IsAccounted tag total) (hr : r.Keeps tag) :
    s.Yields (IsAccounted tag total) (step r s) := by
  cases r with
  | pop =>
    refine h.pop.perm ?_
    rw [← List.append_assoc]
    exact List.perm_append_comm.append_right _
  | advance i => exact withGroup_yields h fun g hi => h.advance ht hi
  | abandon i => exact withGroup_yields h fun g hi => (h.pick hi).takeBack (takenBack_abandon s.queue g)
  | discard i =>
    refine withGroup_yields h fun g hi => (h.pick hi).perm ?_
    exact List.perm_append_singleton .. |>.symm.trans (.of_eq (List.append_assoc ..))
  | move i j =>
    refine withGroup_yields h fun g hi => ?_
    split
    · exact h.move ht hi _
    · exact h
  | handle i change => exact withGroup_yields h fun g hi => h.change hi (hr g)
  | close =>
    have hclose := after_close s.queue
    rw [step]
    cases hc : s.queue.close with
    | done q u =>
      rw [hc] at hclose
      exact Except.ok.inj hclose ▸ h.release
    | failed q e =>
      rw [hc] at hclose
      exact Except.ok.inj hclose ▸ h.release
    | fault x =>
      rw [hc] at hclose
      cases hclose

lemma run_accounts (ht : IsKept tag) (h : s.IsAccounted tag total) (hrs : ∀ r ∈ rs, r.Keeps tag) :
    (∃ s', run rs s = .ok s' ∧ s'.IsAccounted tag total) ∨
      ∃ (c : C) (x : Fault), run rs s = .error x ∧ TermCursor.next c = .fault x := by
  induction rs generalizing s with
  | nil => exact .inl ⟨s, rfl, h⟩
  | cons r rs ih =>
    rw [List.forall_mem_cons] at hrs
    have hstep := step_accounts ht h hrs.1
    rw [run]
    cases hr : step r s with
    | ok s₁ =>
      rw [hr] at hstep
      exact ih hstep hrs.2
    | error x =>
      rw [hr] at hstep
      obtain ⟨g, -, m, -, hx⟩ := hstep
      exact .inr ⟨m.cursor, x, rfl, hx⟩

lemma IsAccounted.run (ht : IsKept tag) (h : s.IsAccounted tag total) (hrs : ∀ r ∈ rs, r.Keeps tag)
    (hs : Session.run rs s = .ok s') : s'.IsAccounted tag total := by
  rcases run_accounts ht h hrs with ⟨s₁, hs₁, h₁⟩ | ⟨c, x, hx, -⟩
  · exact Except.ok.inj (hs.symm.trans hs₁) ▸ h₁
  · rw [hs] at hx
    cases hx

end Session

end Accounts

end InvertedIndex.MergeQueue
