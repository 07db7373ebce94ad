import InvertedIndex.Proofs.Merge.Closing
import InvertedIndex.Proofs.Merge.Rounds

namespace InvertedIndex

open Heap MergeSource

instance {C : Type} [TermCursor C] [ListedCursor C] : ListedCursor (Numbered C) where
  entries c := ListedCursor.entries c.cursor
  term?_eq c := ListedCursor.term?_eq c.cursor
  docFreq_eq c := ListedCursor.docFreq_eq c.cursor
  next_done {c} h := by
    obtain ⟨cursor, hc, htail⟩ := ListedCursor.next_done (c := c.cursor) h
    exact ⟨{ c with cursor := cursor }, congrArg (Outcome.mapState _) hc, htail⟩
  close_error c := ListedCursor.close_error c.cursor
  length_le_bound c := ListedCursor.length_le_bound c.cursor

namespace MergeQueue

variable {C : Type}

lemma filter_number_of_notMem {n : Nat} {members : List (MergeSource (Numbered C))} (h : n ∉ numbers members) :
    members.filter (·.cursor.number == n) = [] := by
  refine List.filter_eq_nil_iff.mpr fun m hm hn => h ?_
  exact List.mem_map.mpr ⟨m, hm, beq_iff_eq.mp hn⟩

lemma filter_number_of_mem {m : MergeSource (Numbered C)} {members : List (MergeSource (Numbered C))}
    (h : (numbers members).Nodup) (hm : m ∈ members) : members.filter (·.cursor.number == m.cursor.number) = [m] := by
  induction members with
  | nil => cases hm
  | cons a members ih =>
    obtain ⟨ha, hrest⟩ := List.nodup_cons.mp h
    rcases List.mem_cons.mp hm with rfl | hm
    · rw [List.filter_cons_of_pos (by simp), filter_number_of_notMem ha]
    · have hne : a.cursor.number ≠ m.cursor.number := fun he => ha (List.mem_map.mpr ⟨m, hm, he.symm⟩)
      rw [List.filter_cons_of_neg (by simpa using hne), ih hrest hm]

def Request.isTurn : Request C → Bool
  | .pop => true
  | .advance _ => true
  | _ => false

def appearances [TermCursor C] (n : Nat) (groups : List (TermGroup (Numbered C))) : List TermEntry :=
  groups.flatMap fun g => (g.members.filter (·.cursor.number == n)).map fun m => ⟨g.term, m.docFreq⟩

section Appearances

variable [TermCursor C] {g : TermGroup (Numbered C)} {m : MergeSource (Numbered C)}

@[simp] lemma appearances_nil (n : Nat) : appearances (C := C) n [] = [] := rfl

lemma appearances_append (n : Nat) (groups groups' : List (TermGroup (Numbered C))) :
    appearances n (groups ++ groups') = appearances n groups ++ appearances n groups' := List.flatMap_append

lemma appearances_singleton (n : Nat) (g : TermGroup (Numbered C)) :
    appearances n [g] = (g.members.filter (·.cursor.number == n)).map fun m => ⟨g.term, m.docFreq⟩ :=
  List.flatMap_singleton _ _

lemma appearances_of_notMem {n : Nat} (h : n ∉ numbers g.members) (groups : List (TermGroup (Numbered C))) :
    appearances n (groups ++ [g]) = appearances n groups := by
  rw [appearances_append, appearances_singleton, filter_number_of_notMem h, List.map_nil, List.append_nil]

lemma appearances_of_mem (h : (numbers g.members).Nodup) (hm : m ∈ g.members)
    (groups : List (TermGroup (Numbered C))) : appearances m.cursor.number (groups ++ [g]) =
      appearances m.cursor.number groups ++ [⟨g.term, m.docFreq⟩] := by
  rw [appearances_append, appearances_singleton, filter_number_of_mem h hm, List.map_singleton]

end Appearances

variable [TermCursor C] [ListedCursor C] {sources : List (MergeSource C)}

def ownEntries (sources : List (MergeSource C)) (n : Nat) : List TermEntry :=
  sources[n]?.elim [] fun s => ListedCursor.entries s.cursor

structure Serves (sources : List (MergeSource C)) (s : Session (Numbered C)) : Prop where
  accounts : s.IsAccounted Numbered.number (tally Numbered.number · (numbered sources))
  retired : s.queue.retired = []
  errors : s.errors = []
  queued : ∀ m ∈ s.queue.heap.toList,
    appearances m.cursor.number s.popped ++ m.listed.entries = ownEntries sources m.cursor.number
  inHand : ∀ m ∈ (s.outstanding ++ s.discarded).flatMap TermGroup.members, m.listed.entries ≠ [] ∧
    appearances m.cursor.number s.popped ++ m.listed.entries.tail = ownEntries sources m.cursor.number
  closed : ∀ m ∈ s.queue.closed, m.listed.entries = [] ∧
    appearances m.cursor.number s.popped = ownEntries sources m.cursor.number

variable {s s' : Session (Numbered C)} {g : TermGroup (Numbered C)}

lemma ownEntries_of_numbered {m : MergeSource (Numbered C)} (h : m ∈ numbered sources) :
    ownEntries sources m.cursor.number = m.listed.entries := by
  obtain ⟨i, hi, rfl⟩ := List.mem_iff_getElem.mp h
  have hlt : i < sources.length := by simpa [numbered] using hi
  have hget : (numbered sources)[i] = ⟨sources[i].origin, ⟨i, sources[i].cursor⟩⟩ := List.getElem_mapIdx ..
  rw [hget, ownEntries, List.getElem?_eq_getElem hlt]
  rfl

lemma serves_ofSources {q : MergeQueue (Numbered C)} (h : ofSources (numbered sources) = .ok q) :
    Serves sources { queue := q } := by
  obtain ⟨-, hperm, hretired, -, hclosed⟩ := ofSources_spec h
  refine ⟨accounts_ofSources h, hretired, rfl, fun m hm => ?_, nofun, fun m hm => ?_⟩
  · rw [ownEntries_of_numbered (List.mem_of_mem_filter (hperm.subset hm)), appearances_nil, List.nil_append]
  · rw [hclosed] at hm
    have hnone : m.listed.entries = [] := term?_eq_none_iff.mp (Option.isNone_iff_eq_none.mp (List.mem_filter.mp hm).2)
    rw [ownEntries_of_numbered (List.mem_of_mem_filter hm), hnone]
    exact ⟨rfl, rfl⟩

lemma Serves.numbers_perm (h : Serves sources s) :
    (numbers (s.queue.heap.toList ++ s.queue.closed ++ (s.outstanding ++ s.discarded).flatMap TermGroup.members)).Perm
      (List.range sources.length) := by
  refine numbers_perm_range fun n => ?_
  have hb := h.accounts.balance n
  rw [MergeQueue.sources, held, h.retired, List.append_nil] at hb
  rw [tally_append]
  exact hb

lemma entries_of_term? {m : MergeSource (Numbered C)} {t : Term} (h : m.term? = some t) :
    m.listed.entries = ⟨t, m.docFreq⟩ :: m.listed.entries.tail := by
  rw [m.docFreq_eq]
  rw [term?_eq] at h
  cases he : m.listed.entries with
  | nil => simp [he] at h
  | cons e es =>
    obtain rfl : e.term = t := by simpa [he] using h
    rfl

lemma Serves.afterPop (h : Serves sources s) : Serves sources s.afterPop := by
  have haccounts : s.afterPop.IsAccounted Numbered.number (tally Numbered.number · (numbered sources)) :=
    Session.step_accounts (r := .pop) isKept_number h.accounts trivial
  rcases pop_taken h.accounts.sound with ⟨-, hpop⟩ | ⟨g, heap, hpop, -, htaken⟩
  · rwa [Session.afterPop_of_none hpop]
  · rw [Session.afterPop_of_some hpop] at haccounts ⊢
    have hperm : (g.members ++ (heap.toList ++ s.queue.closed ++
          (s.outstanding ++ s.discarded).flatMap TermGroup.members)).Perm
        (s.queue.heap.toList ++ s.queue.closed ++ (s.outstanding ++ s.discarded).flatMap TermGroup.members) := by
      rw [← List.append_assoc, ← List.append_assoc]
      exact (htaken.perm.append_right _).append_right _
    have hnodup := ((hperm.map _).trans h.numbers_perm).nodup_iff.mpr List.nodup_range
    rw [List.map_append] at hnodup
    obtain ⟨hmembers, -, hapart⟩ := List.nodup_append.mp hnodup
    have hother : ∀ m ∈ heap.toList ++ s.queue.closed ++ (s.outstanding ++ s.discarded).flatMap TermGroup.members,
        m.cursor.number ∉ numbers g.members := fun m hm hg => hapart _ hg _ (List.mem_map_of_mem hm) rfl
    refine ⟨haccounts, h.retired, h.errors, fun m hm => ?_, fun m hm => ?_, fun m hm => ?_⟩
    · have hm' : m ∈ heap.toList := hm
      rw [appearances_of_notMem (hother m (by simp [hm']))]
      exact h.queued m (htaken.perm.subset (List.mem_append_right _ hm))
    · have hm' : m ∈ g.members ∨ m ∈ (s.outstanding ++ s.discarded).flatMap TermGroup.members := by
        simp only [List.flatMap_append, List.flatMap_singleton, List.mem_append] at hm ⊢
        tauto
      rcases hm' with hm | hm
      · refine ⟨htaken.entries_ne_nil m hm, ?_⟩
        have hown := h.queued m (htaken.perm.subset (List.mem_append_left _ hm))
        rw [entries_of_term? (htaken.onTerm m hm)] at hown
        rw [appearances_of_mem hmembers hm, List.append_assoc]
        exact hown
      · rw [appearances_of_notMem (hother m (List.mem_append_right _ hm))]
        exact h.inHand m hm
    · have hm' : m ∈ s.queue.closed := hm
      rw [appearances_of_notMem (hother m (by simp [hm']))]
      exact h.closed m hm

lemma handed_back {m m' : MergeSource (Numbered C)} (h : m.listed.entries ≠ []) (hm : m' ∈ m.requeued ++ m.finished) :
    m'.cursor.number = m.cursor.number ∧ m'.listed.entries = m.listed.entries.tail := by
  obtain ⟨c, hc, htail⟩ := ListedCursor.next_done h
  have hnumber : c.number = m.cursor.number := isKept_number m.cursor c (by rw [hc]; rfl)
  have heq : m' = { m with cursor := c } := by
    by_cases hmore : (decide (m.listed.entries.tail ≠ []) && (TermCursor.term? c).isSome) = true
    · simpa [requeued_eq hc hmore] using hm
    · simpa [finished_eq hc hmore] using hm
  exact heq ▸ ⟨hnumber, htail⟩

lemma tail_of_finished {m m' : MergeSource (Numbered C)} (h : m.listed.entries ≠ []) (hm : m' ∈ m.finished) :
    m.listed.entries.tail = [] := by
  obtain ⟨c, hc, htail⟩ := ListedCursor.next_done h
  by_contra hne
  have hsome : (TermCursor.term? c).isSome = true := by
    rw [ListedCursor.term?_eq, htail, Option.isSome_map, List.isSome_head?]
    exact hne
  rw [(requeued_eq hc (by rw [hsome, Bool.and_true]; exact decide_eq_true hne)).2] at hm
  cases hm

lemma Serves.advance (h : Serves sources s) {i : Nat} (hi : s.outstanding[i]? = some g) :
    ∃ q, s.queue.advance g = .done q () ∧ Serves sources (s.handBack i q) := by
  have hpick := h.accounts.pick hi
  have hg : ∀ m ∈ g.members, m ∈ (s.outstanding ++ s.discarded).flatMap TermGroup.members := fun m hm =>
    List.mem_flatMap.mpr ⟨g, List.mem_append_left _ (List.mem_of_getElem? hi), hm⟩
  have hne : ∀ m ∈ g.members, m.listed.entries ≠ [] := fun m hm => (h.inHand m (hg m hm)).1
  obtain ⟨q, hq, ha⟩ := advance_done h.accounts.sound hne hpick.room
  have hback := ha.takenBack isKept_number fun m hm => moves (hne m hm)
  refine ⟨q, hq, hpick.takeBack hback, ha.retired.trans h.retired, h.errors, fun m hm => ?_, fun m hm => ?_,
    fun m hm => ?_⟩
  · rcases List.mem_append.mp (ha.perm.subset hm) with hm | hm
    · exact h.queued m hm
    · obtain ⟨m₀, hm₀, hm⟩ := List.mem_flatMap.mp hm
      obtain ⟨hnumber, hentries⟩ := handed_back (hne m₀ hm₀) (List.mem_append_left _ hm)
      rw [hnumber, hentries]
      exact (h.inHand m₀ (hg m₀ hm₀)).2
  · obtain ⟨g', hg', hm⟩ := List.mem_flatMap.mp hm
    refine h.inHand m (List.mem_flatMap.mpr ⟨g', List.mem_append.mpr ?_, hm⟩)
    exact (List.mem_append.mp hg').imp_left List.mem_of_mem_eraseIdx
  · change m ∈ q.closed at hm
    rw [ha.closed] at hm
    rcases List.mem_append.mp hm with hm | hm
    · exact h.closed m hm
    · obtain ⟨m₀, hm₀, hm⟩ := List.mem_flatMap.mp hm
      obtain ⟨hnumber, hentries⟩ := handed_back (hne m₀ hm₀) (List.mem_append_right _ hm)
      have hown := (h.inHand m₀ (hg m₀ hm₀)).2
      rw [tail_of_finished (hne m₀ hm₀) hm] at hentries hown
      rw [hnumber, hentries]
      exact ⟨rfl, by rwa [List.append_nil] at hown⟩

lemma serves_step (h : Serves sources s) {r : Request (Numbered C)} (hr : r.isTurn = true) :
    ∃ s', Session.step r s = .ok s' ∧ Serves sources s' := by
  cases r with
  | pop => exact ⟨s.afterPop, rfl, h.afterPop⟩
  | advance i =>
    rw [Session.step, Session.withGroup]
    cases hi : s.outstanding[i]? with
    | none => exact ⟨s, rfl, h⟩
    | some g =>
      obtain ⟨q, hq, h'⟩ := h.advance hi
      exact ⟨s.handBack i q, by simp only [hq]; rfl, h'⟩
  | _ => cases hr

lemma serves_run (h : Serves sources s) {rs : List (Request (Numbered C))} (hrs : ∀ r ∈ rs, r.isTurn = true) :
    ∃ s', Session.run rs s = .ok s' ∧ Serves sources s' := by
  induction rs generalizing s with
  | nil => exact ⟨s, rfl, h⟩
  | cons r rs ih =>
    rw [List.forall_mem_cons] at hrs
    obtain ⟨s₁, hr, h₁⟩ := serves_step h hrs.1
    rw [Session.run, hr]
    exact ih h₁ hrs.2

/-- Whatever the turns, they succeed, and the entries a source has appeared with are an initial part of its own list;
once the queue is empty and no group is outstanding, they are all of it. -/
theorem appearances_exhaust_entries (sources : List (MergeSource C)) (rs : List (Request (Numbered C)))
    (hrs : ∀ r ∈ rs, r.isTurn = true) :
    ∃ q s, ofSources (numbered sources) = .ok q ∧ Session.run rs { queue := q } = .ok s ∧ s.errors = [] ∧
      ∀ i : Fin sources.length,
        appearances i s.popped <+: ListedCursor.entries sources[i].cursor ∧
        (s.queue.isEmpty = true → s.outstanding = [] →
          appearances i s.popped = ListedCursor.entries sources[i].cursor) := by
  obtain ⟨q, hq⟩ := ofSources_eq_ok (closeErrors_eq_nil ((numbered sources).filter (·.term?.isNone)))
  obtain ⟨s, hs, h⟩ := serves_run (serves_ofSources hq) hrs
  have hdiscarded : s.discarded = [] := Session.run_discarded (fun i hi => Bool.false_ne_true (hrs _ hi)) hs
  refine ⟨q, s, hq, hs, h.errors, fun i => ?_⟩
  have hown : ownEntries sources i = ListedCursor.entries sources[i].cursor := by simp [ownEntries]
  obtain ⟨m, hm, hnumber⟩ := List.mem_map.mp (h.numbers_perm.symm.subset (List.mem_range.mpr i.isLt))
  rw [← hown, ← hnumber]
  rcases List.mem_append.mp hm with hm | hm
  · rcases List.mem_append.mp hm with hm | hm
    · refine ⟨⟨_, h.queued m hm⟩, fun hempty _ => ?_⟩
      rw [isEmpty_iff.mp hempty] at hm
      cases hm
    · obtain ⟨-, heq⟩ := h.closed m hm
      exact ⟨⟨[], by rw [List.append_nil, heq]⟩, fun _ _ => heq⟩
  · refine ⟨⟨_, (h.inHand m hm).2⟩, fun _ hnone => ?_⟩
    rw [hnone, hdiscarded] at hm
    cases hm

def overtakenSources : List (MergeSource ListingCursor) :=
  [⟨5, { entries := #[⟨⟨"f", "a"⟩, 1⟩, ⟨⟨"f", "b"⟩, 2⟩, ⟨⟨"f", "c"⟩, 3⟩] }⟩,
    ⟨2, { entries := #[⟨⟨"f", "b"⟩, 4⟩, ⟨⟨"f", "c"⟩, 5⟩] }⟩, ⟨5, { entries := #[⟨⟨"f", "a"⟩, 6⟩] }⟩]

theorem appearances_exhaust_overtaken_entries :
    ∃ q s, ofSources (numbered overtakenSources) = .ok q ∧
      Session.run [.pop, .pop, .advance 1, .pop, .advance 0, .pop, .advance 1, .advance 0, .pop, .advance 0]
        { queue := q } = .ok s ∧
      s.queue.isEmpty = true ∧ s.outstanding = [] ∧ s.popped.map (·.term.text) = ["a", "b", "c", "b", "c"] ∧
      appearances 0 s.popped = [⟨⟨"f", "a"⟩, 1⟩, ⟨⟨"f", "b"⟩, 2⟩, ⟨⟨"f", "c"⟩, 3⟩] ∧
      appearances 1 s.popped = [⟨⟨"f", "b"⟩, 4⟩, ⟨⟨"f", "c"⟩, 5⟩] ∧ appearances 2 s.popped = [⟨⟨"f", "a"⟩, 6⟩] := by
  obtain ⟨q, s, hq, hs, -, hall⟩ := appearances_exhaust_entries overtakenSources
    [.pop, .pop, .advance 1, .pop, .advance 0, .pop, .advance 1, .advance 0, .pop, .advance 0] (by decide)
  have hrun : ((ofSources (numbered overtakenSources)).toOption.bind fun q =>
      (Session.run [.pop, .pop, .advance 1, .pop, .advance 0, .pop, .advance 1, .advance 0, .pop, .advance 0]
        { queue := q }).toOption.map fun s =>
          (s.queue.isEmpty, s.outstanding.length, s.popped.map (·.term.text))) =
      some (true, 0, ["a", "b", "c", "b", "c"]) := by
    decide +kernel
  rw [hq] at hrun
  simp only [Except.toOption, Option.bind_some, hs, Option.map_some, Option.some.injEq, Prod.mk.injEq,
    List.length_eq_zero_iff] at hrun
  obtain ⟨hempty, hout, hterms⟩ := hrun
  have hentries (i : Fin 3) := (hall i).2 hempty hout
  exact ⟨q, s, hq, hs, hempty, hout, hterms, hentries 0, hentries 1, hentries 2⟩

end MergeQueue

end InvertedIndex
