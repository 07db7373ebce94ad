import InvertedIndex.Proofs.Merge.Histories

namespace InvertedIndex.MergeQueue

open Heap MergeSource

section Division

variable {C : Type} [TermCursor C] {q q' : MergeQueue C} {g : TermGroup C} {s : MergeSource C} {c : C} {e : Error}
  {moved members left kept rest : List (MergeSource C)}

structure Divides (q : MergeQueue C) (moved kept : List (MergeSource C)) (q' : MergeQueue C) : Prop where
  moves : ∀ m ∈ moved, m.Moves
  queued : q'.heap.toList.Perm (q.heap.toList ++ moved.flatMap requeued)
  closed : q'.closed = q.closed ++ moved.flatMap finished
  retired : q'.retired = q.retired ++ kept

inductive Ending (q' : MergeQueue C) :
    (left kept : List (MergeSource C)) → List Error → Outcome (MergeQueue C) Unit → Prop
  | closed : Ending q' [] [] [] (.done q' ())
  | closeFailed (e : Error) : Ending q' [] [] [e] (.failed q' e)
  | closesFailed (e e' : Error) (es : List Error) :
    Ending q' [] [] (e :: e' :: es) (.failed q' (.close (e :: e' :: es)))
  | moveFailed {s : MergeSource C} {rest : List (MergeSource C)} {c : C} {e : Error} {errors : List Error} :
    TermCursor.next s.cursor = .failed c e →
      Ending q' (s :: rest) ({ s with cursor := c } :: rest) errors (.failed q' e)

lemma findIdx_failsToMove (hm : ∀ m ∈ members, m.Moves) : members.findIdx failsToMove = members.length :=
  List.findIdx_eq_length.mpr fun m h => (hm m h).failsToMove_eq_false

lemma findIdx_failsToMove_append (hm : ∀ m ∈ moved, m.Moves) (hs : TermCursor.next s.cursor = .failed c e) :
    (moved ++ s :: rest).findIdx failsToMove = moved.length := by
  have hfails : s.failsToMove = true := by
    rw [failsToMove, hs]
    rfl
  rw [List.findIdx_append, findIdx_failsToMove hm, if_neg (Nat.lt_irrefl _), List.findIdx_cons, hfails]
  exact Nat.zero_add _

lemma ending_of_done {errors : List Error} (h : q.IsSound) (hd : q.advanceMembers g.members = .done q' errors) :
    Ending q' [] [] errors (q.advance g) := by
  rw [advance_of_done h hd]
  rcases errors with - | ⟨e, - | ⟨e', es⟩⟩
  · exact .closed
  · exact .closeFailed e
  · exact .closesFailed e e' es

lemma advance_divides (hq : q.IsSound) (hroom : q.heap.toList.length + g.members.length ≤ q.heap.capacity) {k : Nat}
    (hk : k = g.members.findIdx failsToMove) :
    (∃ m ∈ g.members.take k, ∃ x, TermCursor.next m.cursor = .fault x ∧ q.advance g = .fault x) ∨
      ∃ q' kept, Divides q (g.members.take k) kept q' ∧
        Ending q' (g.members.drop k) kept (closeErrors ((g.members.take k).flatMap finished)) (q.advance g) := by
  subst hk
  have hres := advanceMembers_result g.members q hroom
  cases ho : q.advanceMembers g.members with
  | done q' errors =>
    rw [ho] at hres
    obtain ⟨hmoves, ha, rfl⟩ := hres
    rw [findIdx_failsToMove hmoves, List.take_length, List.drop_length]
    refine .inr ⟨q', [], ⟨hmoves, ha.perm, ha.closed, ?_⟩, ending_of_done hq ho⟩
    rw [ha.retired, List.append_nil]
  | failed q' e =>
    rw [ho] at hres
    obtain ⟨moved, s, rest, c, q₁, hmembers, hmoves, hs, ha, rfl⟩ := hres
    rw [advance, ho, hmembers, findIdx_failsToMove_append hmoves hs, List.take_left, List.drop_left]
    refine .inr ⟨{ q₁ with retired := q₁.retired ++ { s with cursor := c } :: rest }, _, ?_, .moveFailed hs⟩
    exact ⟨hmoves, ha.perm, ha.closed, congrArg (· ++ _) ha.retired⟩
  | fault x =>
    rw [ho] at hres
    obtain ⟨m, hm, hx⟩ := hres
    exact .inl ⟨m, hm, x, hx, by rw [advance, ho]⟩

lemma Ending.after {errors : List Error} {o : Outcome (MergeQueue C) Unit} (h : Ending q' left kept errors o) :
    o.after = .ok q' := by
  cases h <;> rfl

lemma Ending.tags_eq {tag : C → Nat} (ht : IsKept tag) {errors : List Error} {o : Outcome (MergeQueue C) Unit}
    (h : Ending q' left kept errors o) : tags tag kept = tags tag left := by
  cases h with
  | closed => rfl
  | closeFailed e => rfl
  | closesFailed e e' es => rfl
  | @moveFailed s rest c e errors hs =>
    have hc : tag c = tag s.cursor := ht s.cursor c (by rw [hs]; rfl)
    rw [tags, tags, List.map_cons, List.map_cons, hc]

lemma Session.IsAccounted.tag_ne {tag : C → Nat} {total : Nat → Nat} {s : Session C} (h : s.IsAccounted tag total)
    (htotal : ∀ n, total n ≤ 1) (hg : s.queue.pop.1 = some g) {m m' : MergeSource C} (hm : m ∈ s.queue.aside)
    (hm' : m' ∈ g.members) : tag m.cursor ≠ tag m'.cursor := by
  have hnodup := h.pop.nodup_tags htotal
  have hstays : m ∈ s.queue.pop.2.sources := by
    have haside := (follows_pop h.sound).aside hm
    simp only [aside, sources, held, List.mem_append] at haside ⊢
    tauto
  have hpopped : m' ∈ (s.queue.pop.1.toList ++ (s.outstanding ++ s.discarded)).flatMap TermGroup.members := by
    rw [hg]
    exact List.mem_flatMap.mpr ⟨g, List.mem_cons_self, hm'⟩
  rw [tags, List.map_append] at hnodup
  intro heq
  exact List.disjoint_of_nodup_append hnodup (List.mem_map_of_mem hstays) (heq ▸ List.mem_map_of_mem hpopped)

end Division

section Numbers

variable {C : Type} [TermCursor C] {sources : List (MergeSource C)} {q : MergeQueue (Numbered C)}
  {s : Session (Numbered C)} {g : TermGroup (Numbered C)}

omit [TermCursor C] in
lemma tally_numbered_le_one (sources : List (MergeSource C)) (n : Nat) :
    tally Numbered.number n (numbered sources) ≤ 1 := by
  refine nodup_tags_iff.mp ?_ n
  change (numbers (numbered sources)).Nodup
  rw [numbers_numbered]
  exact List.nodup_range

/-- A group that is handed back is divided at the first member whose move fails. The members before it have moved once,
and each of them is queued, if it claims to be on a following term and is, or else has been closed. The others are kept
in their order, and none of them is in a group from then on. -/
theorem advance_divides_members (hq : ofSources (numbered sources) = .ok q) {rs : List (Request (Numbered C))}
    (hrs : ∀ r ∈ rs, r.Keeps Numbered.number) (hs : Session.run rs { queue := q } = .ok s) {i : Nat}
    (hi : s.outstanding[i]? = some g) {k : Nat} (hk : k = g.members.findIdx failsToMove) :
    (∃ m ∈ g.members.take k, ∃ x, TermCursor.next m.cursor = .fault x ∧ s.queue.advance g = .fault x) ∨
      ∃ q' kept, Divides s.queue (g.members.take k) kept q' ∧
        Ending q' (g.members.drop k) kept (closeErrors ((g.members.take k).flatMap finished)) (s.queue.advance g) ∧
        (numbers (q'.sources ++ (s.outstanding.eraseIdx i ++ s.discarded).flatMap TermGroup.members)).Nodup ∧
        ∀ (rs' : List (Request (Numbered C))) s', (∀ r ∈ rs', r.Keeps Numbered.number) →
          Session.run rs' (s.handBack i q') = .ok s' →
            kept ⊆ s'.queue.aside ∧
            ∀ g', s'.queue.pop.1 = some g' → List.Disjoint (numbers (g.members.drop k)) (numbers g'.members) := by
  have htotal := tally_numbered_le_one sources
  have hstart : Session.IsAccounted Numbered.number (tally Numbered.number · (numbered sources)) { queue := q } :=
    accounts_ofSources hq
  have ha := hstart.run isKept_number hrs hs
  have hpick := ha.pick hi
  rcases advance_divides ha.sound hpick.room hk with hfault | ⟨q', kept, hdivides, hending⟩
  · exact .inl hfault
  · have hback : (s.handBack i q').IsAccounted Numbered.number (tally Numbered.number · (numbered sources)) :=
      hpick.advance isKept_number hending.after
    refine .inr ⟨q', kept, hdivides, hending, hback.nodup_tags htotal, fun rs' s' hrs' hs' => ?_⟩
    have hkept : kept ⊆ s'.queue.aside := by
      refine List.Subset.trans (fun m hm => ?_) (Session.run_follows hback.sound hs').aside
      change m ∈ q'.aside
      rw [aside, hdivides.retired]
      exact List.mem_append_left _ (List.mem_append_right _ hm)
    -- The source that failed has another cursor now, but its number is the same.
    have hnumbers : numbers kept = numbers (g.members.drop k) := hending.tags_eq isKept_number
    rw [← hnumbers]
    refine ⟨hkept, fun g' hg' n hn hn' => ?_⟩
    obtain ⟨m, hm, rfl⟩ := List.mem_map.mp hn
    obtain ⟨m', hm', heq⟩ := List.mem_map.mp hn'
    exact (hback.run isKept_number hrs' hs').tag_ne htotal hg' (hkept hm) hm' heq.symm

def dividedSources : List (MergeSource SegmentCursor) :=
  [⟨0, .listing { entries := #[⟨⟨"f", "a"⟩, 1⟩, ⟨⟨"f", "b"⟩, 1⟩] }⟩,
    ⟨1, .scripted ⟨"1", Outages.none, some (.dataSource "closing"), false, false⟩ 0
      (.listing { entries := #[⟨⟨"f", "a"⟩, 1⟩] })⟩,
    ⟨2, .scripted ⟨"2", Outages.ofCalls [0] (.dataSource "moving"), none, false, false⟩ 0
      (.listing { entries := #[⟨⟨"f", "a"⟩, 1⟩, ⟨⟨"f", "b"⟩, 1⟩] })⟩,
    ⟨3, .listing { entries := #[⟨⟨"f", "a"⟩, 1⟩, ⟨⟨"f", "b"⟩, 1⟩] }⟩]

theorem advance_divides_members_at_failed_move :
    ∃ q s g q', ofSources (numbered dividedSources) = .ok q ∧ Session.run [.pop] { queue := q } = .ok s ∧
      s.outstanding[0]? = some g ∧ s.queue.advance g = .failed q' (.dataSource "moving") ∧
      numbers q'.heap.toList = [0] ∧ numbers q'.closed = [1] ∧ numbers q'.retired = [2, 3] ∧
      ∀ (rs' : List (Request (Numbered SegmentCursor))) s', (∀ r ∈ rs', r.Keeps Numbered.number) →
        Session.run rs' (s.handBack 0 q') = .ok s' →
          ∀ g', s'.queue.pop.1 = some g' → List.Disjoint [2, 3] (numbers g'.members) := by
  obtain ⟨q, hq⟩ : ∃ q, ofSources (numbered dividedSources) = .ok q := ofSources_eq_ok rfl
  have hrun : ((ofSources (numbered dividedSources)).toOption.bind fun q =>
      (Session.run [.pop] { queue := q }).toOption.bind fun s => s.outstanding[0]?.bind fun g =>
        (s.queue.advance g).failed?.map fun r =>
          ((g.members.findIdx failsToMove, numbers (g.members.drop 2)), r.2.dataSource?,
            numbers r.1.heap.toList, numbers r.1.closed, numbers r.1.retired)) =
      some ((2, [2, 3]), some "moving", [0], [1], [2, 3]) := by
    decide +kernel
  rw [hq] at hrun
  simp only [Except.toOption, Option.bind_some, Option.bind_eq_some_iff, Option.map_eq_some_iff, Prod.exists,
    Prod.mk.injEq, Outcome.failed?_eq_some_iff, Error.dataSource?_eq_some_iff] at hrun
  obtain ⟨s, hs, g, hg, q', e, hfailed, ⟨hk, hleft⟩, rfl, hheap, hclosed, hretired⟩ := hrun
  have hs : Session.run [.pop] { queue := q } = .ok s := toOption_eq_some_iff.mp hs
  refine ⟨q, s, g, q', hq, hs, hg, hfailed, hheap, hclosed, hretired, ?_⟩
  rcases advance_divides_members hq (by simp [Request.Keeps]) hs hg hk.symm with
    ⟨m, -, x, -, hx⟩ | ⟨q₁, kept, -, hending, -, hlater⟩
  · rw [hfailed] at hx
    cases hx
  · rw [hfailed] at hending
    obtain rfl := Except.ok.inj hending.after
    rw [hleft] at hlater
    exact fun rs' s' hrs' hs' => (hlater rs' s' hrs' hs').2

end Numbers

end InvertedIndex.MergeQueue
