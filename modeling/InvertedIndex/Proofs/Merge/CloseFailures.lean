import InvertedIndex.DictionaryMerge
import InvertedIndex.Proofs.Count
import InvertedIndex.Proofs.Merge.Advance
import InvertedIndex.SegmentCursor

namespace InvertedIndex

class BoundedCursor (C : Type) [TermCursor C] : Prop where
  bound_pos {c : C} : TermCursor.term? c ≠ none → 0 < TermCursor.bound c
  bound_lt {c c' : C} {more : Bool} : TermCursor.next c = .done c' more → TermCursor.term? c' ≠ none →
    TermCursor.bound c' < TermCursor.bound c

lemma position_lt_of_term {entries : Array TermEntry} {i : Nat} (h : entries[i]?.map TermEntry.term ≠ none) :
    i < entries.size := by
  by_contra hge
  rw [Array.getElem?_eq_none (Nat.le_of_not_lt hge)] at h
  exact h rfl

instance : BoundedCursor DictionaryCursor where
  bound_pos {c} h := Nat.sub_pos_of_lt (position_lt_of_term h)
  bound_lt {c c' more} hm h := by
    have hlt : c.position < c.entries.size := by
      by_contra hge
      rw [show TermCursor.next c = c.next from rfl, DictionaryCursor.next, if_neg hge] at hm
      cases hm
    rw [show TermCursor.next c = c.next from rfl, DictionaryCursor.next, if_pos hlt] at hm
    obtain ⟨rfl, -⟩ := Outcome.done.inj hm
    exact Nat.sub_lt_sub_left hlt (Nat.lt_succ_self _)

instance : BoundedCursor ListingCursor where
  bound_pos {c} h := Nat.sub_pos_of_lt (position_lt_of_term h)
  bound_lt {c c' more} hm h := by
    obtain ⟨rfl, -⟩ := Outcome.done.inj hm
    have hlt : c.position + 1 < c.entries.size := position_lt_of_term h
    exact Nat.sub_lt_sub_left (Nat.lt_of_succ_lt hlt) (Nat.lt_succ_self _)

namespace SegmentCursor

lemma bound_pos {c : SegmentCursor} (h : c.term? ≠ none) : 0 < c.bound := by
  induction c with
  | dictionary c => exact BoundedCursor.bound_pos (C := DictionaryCursor) h
  | listing c => exact BoundedCursor.bound_pos (C := ListingCursor) h
  | scripted script calls inner ih => exact ih h

lemma bound_lt {c c' : SegmentCursor} {more : Bool} (hm : c.next = .done c' more) (h : c'.term? ≠ none) :
    c'.bound < c.bound := by
  induction c generalizing c' more with
  | dictionary c =>
    obtain ⟨d, hd, rfl⟩ := Outcome.mapState_eq_done hm
    exact BoundedCursor.bound_lt hd h
  | listing c =>
    obtain ⟨d, hd, rfl⟩ := Outcome.mapState_eq_done hm
    exact BoundedCursor.bound_lt hd h
  | scripted script calls inner ih =>
    rw [next] at hm
    split at hm
    · cases hm
    · obtain ⟨more', hstate, -⟩ := Outcome.map_eq_done hm
      obtain ⟨d, hd, rfl⟩ := Outcome.mapState_eq_done hstate
      have hlt : d.bound < inner.bound := ih hd h
      exact hlt

instance : BoundedCursor SegmentCursor where
  bound_pos := bound_pos
  bound_lt := bound_lt

end SegmentCursor

namespace MergeSource

variable {C : Type} [TermCursor C]

def bounds (sources : List (MergeSource C)) : Nat := Count.total (sources.map fun s => TermCursor.bound s.cursor)

lemma bounds_append (sources others : List (MergeSource C)) :
    bounds (sources ++ others) = bounds sources + bounds others := by
  rw [bounds, List.map_append, Count.total_append]
  rfl

lemma bounds_cons (s : MergeSource C) (sources : List (MergeSource C)) :
    bounds (s :: sources) = TermCursor.bound s.cursor + bounds sources := rfl

lemma bounds_perm {sources others : List (MergeSource C)} (h : sources.Perm others) : bounds sources = bounds others :=
  Count.total_perm (h.map _)

variable [BoundedCursor C]

lemma bounds_requeued_lt {s : MergeSource C} (h : s.term? ≠ none) : bounds s.requeued < TermCursor.bound s.cursor := by
  have hpos : 0 < TermCursor.bound s.cursor := BoundedCursor.bound_pos h
  rw [requeued]
  split
  · next c more hm =>
    split
    · next hmore =>
      rw [Bool.and_eq_true] at hmore
      exact BoundedCursor.bound_lt hm (Option.isSome_iff_ne_none.mp hmore.2)
    · exact hpos
  · exact hpos

lemma bounds_flatMap_requeued {members : List (MergeSource C)} (h : ∀ s ∈ members, s.term? ≠ none) :
    bounds (members.flatMap requeued) + members.length ≤ bounds members := by
  induction members with
  | nil => exact Nat.le_refl 0
  | cons s members ih =>
    have hs := bounds_requeued_lt (h s List.mem_cons_self)
    have hrest := ih fun m hm => h m (List.mem_cons_of_mem s hm)
    rw [List.flatMap_cons, bounds_append, List.length_cons, bounds_cons]
    omega

end MergeSource

namespace MergeQueue

open MergeSource

variable {C σ : Type} [TermCursor C] {visit : MergeQueue C → TermGroup C → σ → Outcome σ Unit}

inductive Drains (visit : MergeQueue C → TermGroup C → σ → Outcome σ Unit) :
    MergeQueue C → σ → List Error → MergeQueue C → σ → Prop
  | emptied {q q' : MergeQueue C} {s : σ} : q.pop = (none, q') → Drains visit q s [] q' s
  | round {q q₁ q₂ q' : MergeQueue C} {g : TermGroup C} {s s₁ s' : σ} {errors : List Error} :
    q.pop = (some g, q₁) → visit q₁ g s = .done s₁ () → q₁.advanceMembers g.members = .done q₂ [] →
    Drains visit q₂ s₁ errors q' s' → Drains visit q s errors q' s'
  | stopped {q q₁ q₂ : MergeQueue C} {g : TermGroup C} {s s₁ : σ} {e : Error} {es : List Error} :
    q.pop = (some g, q₁) → visit q₁ g s = .done s₁ () → q₁.advanceMembers g.members = .done q₂ (e :: es) →
    Drains visit q s (e :: es) q₂ s₁

variable {q q₁ q₂ q' : MergeQueue C} {g : TermGroup C} {s s' : σ} {errors : List Error}

lemma eq_of_pop_none (hq : q.IsSound) (h : q.pop = (none, q')) : q' = q ∧ q.heap.toList = [] := by
  rcases pop_taken hq with ⟨hnil, hnone⟩ | ⟨g, heap, hsome, -⟩
  · exact ⟨(Prod.mk.inj (h.symm.trans hnone)).2, hnil⟩
  · rw [h] at hsome
    cases hsome

lemma exists_taken_advanced (hq : q.IsSound) (hpop : q.pop = (some g, q₁))
    (ha : q₁.advanceMembers g.members = .done q₂ errors) :
    ∃ heap, g.members ≠ [] ∧ Taken g.term q.heap g.members heap ∧
      Advanced { q with heap := heap } g.members q₂ ∧ errors = closeErrors (g.members.flatMap finished) := by
  rcases pop_taken hq with ⟨-, hnone⟩ | ⟨g', heap, hsome, hne, ht⟩
  · rw [hpop] at hnone
    cases hnone
  · obtain ⟨hg, rfl⟩ := Prod.mk.inj (hpop.symm.trans hsome)
    obtain rfl := Option.some.inj hg
    have hres := advanceMembers_result g.members { q with heap := heap } ht.room
    rw [ha] at hres
    exact ⟨heap, hne, ht, hres.2⟩

structure Passed (q q' : MergeQueue C) (errors : List Error) : Prop where
  sound : q'.IsSound
  retired : q'.retired = q.retired
  closed : closeErrors q'.closed = closeErrors q.closed ++ errors

lemma passed_of_advance (hq : q.IsSound) (hpop : q.pop = (some g, q₁))
    (ha : q₁.advanceMembers g.members = .done q₂ errors) : Passed q q₂ errors := by
  obtain ⟨heap, -, ht, hadvanced, rfl⟩ := exists_taken_advanced hq hpop ha
  exact ⟨hadvanced.sound (ht.sound hq), hadvanced.retired, by rw [hadvanced.closed, closeErrors_append]⟩

lemma bounds_lt_of_advance [BoundedCursor C] (hq : q.IsSound) (hpop : q.pop = (some g, q₁))
    (ha : q₁.advanceMembers g.members = .done q₂ errors) : bounds q₂.heap.toList < bounds q.heap.toList := by
  obtain ⟨heap, hne, ht, hadvanced, -⟩ := exists_taken_advanced hq hpop ha
  have hmembers : bounds (g.members.flatMap requeued) + g.members.length ≤ bounds g.members :=
    bounds_flatMap_requeued fun s hs => by simp [ht.onTerm s hs]
  have hlength := List.length_pos_iff.mpr hne
  rw [bounds_perm hadvanced.perm, ← bounds_perm ht.perm, bounds_append, bounds_append]
  change bounds heap.toList + _ < _
  omega

namespace Drains

lemma closeErrors_closed (h : Drains visit q s errors q' s') (hq : q.IsSound) :
    closeErrors q'.closed = closeErrors q.closed ++ errors := by
  induction h with
  | emptied hpop =>
    obtain ⟨rfl, -⟩ := eq_of_pop_none hq hpop
    exact (List.append_nil _).symm
  | round hpop _ ha _ ih =>
    have hpassed := passed_of_advance hq hpop ha
    rw [ih hpassed.sound, hpassed.closed, List.append_nil]
  | stopped hpop _ ha => exact (passed_of_advance hq hpop ha).closed

lemma held_eq_retired (h : Drains visit q s [] q' s') (hq : q.IsSound) : q'.held = q.retired := by
  generalize hnone : ([] : List Error) = errors at h
  induction h with
  | emptied hpop =>
    obtain ⟨rfl, hnil⟩ := eq_of_pop_none hq hpop
    rw [held, hnil, List.nil_append]
  | round hpop _ ha _ ih =>
    have hpassed := passed_of_advance hq hpop ha
    exact (ih hpassed.sound hnone).trans hpassed.retired
  | stopped => cases hnone

lemma drainWithin_eq [BoundedCursor C] (h : Drains visit q s errors q' s') (hq : q.IsSound) {limit : Nat}
    (hlimit : bounds q.heap.toList ≤ limit) : drainWithin visit (limit + 1) q s =
      (Error.joint? errors).elim (.done (q', s') ()) (.failed (q', s')) := by
  induction h generalizing limit with
  | emptied hpop =>
    rw [drainWithin, hpop]
    rfl
  | round hpop hv ha _ ih =>
    have hlt := bounds_lt_of_advance hq hpop ha
    obtain ⟨limit, rfl⟩ := Nat.exists_eq_add_one_of_ne_zero (Nat.ne_zero_of_lt (Nat.lt_of_lt_of_le hlt hlimit))
    rw [drainWithin, hpop]
    simp only [hv, advance_of_done (hq.of_pop hpop) ha]
    exact ih (passed_of_advance hq hpop ha).sound (by omega)
  | stopped hpop hv ha =>
    rw [drainWithin, hpop]
    simp only [hv, advance_of_done (hq.of_pop hpop) ha]
    rfl

lemma drain_eq [BoundedCursor C] (h : Drains visit q s errors q' s') (hq : q.IsSound) :
    drain visit q s = (Error.joint? errors).elim (.done (q', s') ()) (.failed (q', s')) :=
  h.drainWithin_eq hq (Nat.le_refl _)

end Drains

end MergeQueue

namespace DictionaryMerge

open MergeQueue MergeSource

variable {C W : Type} [TermCursor C] [DictionaryWriter W] {q q' : MergeQueue C} {p : Progress W}

lemma closeErrors_ofSources {sources : List (MergeSource C)} (h : ofSources sources = .ok q) :
    closeErrors q.closed = [] := by
  cases hc : closeErrors (sources.filter (·.term?.isNone)) with
  | nil =>
    rw [ofSources, hc] at h
    exact Except.ok.inj h ▸ hc
  | cons e es =>
    rw [ofSources, hc] at h
    cases h

/-- If nothing but closing fails, a merge succeeds exactly if all cursors can be closed. Otherwise it reports the errors
of one group jointly, and none of the errors of the cursors that were left to be closed afterwards. -/
theorem merge_reports_close_failures_of_group [BoundedCursor C] {settings : MergeSettings}
    {sources : List (MergeSource C)} {w : W} {errors : List Error} (hq : ofSources sources = .ok q)
    (h : Drains (fun _ => visit settings) q ⟨w, { sources := q.sourceCount }, none⟩ errors q' p) :
    closeErrors q'.release.closed = errors ++ closeErrors q'.held ∧
      (errors = [] ∧ q'.held = [] ∧ merge settings q w = .done (q'.release, p.writer) p.statistics ∨
        ∃ e es, errors = e :: es ∧ merge settings q w = .failed (q'.release, p.writer) (Error.joint e es)) := by
  obtain ⟨hsound, -, hretired, -⟩ := ofSources_spec hq
  refine ⟨?_, ?_⟩
  · rw [release, closeErrors_append, h.closeErrors_closed hsound, closeErrors_ofSources hq, List.nil_append]
  · rw [merge, h.drain_eq hsound]
    cases errors with
    | nil =>
      have hheld := (h.held_eq_retired hsound).trans hretired
      refine Or.inl ⟨rfl, hheld, ?_⟩
      simp only [Error.joint?, Option.elim_none, close, hheld]
      rfl
    | cons e es => exact Or.inr ⟨e, es, rfl, rfl⟩

section Runs

variable {σ : Type} {visit : MergeQueue C → TermGroup C → σ → Outcome σ Unit}

def firstPass (visit : MergeQueue C → TermGroup C → σ → Outcome σ Unit) (q : MergeQueue C) (s : σ) :
    Option ((MergeQueue C × List Error) × σ) :=
  q.pop.1.bind fun g => (visit q.pop.2 g s).done?.bind fun r =>
    (q.pop.2.advanceMembers g.members).done?.map (·, r.1)

lemma drains_of_firstPass {s s₁ : σ} {e : Error} {es : List Error}
    (h : firstPass visit q s = some ((q', e :: es), s₁)) : Drains visit q s (e :: es) q' s₁ := by
  simp only [firstPass, Option.bind_eq_some_iff, Option.map_eq_some_iff, Prod.exists, Prod.mk.injEq] at h
  obtain ⟨g, hg, s', u, hv, q₂, errors, ha, ⟨rfl, rfl⟩, rfl⟩ := h
  exact .stopped (Prod.ext hg rfl) (Outcome.done?_eq_some_iff.mp hv) (Outcome.done?_eq_some_iff.mp ha)

end Runs

def unclosable (origin : UInt64) (text : String) (failure : String) : MergeSource SegmentCursor :=
  ⟨origin, .scripted ⟨text, Outages.none, some (.dataSource failure), false, false⟩ 0
    (.listing { entries := #[⟨⟨"f", text⟩, 1⟩] })⟩

theorem merge_reports_failures_on_shared_term :
    ∃ (q q' : MergeQueue SegmentCursor) (d : Dictionary),
      ofSources [unclosable 0 "a" "first", unclosable 1 "a" "second"] = .ok q ∧
      merge {} q ({} : Dictionary) = .failed (q', d) (.close [.dataSource "first", .dataSource "second"]) ∧
      closeErrors q'.closed = [.dataSource "first", .dataSource "second"] := by
  obtain ⟨sources, hsources⟩ : ∃ sources, sources = [unclosable 0 "a" "first", unclosable 1 "a" "second"] := ⟨_, rfl⟩
  obtain ⟨q, hq⟩ : ∃ q, ofSources sources = .ok q := ofSources_eq_ok (hsources ▸ rfl)
  have hpass : ((ofSources sources).toOption.bind fun q =>
      (firstPass (fun _ => visit {}) q ⟨({} : Dictionary), { sources := q.sourceCount }, none⟩).map fun r =>
        (r.1.2.map Error.dataSource?, r.1.1.held.length)) = some (["first", "second"].map some, 0) := by
    rw [hsources]
    decide +kernel
  rw [hq] at hpass
  simp only [Except.toOption, Option.bind_some, Option.map_eq_some_iff, Prod.exists, Prod.mk.injEq,
    Error.map_dataSource?_eq_iff, List.length_eq_zero_iff] at hpass
  obtain ⟨q', errors, p, hpass, rfl, hheld⟩ := hpass
  obtain ⟨hclosed, ⟨hnil, -⟩ | ⟨e, es, heq, hmerge⟩⟩ :=
    merge_reports_close_failures_of_group hq (drains_of_firstPass hpass)
  · cases hnil
  · cases heq
    rw [hheld, closeErrors_nil, List.append_nil] at hclosed
    exact ⟨q, q'.release, p.writer, hsources ▸ hq, hmerge, hclosed⟩

/-- Two cursors on terms of their own. The second one is closed after the merge has stopped. -/
theorem merge_drops_close_failure :
    ∃ (q q₁ q' : MergeQueue SegmentCursor) (p : Progress Dictionary) (d : Dictionary),
      ofSources [unclosable 0 "a" "first", unclosable 1 "b" "second"] = .ok q ∧
      Drains (fun _ => visit {}) q ⟨{}, { sources := q.sourceCount }, none⟩ [.dataSource "first"] q₁ p ∧
      merge {} q ({} : Dictionary) = .failed (q', d) (.dataSource "first") ∧
      closeErrors q'.closed = [.dataSource "first", .dataSource "second"] := by
  obtain ⟨sources, hsources⟩ : ∃ sources, sources = [unclosable 0 "a" "first", unclosable 1 "b" "second"] := ⟨_, rfl⟩
  obtain ⟨q, hq⟩ : ∃ q, ofSources sources = .ok q := ofSources_eq_ok (hsources ▸ rfl)
  have hrun : ((ofSources sources).toOption.bind fun q =>
      (firstPass (fun _ => visit {}) q ⟨({} : Dictionary), { sources := q.sourceCount }, none⟩).bind fun r =>
        (merge {} q ({} : Dictionary)).failed?.map fun r' =>
          (r.1.2.map Error.dataSource?, r'.2.dataSource?, (closeErrors r'.1.1.closed).map Error.dataSource?)) =
      some (["first"].map some, some "first", ["first", "second"].map some) := by
    rw [hsources]
    decide +kernel
  rw [hq] at hrun
  simp only [Except.toOption, Option.bind_some, Option.bind_eq_some_iff, Option.map_eq_some_iff, Prod.exists,
    Prod.mk.injEq, Error.map_dataSource?_eq_iff, Error.dataSource?_eq_some_iff, Outcome.failed?_eq_some_iff] at hrun
  obtain ⟨q₁, errors, p, hpass, q', d, e, hmerge, rfl, rfl, hclosed⟩ := hrun
  exact ⟨q, q₁, q', p, d, hsources ▸ hq, drains_of_firstPass hpass, hmerge, hclosed⟩

end DictionaryMerge

end InvertedIndex
