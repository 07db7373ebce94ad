import InvertedIndex.Proofs.Merge.Closing
import InvertedIndex.Proofs.Merge.Listed

namespace InvertedIndex

class MovableCursor (C : Type) [TermCursor C] : Prop where
  next_ne_fault {c : C} (x : Fault) : TermCursor.term? c ≠ none → TermCursor.next c ≠ .fault x

instance {C : Type} [TermCursor C] [ListedCursor C] : MovableCursor C where
  next_ne_fault {c} x h := by
    have hne : ListedCursor.entries c ≠ [] := fun hnil => h (by rw [ListedCursor.term?_eq, hnil]; rfl)
    obtain ⟨c', hc, -⟩ := ListedCursor.next_done hne
    rw [hc]
    nofun

namespace SegmentCursor

lemma next_ne_fault (c : SegmentCursor) (x : Fault) (h : c.term? ≠ none) : c.next ≠ .fault x := by
  induction c with
  | dictionary c => exact mt Outcome.mapState_eq_fault (MovableCursor.next_ne_fault (C := DictionaryCursor) x h)
  | listing c => exact mt Outcome.mapState_eq_fault (MovableCursor.next_ne_fault (C := ListingCursor) x h)
  | scripted script calls inner ih =>
    rw [next]
    cases script.outages calls with
    | some e => nofun
    | none => exact fun hx => ih h (Outcome.mapState_eq_fault (Outcome.map_eq_fault hx))

instance : MovableCursor SegmentCursor where
  next_ne_fault {c} x h := c.next_ne_fault x h

end SegmentCursor

namespace MergeQueue

open Heap MergeSource

variable {C : Type} [TermCursor C]

def Request.leavesMembers : Request C → Bool
  | .move .. => false
  | .handle .. => false
  | _ => true

omit [TermCursor C] in
lemma Request.keeps_of_leavesMembers {r : Request C} (h : r.leavesMembers = true) (tag : C → Nat) : r.Keeps tag := by
  cases r with
  | handle i change => cases h
  | _ => trivial

namespace Session

def IsInPlace (s : Session C) : Prop := ∀ g ∈ s.outstanding, ∀ m ∈ g.members, m.term? = some g.term

variable {s s' : Session C} {r : Request C} {rs : List (Request C)} {tag : C → Nat} {total : Nat → Nat}

lemma IsInPlace.handBack (h : s.IsInPlace) (i : Nat) (q : MergeQueue C) : (s.handBack i q).IsInPlace :=
  fun g hg => h g (List.mem_of_mem_eraseIdx hg)

lemma step_isInPlace (hs : s.queue.IsSound) (hr : r.leavesMembers = true) (h : s.IsInPlace)
    (hstep : step r s = .ok s') : s'.IsInPlace := by
  cases step_steps hstep with
  | pop =>
    rcases pop_taken hs with ⟨-, hpop⟩ | ⟨g, heap, hpop, -, ht⟩
    · rwa [afterPop_of_none hpop]
    · rw [afterPop_of_some hpop]
      exact List.forall_mem_append.mpr ⟨h, List.forall_mem_singleton.mpr ht.onTerm⟩
  | nothing r => exact h
  | @advance g q i es hi ha => exact h.handBack i q
  | @abandon g i hi => exact h.handBack i (s.queue.abandon g)
  | discard i hi => exact h.handBack i s.queue
  | move i es hi hm => cases hr
  | handle i change hi => cases hr
  | close es => exact h

lemma run_succeeds [MovableCursor C] (ht : IsKept tag) (ha : s.IsAccounted tag total) (h : s.IsInPlace)
    (hrs : ∀ r ∈ rs, r.leavesMembers = true) : ∃ s', run rs s = .ok s' ∧ s'.IsAccounted tag total := by
  induction rs generalizing s with
  | nil => exact ⟨s, rfl, ha⟩
  | cons r rs ih =>
    rw [List.forall_mem_cons] at hrs
    have hyields := step_accounts ht ha (Request.keeps_of_leavesMembers hrs.1 tag)
    rw [run]
    cases hr : step r s with
    | ok s₁ =>
      rw [hr] at hyields
      exact ih hyields (step_isInPlace ha.sound hrs.1 h hr) hrs.2
    | error x =>
      rw [hr] at hyields
      obtain ⟨g, hg, m, hm, hx⟩ := hyields
      have hterm : TermCursor.term? m.cursor = some g.term := h g hg m hm
      exact absurd hx (MovableCursor.next_ne_fault x (hterm ▸ Option.some_ne_none _))

end Session

variable {q : MergeQueue C} {sources : List (MergeSource C)}

lemma capacity_ofSources (h : ofSources sources = .ok q) :
    q.heap.capacity = (sources.filter (·.term?.isSome)).length := by
  rw [ofSources] at h
  split at h
  · obtain rfl := Except.ok.inj h
    exact (ofArray_capacity _ _).trans List.size_toArray
  · cases h

lemma peekTerm?_eq_none_iff (h : IsQueued q.heap) : q.peekTerm? = none ↔ q.isEmpty = true := by
  rw [peekTerm?, Option.bind_eq_none_iff, isEmpty, Heap.isEmpty_iff]
  constructor
  · intro hnone
    refine peek?_eq_none_iff.mp (Option.eq_none_iff_forall_not_mem.mpr fun front hf => ?_)
    exact h.onTerm front (List.mem_of_mem_head? (peek?_eq q.heap ▸ hf)) (hnone front hf)
  · intro hnil front hf
    rw [peek?_eq_none_iff.mpr hnil] at hf
    cases hf

lemma peekTerm?_eq_some_iff (h : IsQueued q.heap) {t : Term} : q.peekTerm? = some t ↔
    (∃ m ∈ q.heap.toList, m.term? = some t) ∧
      ∀ m ∈ q.heap.toList, ∀ u, m.term? = some u → (compare t u).isLE = true := by
  rw [peekTerm?, Option.bind_eq_some_iff]
  constructor
  · rintro ⟨front, hf, ht⟩
    have hmem := List.mem_of_mem_head? (peek?_eq q.heap ▸ hf)
    exact ⟨⟨front, hmem, ht⟩, fun m hm u => h.front_isLE hf ht hm⟩
  · rintro ⟨⟨m, hm, ht⟩, hleast⟩
    obtain ⟨front, hf⟩ : ∃ front, q.heap.peek? = some front := by
      refine Option.ne_none_iff_exists'.mp fun hnone => ?_
      rw [peek?_eq_none_iff.mp hnone] at hm
      cases hm
    have hmem := List.mem_of_mem_head? (peek?_eq q.heap ▸ hf)
    obtain ⟨u, hu⟩ := h.exists_term hmem
    have hle := hleast front hmem u hu
    have hge := h.front_isLE hf hu hm ht
    obtain rfl := Std.LawfulEqCmp.eq_of_compare (Std.OrientedCmp.isLE_antisymm hle hge)
    exact ⟨front, hf, hu⟩

/-- Whatever is done with a queue and its groups, nothing of it is a fault, so that there is room for every source that
comes back: the queue is in order, every source in it is on a term, and the term in front is the least one. -/
theorem queue_keeps_order_and_room [MovableCursor C] (hq : ofSources sources = .ok q) (rs : List (Request C))
    (hrs : ∀ r ∈ rs, r.leavesMembers = true) :
    ∃ s, Session.run rs { queue := q } = .ok s ∧ s.queue.isHeap = true ∧
      (∀ m ∈ s.queue.heap.toList, m.term? ≠ none) ∧
      (∀ t, s.queue.peekTerm? = some t ↔ (∃ m ∈ s.queue.heap.toList, m.term? = some t) ∧
        ∀ m ∈ s.queue.heap.toList, ∀ u, m.term? = some u → (compare t u).isLE = true) ∧
      (s.queue.peekTerm? = none ↔ s.queue.isEmpty = true) ∧
      s.queue.size + ((s.outstanding ++ s.discarded).flatMap TermGroup.members).length ≤ s.queue.heap.capacity ∧
      s.queue.heap.capacity = (sources.filter (·.term?.isSome)).length := by
  -- The numbers of the sources do not matter here, so that all of them may have the same one.
  have hkept : IsKept fun _ : C => 0 := fun _ _ _ => rfl
  have hstart : Session.IsAccounted (fun _ : C => 0) (tally _ · sources) { queue := q } := accounts_ofSources hq
  obtain ⟨s, hs, ha⟩ := Session.run_succeeds hkept hstart nofun hrs
  have hqueued := ha.sound.queued
  refine ⟨s, hs, isHeap_iff.mpr hqueued.ordered, hqueued.onTerm, fun t => peekTerm?_eq_some_iff hqueued,
    peekTerm?_eq_none_iff hqueued, ha.fits, ?_⟩
  rw [(Session.run_follows hstart.sound hs).capacity, capacity_ofSources hq]

def contrarySources : List (MergeSource SegmentCursor) :=
  -- The second cursor goes back to an earlier term and never claims to be at its end.
  [⟨0, .scripted ⟨"0", Outages.ofCalls [0] (.dataSource "moving"), none, false, false⟩ 0
      (.listing { entries := #[⟨⟨"f", "a"⟩, 1⟩, ⟨⟨"f", "c"⟩, 1⟩] })⟩,
    ⟨1, .scripted ⟨"1", Outages.none, some (.dataSource "closing"), true, false⟩ 0
      (.listing { entries := #[⟨⟨"f", "b"⟩, 1⟩, ⟨⟨"f", "a"⟩, 1⟩, ⟨⟨"f", "a"⟩, 1⟩] })⟩,
    ⟨2, .listing { entries := #[] }⟩]

theorem queue_keeps_order_of_contrary_sources :
    ∃ q s, ofSources contrarySources = .ok q ∧
      Session.run [.pop, .pop, .advance 1, .advance 0, .pop, .advance 0] { queue := q } = .ok s ∧
      s.queue.isHeap = true ∧ s.queue.size = 1 ∧ s.queue.heap.capacity = 2 ∧
      s.queue.peekTerm? = some ⟨"f", "a"⟩ ∧
      ∀ m ∈ s.queue.heap.toList, ∀ u, m.term? = some u → (compare (⟨"f", "a"⟩ : Term) u).isLE = true := by
  obtain ⟨q, hq⟩ : ∃ q, ofSources contrarySources = .ok q := ofSources_eq_ok rfl
  obtain ⟨s, hs, hheap, -, hpeek, -, -, hcapacity⟩ := queue_keeps_order_and_room hq
    [.pop, .pop, .advance 1, .advance 0, .pop, .advance 0] (by decide)
  have hrun : ((ofSources contrarySources).toOption.bind fun q =>
      (Session.run [.pop, .pop, .advance 1, .advance 0, .pop, .advance 0] { queue := q }).toOption.map fun s =>
        (s.queue.size, s.queue.peekTerm?)) = some (1, some ⟨"f", "a"⟩) := by
    decide +kernel
  rw [hq] at hrun
  simp only [Except.toOption, Option.bind_some, hs, Option.map_some, Option.some.injEq, Prod.mk.injEq] at hrun
  obtain ⟨hsize, hterm⟩ := hrun
  exact ⟨q, s, hq, hs, hheap, hsize, hcapacity.trans (by decide +kernel), hterm, ((hpeek _).mp hterm).2⟩

end MergeQueue

end InvertedIndex
