import InvertedIndex.Proofs.Count
import InvertedIndex.Proofs.Merge.Closing
import InvertedIndex.SegmentCursor

namespace InvertedIndex.MergeQueue

open Heap MergeSource

variable {C : Type} [TermCursor C] {sources : List (MergeSource C)} {q : MergeQueue C} {s : Session C}
  {rs : List (Request C)}

/-- Whatever has been done with a queue, popping takes the sources on the least term, ordered by origin, and leaves all
of the other ones in order. The list that it adds them to is empty. If each source has a tag of its own, then no source
is in two places: none that has been put aside or is in the hands of the caller comes up in the group. -/
theorem pop_takes_least_term (hq : ofSources sources = .ok q) (hs : Session.run rs { queue := q } = .ok s) :
    s.queue.spare = [] ∧ s.queue.pop.2.spare = [] ∧ (s.queue.pop.1 = none ↔ s.queue.isEmpty = true) ∧
      (s.queue.pop.1 = none → s.queue.pop.2 = s.queue) ∧
      ∀ g, s.queue.pop.1 = some g →
        (∃ m ∈ s.queue.heap.toList, m.term? = some g.term) ∧
        (∀ m ∈ s.queue.heap.toList, ∀ t, m.term? = some t → (compare g.term t).isLE = true) ∧
        g.members.Perm (s.queue.heap.toList.filter (·.term? == some g.term)) ∧
        g.members.Pairwise (fun a b => a.origin ≤ b.origin) ∧
        (∀ m ∈ g.members, m.term? = some g.term) ∧
        (∀ n, g.docFreq = .ok n ↔ n.toNat = Count.total (g.members.map fun m => m.docFreq.toNat)) ∧
        s.queue.pop.2.heap.toList.Perm (s.queue.heap.toList.filter (·.term? != some g.term)) ∧
        s.queue.pop.2.isHeap = true ∧ s.queue.pop.2.aside = s.queue.aside ∧
        ∀ tag : C → Nat, IsKept tag → (∀ r ∈ rs, r.Keeps tag) → (tags tag sources).Nodup →
          (tags tag (g.members ++ s.queue.pop.2.sources ++
            (s.outstanding ++ s.discarded).flatMap TermGroup.members)).Nodup := by
  have hsound : s.queue.IsSound := (Session.run_follows (ofSources_spec hq).1 hs).sound
  refine ⟨hsound.spare, (hsound.of_pop rfl).spare, ?_⟩
  rcases pop_taken hsound with ⟨hnil, hpop⟩ | ⟨g, heap, hpop, hne, ht⟩
  · rw [hpop]
    exact ⟨⟨fun _ => Heap.isEmpty_iff.mpr hnil, fun _ => rfl⟩, fun _ => rfl, nofun⟩
  · have hnonempty : s.queue.isEmpty ≠ true := by
      rw [isEmpty, ne_eq, Heap.isEmpty_iff]
      rintro hnil
      exact hne (List.append_eq_nil_iff.mp (ht.perm.trans (.of_eq hnil)).eq_nil).1
    rw [hpop]
    refine ⟨⟨nofun, fun h => absurd h hnonempty⟩, nofun, ?_⟩
    rintro g ⟨⟩
    obtain ⟨m, hm⟩ := List.exists_mem_of_ne_nil _ hne
    refine ⟨⟨m, ht.perm.subset (List.mem_append_left _ hm), ht.onTerm m hm⟩, fun m hm t => ht.isLE hm, ht.taken_perm,
      ht.ascending, ht.onTerm, fun n => ?_, ht.others_perm, isHeap_iff.mpr ht.queued.ordered, rfl, ?_⟩
    · rw [TermGroup.docFreq, Count.sum, List.map_map]
      exact Count.ofNat_eq_ok_iff
    · intro tag htag hk hnodup
      have hstart : Session.IsAccounted tag (tally tag · sources) { queue := q } := accounts_ofSources hq
      have hpopped := (hstart.run htag hk hs).pop.nodup_tags (nodup_tags_iff.mp hnodup)
      rw [hpop] at hpopped
      rw [nodup_tags_iff] at hpopped ⊢
      intro n
      have hn := hpopped n
      simp only [Option.toList_some, List.flatMap_append, List.flatMap_singleton, tally_append] at hn ⊢
      omega

def contendingSources : List (MergeSource ListingCursor) :=
  [⟨0, { entries := #[⟨⟨"f", "a"⟩, 1⟩, ⟨⟨"f", "b"⟩, 4⟩] }⟩, ⟨2, { entries := #[⟨⟨"f", "b"⟩, 3⟩, ⟨⟨"f", "c"⟩, 5⟩] }⟩,
    ⟨1, { entries := #[⟨⟨"f", "b"⟩, 1⟩, ⟨⟨"f", "b"⟩, 2⟩] }⟩, ⟨1, { entries := #[⟨⟨"f", "b"⟩, 7⟩, ⟨⟨"f", "b"⟩, 8⟩] }⟩]

theorem pop_takes_contended_term :
    ∃ q s g, ofSources contendingSources = .ok q ∧
      Session.run [.pop, .pop, .advance 0, .pop, .advance 0] { queue := q } = .ok s ∧ s.queue.pop.1 = some g ∧
      s.queue.spare = [] ∧ g.term = ⟨"f", "b"⟩ ∧ g.origins = [1, 1] ∧ g.docFreq = .ok 10 ∧
      s.outstanding.map TermGroup.term = [⟨"f", "b"⟩] ∧
      g.members.Perm (s.queue.heap.toList.filter (·.term? == some ⟨"f", "b"⟩)) ∧
      s.queue.pop.2.isHeap = true ∧ s.queue.pop.2.peekTerm? = some ⟨"f", "c"⟩ := by
  obtain ⟨q, hq⟩ : ∃ q, ofSources contendingSources = .ok q := ofSources_eq_ok rfl
  have hrun : ((ofSources contendingSources).toOption.bind fun q =>
      (Session.run [.pop, .pop, .advance 0, .pop, .advance 0] { queue := q }).toOption.bind fun s =>
        s.queue.pop.1.map fun g =>
          ((g.term, g.origins, Count.total (g.members.map fun m => m.docFreq.toNat)),
            s.outstanding.map TermGroup.term, s.queue.pop.2.peekTerm?)) =
      some ((⟨"f", "b"⟩, [1, 1], 10), [⟨"f", "b"⟩], some ⟨"f", "c"⟩) := by
    decide +kernel
  rw [hq] at hrun
  simp only [Except.toOption, Option.bind_some, Option.bind_eq_some_iff, Option.map_eq_some_iff,
    Prod.mk.injEq] at hrun
  obtain ⟨s, hs, g, hg, ⟨hterm, horigins, htotal⟩, hhand, hpeek⟩ := hrun
  have hs : Session.run [.pop, .pop, .advance 0, .pop, .advance 0] { queue := q } = .ok s := toOption_eq_some_iff.mp hs
  obtain ⟨hspare, -, -, -, hgroup⟩ := pop_takes_least_term hq hs
  obtain ⟨-, -, hmembers, -, -, hfreq, -, hheap, -⟩ := hgroup g hg
  exact ⟨q, s, g, hq, hs, hg, hspare, hterm, horigins, (hfreq 10).mpr htotal.symm, hhand, hterm ▸ hmembers, hheap,
    hpeek⟩

end InvertedIndex.MergeQueue
