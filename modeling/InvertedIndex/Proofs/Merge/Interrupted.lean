import InvertedIndex.Proofs.Merge.Closing
import InvertedIndex.Proofs.Merge.Dictionary
import InvertedIndex.Proofs.Merge.Segments

namespace InvertedIndex

open Heap MergeSource

namespace MergeSource

variable {C : Type} [TermCursor C] [WalkingCursor C]

def reliable (s : MergeSource C) : MergeSource ListingCursor :=
  ⟨s.origin, { entries := (WalkingCursor.entries s.cursor).toArray }⟩

lemma listed_reliable (s : MergeSource C) : s.reliable.listed = s.listed := rfl

end MergeSource

namespace DictionaryMerge

open MergeQueue TermList LoggedWriter

variable {C W : Type} [TermCursor C] [WalkingCursor C] [DictionaryWriter W] [LoggedWriter W] {q : MergeQueue C}
  {sources : List (MergeSource C)} {w : W}

lemma troubles_release_perm (q : MergeQueue C) (w : W) :
    (moveErrors q.release.closed ++ refusals w).Perm (troubles q w) :=
  (moveErrors_perm List.perm_append_comm).append_right _

lemma troubles_ofSources (h : ofSources sources = .ok q)
    (hfresh : moveErrors sources = []) (hw : refusals w = []) : troubles q w = [] := by
  obtain ⟨-, hperm, hretired, -, hclosed⟩ := ofSources_spec h
  rw [troubles, hw, List.append_nil]
  rw [moveErrors_eq_nil_iff] at hfresh ⊢
  intro s hs
  simp only [MergeQueue.sources, held, hretired, hclosed, List.append_nil, List.mem_append, hperm.mem_iff,
    List.mem_filter] at hs
  exact hfresh s (hs.elim And.left And.left)

lemma ready_ofSources (h : ofSources sources = .ok q) (hv : ∀ s ∈ sources, WalkingCursor.IsValid s.cursor)
    (hinc : ∀ s ∈ sources, Sorted.Increasing TermEntry.term (WalkingCursor.entries s.cursor))
    (hsum : weigh (fun e => e.docFreq.toNat) (sources.map listed) < UInt64.size)
    (hfresh : moveErrors sources = []) (hw : refusals w = []) : Ready q ⟨w, { sources := q.sourceCount }, none⟩ where
  listed := isListed_ofSources h hv hinc
  later := nofun
  fits := by
    rw [weigh_perm _ (left_ofSources h), weigh_filter]
    simpa using hsum
  untroubled := troubles_ofSources h hfresh hw

lemma exists_reliable_merge (settings : MergeSettings)
    (hinc : ∀ s ∈ sources, Sorted.Increasing TermEntry.term (WalkingCursor.entries s.cursor))
    (hsum : weigh (fun e => e.docFreq.toNat) (sources.map listed) < UInt64.size) :
    ∃ q₀ q₀' d statistics₀, ofSources (sources.map reliable) = .ok q₀ ∧
      merge settings q₀ ({} : Dictionary) = .done (q₀', d) statistics₀ ∧
      d.toList = written settings.dropEmpty (dictionary (sources.map listed)) := by
  have hlists : (sources.map reliable).map listed = sources.map listed := by
    rw [List.map_map]
    exact List.map_congr_left fun s _ => s.listed_reliable
  obtain ⟨q₀, q₀', p₀, hq₀, hmerge₀, hwrote⟩ := merge_listed settings (sources.map reliable)
    (List.forall_mem_map.mpr hinc) (hlists ▸ hsum)
  refine ⟨q₀, q₀', p₀.writer, p₀.statistics, hq₀, hmerge₀, ?_⟩
  rw [← hlists]
  exact hwrote.terms.trans (List.nil_append _)

/-- Whatever calls fail, a merge writes the first terms of what it writes if none does, and all of them if it succeeds.
The error of a failed move or a refused term is passed on as it is, however many cursors fail to close. -/
theorem interrupted_merge_writes_prefix (settings : MergeSettings) {sources : List (MergeSource C)} {w : W}
    (hv : ∀ s ∈ sources, WalkingCursor.IsValid s.cursor)
    (hinc : ∀ s ∈ sources, Sorted.Increasing TermEntry.term (WalkingCursor.entries s.cursor))
    (hsum : weigh (fun e => e.docFreq.toNat) (sources.map listed) < UInt64.size)
    (hfresh : moveErrors sources = []) (hw : accepted w = [] ∧ refusals w = []) (hq : ofSources sources = .ok q) :
    ∃ q₀ q₀' d statistics₀ q' w', ofSources (sources.map reliable) = .ok q₀ ∧
      merge settings q₀ ({} : Dictionary) = .done (q₀', d) statistics₀ ∧
      (merge settings q w).after = .ok (q', w') ∧ accepted w' <+: d.toList ∧
      (∀ s statistics, merge settings q w = .done s statistics →
        accepted w' = d.toList ∧ moveErrors q'.closed ++ refusals w' = []) ∧
      ∀ e ∈ moveErrors q'.closed ++ refusals w', merge settings q w = .failed (q', w') e := by
  obtain ⟨q₀, q₀', d, statistics₀, hq₀, hmerge₀, hd⟩ := exists_reliable_merge settings hinc hsum
  have hafter := merge_after settings q w
  have hres := drain_result settings (ready_ofSources hq hv hinc hsum hfresh hw.2)
  have hdictionary : dictionary q.left = dictionary (sources.map listed) := by
    rw [dictionary_perm (left_ofSources hq), dictionary_filter]
  cases ho : q.drain (fun _ => visit settings) ⟨w, { sources := q.sourceCount }, none⟩ with
  | done s u =>
    rw [ho] at hres hafter
    obtain ⟨hwrote, -, htroubles⟩ := hres
    have haccepted : accepted s.2.writer = d.toList := by
      rw [hwrote.terms, hw.1, hdictionary, List.nil_append, hd]
    have hnone : moveErrors s.1.release.closed ++ refusals s.2.writer = [] :=
      List.perm_nil.mp (htroubles ▸ troubles_release_perm s.1 s.2.writer)
    refine ⟨q₀, q₀', d, statistics₀, _, _, hq₀, hmerge₀, hafter, haccepted ▸ List.prefix_rfl, ?_, ?_⟩
    · exact fun _ _ _ => ⟨haccepted, hnone⟩
    · rw [hnone]
      exact nofun
  | failed s x =>
    rw [ho] at hres hafter
    obtain ⟨⟨es, hes, haccepted⟩, htroubles⟩ := hres
    rw [hw.1, List.nil_append] at haccepted
    rw [hdictionary, ← hd, ← haccepted] at hes
    have hmerge : merge settings q w = .failed (s.1.release, s.2.writer) x := by rw [merge, ho]
    refine ⟨q₀, q₀', d, statistics₀, _, _, hq₀, hmerge₀, hafter, hes, ?_, fun e he => ?_⟩
    · intro s' statistics hdone
      rw [hmerge] at hdone
      cases hdone
    · have hmem := (troubles_release_perm s.1 s.2.writer).subset he
      rcases htroubles with hone | ⟨hnone, -⟩
      · rw [hone] at hmem
        rw [hmerge, List.mem_singleton.mp hmem]
      · rw [hnone] at hmem
        cases hmem
  | fault x =>
    rw [ho] at hres
    exact hres.elim

def brokenSources : List (MergeSource SegmentCursor) :=
  [⟨1, .scripted ⟨"1", Outages.none, some (.dataSource "closing"), false, false⟩ 0
      (.listing { entries := #[⟨⟨"f", "a"⟩, 1⟩] })⟩,
    ⟨2, .scripted ⟨"2", Outages.ofCalls [0] (.dataSource "moving"), none, false, false⟩ 0
      (.listing { entries := #[⟨⟨"f", "a"⟩, 2⟩, ⟨⟨"f", "b"⟩, 3⟩] })⟩]

theorem merge_passes_on_failed_move :
    ∃ (q q' : MergeQueue SegmentCursor) (q₀ q₀' : MergeQueue ListingCursor) (d : Dictionary)
      (w' : UnreliableDictionary) (statistics₀ : MergeStatistics),
      ofSources brokenSources = .ok q ∧ ofSources (brokenSources.map reliable) = .ok q₀ ∧
      merge {} q₀ ({} : Dictionary) = .done (q₀', d) statistics₀ ∧
      merge {} q ({ outages := Outages.none } : UnreliableDictionary) = .failed (q', w') (.dataSource "moving") ∧
      (closeErrors q'.closed).map Error.message = ["Data source error: closing"] ∧
      w'.dictionary.toList = [⟨⟨"f", "a"⟩, 3, [1, 2]⟩] ∧ w'.dictionary.toList <+: d.toList := by
  obtain ⟨q, hq⟩ : ∃ q, ofSources brokenSources = .ok q := ofSources_eq_ok rfl
  have hrun : ((ofSources brokenSources).toOption.bind fun q =>
      (merge {} q ({ outages := Outages.none } : UnreliableDictionary)).after.toOption.map fun r =>
        ((moveErrors r.1.closed).filterMap Error.dataSource?, (closeErrors r.1.closed).map Error.message,
          r.2.dictionary.toList)) =
      some (["moving"], ["Data source error: closing"], [⟨⟨"f", "a"⟩, 3, [1, 2]⟩]) := by
    decide +kernel
  obtain ⟨q₀, q₀', d, statistics₀, q', w', hq₀, hmerge₀, hafter, hprefix, -, herror⟩ :=
    interrupted_merge_writes_prefix {} (w := ({ outages := Outages.none } : UnreliableDictionary))
      (by simp [brokenSources, WalkingCursor.IsValid, SegmentCursor.IsHonest])
      (by
        simp only [brokenSources, List.forall_mem_cons, Sorted.Increasing]
        decide +kernel)
      (by decide +kernel) rfl ⟨rfl, rfl⟩ hq
  rw [hq] at hrun
  simp only [Except.toOption, Option.bind_some, hafter, Option.map_some, Option.some.injEq, Prod.mk.injEq] at hrun
  obtain ⟨hmoves, hclose, hterms⟩ := hrun
  obtain ⟨x, hx, htext⟩ := List.mem_filterMap.mp (hmoves ▸ List.mem_singleton_self "moving")
  obtain rfl := Error.dataSource?_eq_some_iff.mp htext
  exact ⟨q, q', q₀, q₀', d, w', statistics₀, hq, hq₀, hmerge₀, herror _ (List.mem_append_left _ hx), hclose, hterms,
    hprefix⟩

end DictionaryMerge

end InvertedIndex
