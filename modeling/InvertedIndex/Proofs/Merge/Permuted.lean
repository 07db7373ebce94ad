import InvertedIndex.Proofs.Merge.Dictionary

namespace InvertedIndex

open Heap MergeSource

namespace TermGroup

variable {C : Type} [TermCursor C] {g g₂ : TermGroup C}

structure Alike (g g₂ : TermGroup C) : Prop where
  term : g.term = g₂.term
  members : g.members.Perm g₂.members
  origins : g.origins = g₂.origins

lemma Alike.docFreq (h : Alike g g₂) : g.docFreq = g₂.docFreq := Count.sum_perm (h.members.map _)

lemma Alike.visit {W : Type} [DictionaryWriter W] (h : Alike g g₂) (settings : MergeSettings)
    (p : DictionaryMerge.Progress W) : DictionaryMerge.visit settings g p = DictionaryMerge.visit settings g₂ p := by
  simp only [DictionaryMerge.visit, DictionaryMerge.write, h.term, h.docFreq, h.origins, h.members.length_eq]

end TermGroup

namespace MergeQueue

variable {C : Type} [TermCursor C] {q q₂ : MergeQueue C} {heap heap₂ rest rest₂ : Heap (MergeSource C)}
  {taken taken₂ : List (MergeSource C)} {t t₂ : Term}

namespace Taken

lemma rest_perm (h : Taken t heap taken rest) (h₂ : Taken t heap₂ taken₂ rest₂) (hp : heap.toList.Perm heap₂.toList) :
    taken.Perm taken₂ ∧ rest.toList.Perm rest₂.toList := by
  have htaken : taken.Perm taken₂ := h.taken_perm.trans ((hp.filter _).trans h₂.taken_perm.symm)
  refine ⟨htaken, (List.perm_append_left_iff taken).mp ?_⟩
  exact h.perm.trans (hp.trans (h₂.perm.symm.trans (htaken.symm.append_right _)))

lemma heap_ne_nil (h : Taken t heap taken rest) (hne : taken ≠ []) : heap.toList ≠ [] := by
  rintro hnil
  exact hne (List.append_eq_nil_iff.mp (h.perm.trans (.of_eq hnil)).eq_nil).1

lemma term_eq (h : Taken t heap taken rest) (h₂ : Taken t₂ heap₂ taken₂ rest₂) (hp : heap.toList.Perm heap₂.toList)
    (hne : taken ≠ []) (hne₂ : taken₂ ≠ []) : t = t₂ := by
  obtain ⟨s, hs⟩ := List.exists_mem_of_ne_nil _ hne
  obtain ⟨s₂, hs₂⟩ := List.exists_mem_of_ne_nil _ hne₂
  have hle := h.isLE (hp.symm.subset (h₂.perm.subset (List.mem_append_left _ hs₂))) (h₂.onTerm s₂ hs₂)
  have hge := h₂.isLE (hp.subset (h.perm.subset (List.mem_append_left _ hs))) (h.onTerm s hs)
  exact Std.LawfulEqCmp.eq_of_compare (Std.OrientedCmp.isLE_antisymm hle hge)

end Taken

structure Twins (q q₂ : MergeQueue C) : Prop where
  sound : q.IsSound
  sound₂ : q₂.IsSound
  perm : q.heap.toList.Perm q₂.heap.toList

lemma Twins.pop (h : Twins q q₂) : q.pop = (none, q) ∧ q₂.pop = (none, q₂) ∨
    ∃ g g₂ heap heap₂, q.pop = (some g, { q with heap := heap }) ∧ q₂.pop = (some g₂, { q₂ with heap := heap₂ }) ∧
      g.members ≠ [] ∧ Taken g.term q.heap g.members heap ∧ Taken g₂.term q₂.heap g₂.members heap₂ ∧
      g.Alike g₂ ∧ Twins { q with heap := heap } { q₂ with heap := heap₂ } := by
  rcases pop_taken h.sound with ⟨hnil, hpop⟩ | ⟨g, heap, hpop, hne, ht⟩ <;>
    rcases pop_taken h.sound₂ with ⟨hnil₂, hpop₂⟩ | ⟨g₂, heap₂, hpop₂, hne₂, ht₂⟩
  · exact Or.inl ⟨hpop, hpop₂⟩
  · exact absurd (h.perm.symm.trans (.of_eq hnil)).eq_nil (ht₂.heap_ne_nil hne₂)
  · exact absurd (h.perm.trans (.of_eq hnil₂)).eq_nil (ht.heap_ne_nil hne)
  · obtain ⟨t, members⟩ := g
    obtain ⟨t₂, members₂⟩ := g₂
    obtain rfl : t = t₂ := ht.term_eq ht₂ h.perm hne hne₂
    obtain ⟨hmembers, hrest⟩ := ht.rest_perm ht₂ h.perm
    refine Or.inr ⟨_, _, heap, heap₂, hpop, hpop₂, hne, ht, ht₂, ⟨rfl, hmembers, ?_⟩,
      ht.sound h.sound, ht₂.sound h.sound₂, hrest⟩
    refine List.Perm.eq_of_pairwise (fun a b _ _ => UInt64.le_antisymm) ?_ ?_ (hmembers.map _)
    · exact List.pairwise_map.mpr ht.ascending
    · exact List.pairwise_map.mpr ht₂.ascending

lemma Advanced.twins {q₁ q₁₂ : MergeQueue C} {members members₂ : List (MergeSource C)} (ha : Advanced q members q₁)
    (ha₂ : Advanced q₂ members₂ q₁₂) (h : Twins q q₂) (hm : members.Perm members₂) : Twins q₁ q₁₂ where
  sound := ha.sound h.sound
  sound₂ := ha₂.sound h.sound₂
  perm := ha.perm.trans ((h.perm.append (hm.flatMap_right _)).trans ha₂.perm.symm)

lemma twins_ofSources {sources sources₂ : List (MergeSource C)} (h : ofSources sources = .ok q)
    (h₂ : ofSources sources₂ = .ok q₂) (hp : sources.Perm sources₂) : Twins q q₂ := by
  obtain ⟨hsound, hperm, -⟩ := ofSources_spec h
  obtain ⟨hsound₂, hperm₂, -⟩ := ofSources_spec h₂
  exact ⟨hsound, hsound₂, hperm.trans ((hp.filter _).trans hperm₂.symm)⟩

end MergeQueue

namespace DictionaryMerge

open MergeQueue TermList

section Write

variable {C : Type} [TermCursor C] {g : TermGroup C}

lemma write_ends (b : Bool) (g : TermGroup C) (p : Progress Dictionary) :
    write b g p = .fault .sumOverflow ∨ ∃ p', write b g p = .done p' () ∧ p'.last = p.last := by
  rw [write]
  cases hg : g.docFreq with
  | error x => exact Or.inl (congrArg Outcome.fault (Count.eq_of_ofNat_eq_error hg))
  | ok f =>
    dsimp only
    split
    · exact Or.inr ⟨_, rfl, rfl⟩
    · cases ha : Count.add p.statistics.totalDocFreq f with
      | error x =>
        refine Or.inl ?_
        simp only [DictionaryWriter.add, MergeStatistics.countWritten, ha]
        exact congrArg Outcome.fault (Count.eq_of_ofNat_eq_error ha)
      | ok total =>
        refine Or.inr ?_
        simp only [DictionaryWriter.add, MergeStatistics.countWritten, ha]
        exact ⟨_, rfl, rfl⟩

end Write

variable {C : Type} [TermCursor C] [ListedCursor C] {q q₂ : MergeQueue C} {p : Progress Dictionary}

lemma drainWithin_twins (settings : MergeSettings) (limit : Nat) (h : Twins q q₂) (hl : IsListed q)
    (hlater : ∀ u ∈ p.last, ∀ t ∈ terms q.left, compare u t = .lt) :
    drainWithin (fun _ => visit settings) limit q p = .fault .sumOverflow ∧
        drainWithin (fun _ => visit settings) limit q₂ p = .fault .sumOverflow ∨
      ∃ q' q₂' p', drainWithin (fun _ => visit settings) limit q p = .done (q', p') () ∧
        drainWithin (fun _ => visit settings) limit q₂ p = .done (q₂', p') () := by
  induction limit generalizing q q₂ p with
  | zero => exact Or.inr ⟨q, q₂, p, rfl, rfl⟩
  | succ limit ih =>
    rw [drainWithin, drainWithin]
    rcases h.pop with ⟨hpop, hpop₂⟩ | ⟨g, g₂, heap, heap₂, hpop, hpop₂, hne, ht, ht₂, hg, htwins⟩
    · rw [hpop, hpop₂]
      exact Or.inr ⟨q, q₂, p, rfl, rfl⟩
    · rw [hpop, hpop₂]
      dsimp only
      rw [← hg.visit, visit_eq_write (lt_term hl hlater ht hne)]
      rcases write_ends settings.dropEmpty g { p with last := lastAfter settings g.term p.last } with
        hv | ⟨p₁, hv, hlast⟩
      · rw [hv]
        exact Or.inl ⟨rfl, rfl⟩
      · obtain ⟨q₁, ha, hadvanced⟩ := advance_done htwins.sound ht.entries_ne_nil ht.room
        obtain ⟨q₁₂, ha₂, hadvanced₂⟩ := advance_done htwins.sound₂ ht₂.entries_ne_nil ht₂.room
        have hround := ht.round hl hne (fun s hs => moves (ht.entries_ne_nil s hs)) hadvanced
        rw [hv]
        simp only [ha, ha₂]
        exact ih (hadvanced.twins hadvanced₂ htwins hg.members) hround.listed
          (later_after_round hround hlater hlast)

lemma merge_twins (settings : MergeSettings) (h : Twins q q₂) (hl : IsListed q) (hc : q.sourceCount = q₂.sourceCount) :
    merge settings q ({} : Dictionary) = .fault .sumOverflow ∧
        merge settings q₂ ({} : Dictionary) = .fault .sumOverflow ∨
      ∃ q' q₂' d statistics, merge settings q ({} : Dictionary) = .done (q', d) statistics ∧
        merge settings q₂ ({} : Dictionary) = .done (q₂', d) statistics := by
  have hbound : Count.total (q.heap.toList.map fun s => TermCursor.bound s.cursor) =
      Count.total (q₂.heap.toList.map fun s => TermCursor.bound s.cursor) := Count.total_perm (h.perm.map _)
  rcases drainWithin_twins settings (Count.total (q.heap.toList.map fun s => TermCursor.bound s.cursor) + 1)
    (p := ⟨{}, { sources := q.sourceCount }, none⟩) h hl nofun with ⟨hd, hd₂⟩ | ⟨q', q₂', p', hd, hd₂⟩
  · rw [hbound, hc] at hd₂
    rw [merge, merge, drain, drain, hd, hd₂]
    exact Or.inl ⟨rfl, rfl⟩
  · rw [hbound, hc] at hd₂
    exact Or.inr ⟨_, _, p'.writer, p'.statistics, merge_of_drain hd, merge_of_drain hd₂⟩

end DictionaryMerge

namespace DictionaryMerge

open MergeQueue TermList

/-- From the same sources in another order a merge writes the same dictionary, entry for entry, and counts the same;
or both merges overflow. -/
theorem merge_permuted (settings : MergeSettings) {sources sources₂ : List (MergeSource DictionaryCursor)}
    (hs : ∀ s ∈ sources, s.cursor.IsSorted) (hp : sources.Perm sources₂) :
    ∃ q q₂, MergeQueue.ofSources sources = .ok q ∧ MergeQueue.ofSources sources₂ = .ok q₂ ∧
      (merge settings q ({} : Dictionary) = .fault .sumOverflow ∧
          merge settings q₂ ({} : Dictionary) = .fault .sumOverflow ∨
        ∃ q' q₂' d statistics, merge settings q ({} : Dictionary) = .done (q', d) statistics ∧
          merge settings q₂ ({} : Dictionary) = .done (q₂', d) statistics) := by
  have hs₂ : ∀ s ∈ sources₂, s.cursor.IsSorted := fun s hm => hs s (hp.symm.subset hm)
  obtain ⟨q, hq, hlisted, -, hcount, -⟩ := ofSources_listed sources fun s hm => (hs s hm).rest
  obtain ⟨q₂, hq₂, -, -, hcount₂, -⟩ := ofSources_listed sources₂ fun s hm => (hs₂ s hm).rest
  refine ⟨q, q₂, hq, hq₂, merge_twins settings (twins_ofSources hq hq₂ hp) hlisted ?_⟩
  rw [hcount, hcount₂, hp.length_eq]

def contested : List (MergeSource DictionaryCursor) :=
  -- Nothing tells the sources of origin 7 apart on the term that they share.
  [⟨7, .ofList [⟨⟨"f", "b"⟩, 2⟩]⟩, ⟨3, .ofList [⟨⟨"f", "b"⟩, 5⟩, ⟨⟨"f", "a"⟩, 1⟩]⟩, ⟨7, .ofList [⟨⟨"f", "b"⟩, 4⟩]⟩]

theorem merge_permuted_contested :
    ∃ q q₂ q' q₂' d statistics, MergeQueue.ofSources contested = .ok q ∧
      MergeQueue.ofSources contested.reverse = .ok q₂ ∧ merge {} q ({} : Dictionary) = .done (q', d) statistics ∧
      merge {} q₂ ({} : Dictionary) = .done (q₂', d) statistics ∧
      d.toList = [⟨⟨"f", "a"⟩, 1, [3]⟩, ⟨⟨"f", "b"⟩, 11, [3, 7, 7]⟩] := by
  have hs : ∀ s ∈ contested, s.cursor.IsSorted := by
    simp only [contested, List.mem_cons, List.not_mem_nil, or_false, forall_eq_or_imp, forall_eq]
    exact ⟨DictionaryCursor.isSorted_ofList _, DictionaryCursor.isSorted_ofList _, DictionaryCursor.isSorted_ofList _⟩
  obtain ⟨q₀, q', p, hq₀, hdone, hw⟩ := merge_listed {} contested (fun s hm => (hs s hm).rest) (by cbv)
  obtain ⟨q, q₂, hq, hq₂, ⟨hfault, -⟩ | ⟨q', q₂', d, statistics, hm, hm₂⟩⟩ :=
    merge_permuted {} hs (List.reverse_perm contested).symm
  · rw [Except.ok.inj (hq.symm.trans hq₀), hdone] at hfault
    cases hfault
  · refine ⟨q, q₂, q', q₂', d, statistics, hq, hq₂, hm, hm₂, ?_⟩
    rw [Except.ok.inj (hq.symm.trans hq₀), hdone, Outcome.done.injEq, Prod.mk.injEq] at hm
    rw [← hm.1.2]
    exact hw.terms.trans (by cbv)

end DictionaryMerge

end InvertedIndex
