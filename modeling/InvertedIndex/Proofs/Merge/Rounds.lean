import InvertedIndex.Proofs.Merge.Listed

namespace InvertedIndex

open Heap MergeSource

namespace MergeQueue

variable {C : Type} [TermCursor C]

section Walking

variable [WalkingCursor C]

def left (q : MergeQueue C) : List TermList := q.heap.toList.map listed

structure IsListed (q : MergeQueue C) : Prop where
  sound : q.IsSound
  valid : ∀ s ∈ q.heap.toList, WalkingCursor.IsValid s.cursor
  increasing : ∀ s ∈ q.heap.toList, Sorted.Increasing TermEntry.term s.listed.entries

variable {q q' : MergeQueue C} {g : TermGroup C} {heap : Heap (MergeSource C)}

lemma requeued_listed_flatMap {members : List (MergeSource C)}
    (hv : ∀ s ∈ members, WalkingCursor.IsValid s.cursor) (h : ∀ s ∈ members, s.listed.entries ≠ [])
    (hm : ∀ s ∈ members, s.Moves) :
    (members.flatMap requeued).map listed =
      ((members.map listed).map TermList.tail).filter (·.entries ≠ []) := by
  induction members with
  | nil => rfl
  | cons s members ih =>
    simp only [List.forall_mem_cons] at hv h hm
    rw [List.flatMap_cons, List.map_append, ih hv.2 h.2 hm.2, requeued_listed hv.1 h.1 hm.1, List.map_cons,
      List.map_cons, ← List.filter_append, List.singleton_append]

structure Round (q : MergeQueue C) (g : TermGroup C) (q' : MergeQueue C) : Prop where
  listed : IsListed q'
  retired : q'.retired = q.retired
  dictionary : TermList.dictionary q.left =
    ⟨g.term, (Count.total (g.members.map fun s => s.docFreq.toNat)).toUInt64, g.origins⟩ :: TermList.dictionary q'.left
  docFreq : TermList.weigh (fun e => e.docFreq.toNat) q.left =
    Count.total (g.members.map fun s => s.docFreq.toNat) + TermList.weigh (fun e => e.docFreq.toNat) q'.left
  shorter : TermList.weigh (fun _ => 1) q'.left < TermList.weigh (fun _ => 1) q.left

lemma Round.terms (h : Round q g q') : TermList.terms q.left = g.term :: TermList.terms q'.left := by
  rw [← TermList.map_term_dictionary, h.dictionary, List.map_cons, TermList.map_term_dictionary]

namespace Taken

variable (ht : Taken g.term q.heap g.members heap)

include ht

lemma startsWith (h : IsListed q) : ∀ l ∈ g.members.map listed, l.StartsWith g.term := by
  intro l hl
  obtain ⟨s, hs, rfl⟩ := List.mem_map.mp hl
  exact MergeSource.startsWith (h.increasing s (ht.perm.subset (List.mem_append_left _ hs))) (ht.onTerm s hs)

lemma later_entries (h : IsListed q) : ∀ l ∈ heap.toList.map listed, ∀ e ∈ l.entries, compare g.term e.term = .lt := by
  intro l hl e he
  obtain ⟨s, hs, rfl⟩ := List.mem_map.mp hl
  obtain ⟨u, hu, htu⟩ := ht.later s hs
  exact later_of_term?_lt (h.increasing s (ht.perm.subset (List.mem_append_right _ hs))) hu htu he

lemma entries_ne_nil : ∀ s ∈ g.members, s.listed.entries ≠ [] := by
  intro s hs hnil
  rw [← term?_eq_none_iff, ht.onTerm s hs] at hnil
  cases hnil

lemma left_perm : q.left.Perm (g.members.map listed ++ heap.toList.map listed) := by
  rw [left, ← List.map_append]
  exact (ht.perm.map listed).symm

lemma advanced_left (hv : ∀ s ∈ g.members, WalkingCursor.IsValid s.cursor) (hm : ∀ s ∈ g.members, s.Moves)
    (ha : Advanced { q with heap := heap } g.members q') :
    q'.left.Perm (((g.members.map listed).map TermList.tail ++ heap.toList.map listed).filter (·.entries ≠ [])) := by
  have hrest : (heap.toList.map listed).filter (·.entries ≠ []) = heap.toList.map listed := by
    rw [List.filter_eq_self]
    intro l hl
    obtain ⟨s, hs, rfl⟩ := List.mem_map.mp hl
    rw [decide_eq_true_iff, ne_eq, ← term?_eq_none_iff]
    exact ht.queued.onTerm s hs
  have hperm := ha.perm.map listed
  rw [List.map_append, requeued_listed_flatMap hv ht.entries_ne_nil hm] at hperm
  rw [List.filter_append, hrest]
  exact hperm.trans List.perm_append_comm

omit ht in
lemma total_docFreq (members : List (MergeSource C)) : Count.total (members.map fun s => s.docFreq.toNat) =
    Count.total (members.map fun s => s.listed.entries.head?.elim 0 fun e => e.docFreq.toNat) := by
  congr 1
  refine List.map_congr_left fun s _ => ?_
  rw [s.docFreq_eq]
  cases s.listed.entries.head? <;> rfl

lemma weigh_members (f : TermEntry → Nat) : TermList.weigh f q.left =
    Count.total (g.members.map fun s => s.listed.entries.head?.elim 0 f) +
      TermList.weigh f ((g.members.map listed).map TermList.tail ++ heap.toList.map listed) := by
  rw [TermList.weigh_perm f ht.left_perm, TermList.weigh_front, List.map_map]
  rfl

lemma docFreq_fits {n : Nat} (hsum : n + TermList.weigh (fun e => e.docFreq.toNat) q.left < UInt64.size) :
    g.docFreq = .ok (Count.total (g.members.map fun s => s.docFreq.toNat)).toUInt64 ∧
      n + (Count.total (g.members.map fun s => s.docFreq.toNat)).toUInt64.toNat < UInt64.size := by
  rw [ht.weigh_members, ← total_docFreq] at hsum
  have hfit : Count.total (g.members.map fun s => s.docFreq.toNat) < UInt64.size := by omega
  have hmap : (g.members.map MergeSource.docFreq).map UInt64.toNat = g.members.map fun s => s.docFreq.toNat :=
    List.map_map
  refine ⟨by rw [TermGroup.docFreq, Count.sum_eq_ok (by rwa [hmap]), hmap], ?_⟩
  rw [UInt64.toNat_ofNat_of_lt' hfit]
  omega

lemma weigh_left (hv : ∀ s ∈ g.members, WalkingCursor.IsValid s.cursor) (hm : ∀ s ∈ g.members, s.Moves)
    (ha : Advanced { q with heap := heap } g.members q') (f : TermEntry → Nat) : TermList.weigh f q.left =
      Count.total (g.members.map fun s => s.listed.entries.head?.elim 0 f) + TermList.weigh f q'.left := by
  rw [ht.weigh_members, TermList.weigh_perm f (ht.advanced_left hv hm ha), TermList.weigh_filter]

lemma weigh_docFreq (hv : ∀ s ∈ g.members, WalkingCursor.IsValid s.cursor) (hm : ∀ s ∈ g.members, s.Moves)
    (ha : Advanced { q with heap := heap } g.members q') : TermList.weigh (fun e => e.docFreq.toNat) q.left =
      Count.total (g.members.map fun s => s.docFreq.toNat) + TermList.weigh (fun e => e.docFreq.toNat) q'.left := by
  rw [ht.weigh_left hv hm ha, total_docFreq]

lemma shorter (hv : ∀ s ∈ g.members, WalkingCursor.IsValid s.cursor) (hm : ∀ s ∈ g.members, s.Moves)
    (hne : g.members ≠ []) (ha : Advanced { q with heap := heap } g.members q') :
    TermList.weigh (fun _ => 1) q'.left < TermList.weigh (fun _ => 1) q.left := by
  obtain ⟨s, members, hs⟩ := List.exists_cons_of_ne_nil hne
  obtain ⟨e, es, he⟩ := List.exists_cons_of_ne_nil (ht.entries_ne_nil s (by simp [hs]))
  rw [ht.weigh_left hv hm ha, hs, List.map_cons, Count.total_cons, he, List.head?_cons]
  simp only [Option.elim_some]
  omega

lemma advanced_valid (hv : ∀ s ∈ q.heap.toList, WalkingCursor.IsValid s.cursor)
    (ha : Advanced { q with heap := heap } g.members q') : ∀ s ∈ q'.heap.toList, WalkingCursor.IsValid s.cursor := by
  intro s hs
  rcases List.mem_append.mp (ha.perm.subset hs) with hs | hs
  · exact hv s (ht.perm.subset (List.mem_append_right _ hs))
  · obtain ⟨m, hm, hs⟩ := List.mem_flatMap.mp hs
    exact (walked (hv m (ht.perm.subset (List.mem_append_left _ hm))) (ht.entries_ne_nil m hm)
      (List.mem_append_left _ hs)).1

lemma merged_eq (h : IsListed q) : TermList.merged (g.members.map listed ++ heap.toList.map listed) g.term =
    ⟨g.term, (Count.total (g.members.map fun s => s.docFreq.toNat)).toUInt64, g.origins⟩ := by
  have hc : TermList.contributions g.term (g.members.map listed ++ heap.toList.map listed) =
      g.members.map fun s => (s.origin, s.docFreq) := by
    rw [TermList.contributions_front (ht.startsWith h) (ht.later_entries h), List.map_map]
    exact List.map_congr_left fun s _ => Prod.ext rfl s.docFreq_eq.symm
  rw [TermList.merged, TermList.docFreq, TermList.origins, hc, List.map_map, List.map_map]
  congr 1
  exact TermList.mergeSort_origins (List.pairwise_map.mpr ht.ascending)

lemma valid_members (h : IsListed q) : ∀ s ∈ g.members, WalkingCursor.IsValid s.cursor :=
  fun s hs => h.valid s (ht.perm.subset (List.mem_append_left _ hs))

lemma advanced_increasing (h : IsListed q) (hm : ∀ s ∈ g.members, s.Moves)
    (ha : Advanced { q with heap := heap } g.members q') :
    ∀ s ∈ q'.heap.toList, Sorted.Increasing TermEntry.term s.listed.entries := by
  intro s hs
  have hl := (ht.advanced_left (ht.valid_members h) hm ha).subset (List.mem_map_of_mem hs)
  rcases List.mem_append.mp (List.mem_of_mem_filter hl) with hl | hl
  · obtain ⟨l, hm, hl⟩ := List.mem_map.mp hl
    rw [← hl]
    exact (ht.startsWith h l hm).increasing.tail
  · obtain ⟨s', hs', hl⟩ := List.mem_map.mp hl
    rw [← hl]
    exact h.increasing s' (ht.perm.subset (List.mem_append_right _ hs'))

lemma dictionary_left (h : IsListed q) (hne : g.members ≠ []) : TermList.dictionary q.left =
    ⟨g.term, (Count.total (g.members.map fun s => s.docFreq.toNat)).toUInt64, g.origins⟩ ::
      TermList.dictionary ((g.members.map listed).map TermList.tail ++ heap.toList.map listed) := by
  have hne' : g.members.map listed ≠ [] := by rwa [ne_eq, List.map_eq_nil_iff]
  rw [TermList.dictionary_perm ht.left_perm,
    TermList.dictionary_front (ht.startsWith h) (ht.later_entries h) hne', ht.merged_eq h]

lemma round (h : IsListed q) (hne : g.members ≠ []) (hm : ∀ s ∈ g.members, s.Moves)
    (ha : Advanced { q with heap := heap } g.members q') : Round q g q' where
  listed := ⟨ha.sound (ht.sound h.sound), ht.advanced_valid h.valid ha, ht.advanced_increasing h hm ha⟩
  retired := ha.retired
  dictionary := by
    rw [ht.dictionary_left h hne, TermList.dictionary_perm (ht.advanced_left (ht.valid_members h) hm ha),
      TermList.dictionary_filter]
  docFreq := ht.weigh_docFreq (ht.valid_members h) hm ha
  shorter := ht.shorter (ht.valid_members h) hm hne ha

end Taken

lemma left_ofSources {sources : List (MergeSource C)} (h : ofSources sources = .ok q) :
    q.left.Perm ((sources.map listed).filter (·.entries ≠ [])) := by
  obtain ⟨-, hperm, -⟩ := ofSources_spec h
  refine (hperm.map listed).trans (List.Perm.of_eq ?_)
  rw [List.filter_map]
  exact congrArg _ (List.filter_congr fun s _ => s.term?_isSome)

lemma isListed_ofSources {sources : List (MergeSource C)} (h : ofSources sources = .ok q)
    (hv : ∀ s ∈ sources, WalkingCursor.IsValid s.cursor)
    (hinc : ∀ s ∈ sources, Sorted.Increasing TermEntry.term s.listed.entries) : IsListed q := by
  obtain ⟨hsound, hperm, -⟩ := ofSources_spec h
  have hmem : ∀ s ∈ q.heap.toList, s ∈ sources := fun s hs => List.mem_of_mem_filter (hperm.subset hs)
  exact ⟨hsound, fun s hs => hv s (hmem s hs), fun s hs => hinc s (hmem s hs)⟩

lemma weigh_left_le_bound (q : MergeQueue C) :
    TermList.weigh (fun _ => 1) q.left ≤ Count.total (q.heap.toList.map fun s => TermCursor.bound s.cursor) := by
  rw [left]
  induction q.heap.toList with
  | nil => exact Nat.le_refl 0
  | cons s sources ih =>
    rw [List.map_cons, List.map_cons, TermList.weigh_cons, Count.total_cons, Count.total_ones]
    exact Nat.add_le_add (WalkingCursor.length_le_bound s.cursor) ih

end Walking

section Listed

variable [ListedCursor C] {q : MergeQueue C} {g : TermGroup C}

lemma advance_done (hq : q.IsSound) (hne : ∀ s ∈ g.members, s.listed.entries ≠ [])
    (hroom : q.heap.toList.length + g.members.length ≤ q.heap.capacity) :
    ∃ q', q.advance g = .done q' () ∧ Advanced q g.members q' := by
  have hres := advanceMembers_result g.members q hroom
  cases ho : q.advanceMembers g.members with
  | done q' errors =>
    rw [ho] at hres
    obtain ⟨-, hq', rfl⟩ := hres
    refine ⟨q', ?_, hq'⟩
    rw [advance_of_done hq ho, closeErrors_eq_nil]
    rfl
  | failed q' e =>
    rw [ho] at hres
    obtain ⟨moved, s, rest, c, -, hmem, -, hs, -⟩ := hres
    obtain ⟨c', more, hs'⟩ := moves (hne s (by simp [hmem]))
    rw [hs'] at hs
    cases hs
  | fault x =>
    rw [ho] at hres
    obtain ⟨s, hmem, hs⟩ := hres
    obtain ⟨c', more, hs'⟩ := moves (hne s (List.mem_of_mem_take hmem))
    rw [hs'] at hs
    cases hs

end Listed

end MergeQueue

end InvertedIndex
