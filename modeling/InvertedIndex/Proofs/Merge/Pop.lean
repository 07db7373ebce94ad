import InvertedIndex.Proofs.Merge.Source

namespace InvertedIndex.MergeQueue

open Heap MergeSource

variable {C : Type} [TermCursor C]

structure IsQueued (heap : Heap (MergeSource C)) : Prop where
  ordered : heap.IsOrdered before
  onTerm : ∀ s ∈ heap.toList, s.term? ≠ none

/-- What every request to a queue preserves. A list that were not empty would put its sources into the next group. -/
structure IsSound (q : MergeQueue C) : Prop where
  queued : IsQueued q.heap
  spare : q.spare = []

structure Taken (t : Term) (heap : Heap (MergeSource C)) (taken : List (MergeSource C))
    (rest : Heap (MergeSource C)) : Prop where
  perm : (taken ++ rest.toList).Perm heap.toList
  capacity : rest.capacity = heap.capacity
  queued : IsQueued rest
  onTerm : ∀ s ∈ taken, s.term? = some t
  ascending : taken.Pairwise fun a b => a.origin ≤ b.origin
  later : ∀ s ∈ rest.toList, ∃ u, s.term? = some u ∧ compare t u = .lt

variable {t : Term} {heap rest : Heap (MergeSource C)} {front : MergeSource C} {taken : List (MergeSource C)}

lemma IsQueued.exists_term (h : IsQueued heap) {s : MergeSource C} (hs : s ∈ heap.toList) : ∃ u, s.term? = some u :=
  Option.ne_none_iff_exists'.mp (h.onTerm s hs)

lemma ofSources_eq_ok {sources : List (MergeSource C)} (h : closeErrors (sources.filter (·.term?.isNone)) = []) :
    ∃ q, ofSources sources = .ok q := by
  rw [ofSources, h]
  exact ⟨_, rfl⟩

lemma ofSources_spec {sources : List (MergeSource C)} {q : MergeQueue C} (h : ofSources sources = .ok q) :
    q.IsSound ∧ q.heap.toList.Perm (sources.filter (·.term?.isSome)) ∧ q.retired = [] ∧
      q.sourceCount = sources.length ∧ q.closed = sources.filter (·.term?.isNone) := by
  cases hc : closeErrors (sources.filter (·.term?.isNone)) with
  | nil =>
    rw [ofSources, hc] at h
    obtain rfl := Except.ok.inj h
    have hperm := ofArray_perm before (sources.filter (·.term?.isSome)).toArray
    refine ⟨⟨⟨ofArray_isOrdered before_isWeakOrder _, fun s hs => ?_⟩, rfl⟩, hperm, rfl, rfl, rfl⟩
    exact Option.isSome_iff_ne_none.mp (List.mem_filter.mp (hperm.subset hs)).2
  | cons e es =>
    rw [ofSources, hc] at h
    cases h

lemma IsQueued.removeFront (h : IsQueued heap) (hr : heap.removeFront? before = some (front, rest)) :
    IsQueued rest := by
  refine ⟨removeFront?_isOrdered before_isWeakOrder h.ordered hr, ?_⟩
  intro s hs
  exact h.onTerm s ((removeFront?_perm hr).subset (List.mem_cons_of_mem front hs))

lemma IsQueued.front_isLE (h : IsQueued heap) (hf : heap.peek? = some front) (ht : front.term? = some t)
    {s : MergeSource C} (hs : s ∈ heap.toList) {u : Term} (hu : s.term? = some u) : (compare t u).isLE = true :=
  le_of_not_before ht hu (peek?_least before_isWeakOrder h.ordered hf hs)

lemma Taken.cons (h : Taken t rest taken heap) {whole : Heap (MergeSource C)} (hw : IsQueued whole)
    (hr : whole.removeFront? before = some (front, rest)) (ht : front.term? = some t) :
    Taken t whole (front :: taken) heap where
  perm := (h.perm.cons front).trans (removeFront?_perm hr)
  capacity := h.capacity.trans (removeFront?_capacity hr)
  queued := h.queued
  onTerm := List.forall_mem_cons.mpr ⟨ht, h.onTerm⟩
  ascending := by
    refine List.pairwise_cons.mpr ⟨?_, h.ascending⟩
    intro s hs
    have hmem : s ∈ whole.toList :=
      (removeFront?_perm hr).subset (List.mem_cons_of_mem front (h.perm.subset (List.mem_append_left _ hs)))
    exact origin_le_of_not_before ht (h.onTerm s hs)
      (peek?_least before_isWeakOrder hw.ordered (peek?_of_removeFront? hr) hmem)
  later := h.later

lemma Taken.room (h : Taken t heap taken rest) : rest.toList.length + taken.length ≤ rest.capacity := by
  have hlen := h.perm.length_eq
  have hfit := heap.toList_length_le
  rw [List.length_append] at hlen
  rw [h.capacity]
  omega

lemma Taken.isLE (h : Taken t heap taken rest) {s : MergeSource C} (hs : s ∈ heap.toList) {u : Term}
    (hu : s.term? = some u) : (compare t u).isLE = true := by
  rcases List.mem_append.mp (h.perm.symm.subset hs) with hs | hs
  · obtain rfl := Option.some.inj ((h.onTerm s hs).symm.trans hu)
    exact Std.ReflCmp.isLE_rfl
  · obtain ⟨v, hv, hlt⟩ := h.later s hs
    obtain rfl := Option.some.inj (hv.symm.trans hu)
    rw [hlt]
    rfl

lemma Taken.term?_ne (h : Taken t heap taken rest) {s : MergeSource C} (hs : s ∈ rest.toList) : s.term? ≠ some t := by
  obtain ⟨u, hu, hlt⟩ := h.later s hs
  rw [hu]
  exact fun ht => Term.ne_of_lt hlt (Option.some.inj ht).symm

lemma Taken.taken_perm (h : Taken t heap taken rest) : taken.Perm (heap.toList.filter (·.term? == some t)) := by
  have htaken : taken.filter (·.term? == some t) = taken :=
    List.filter_eq_self.mpr fun s hs => beq_iff_eq.mpr (h.onTerm s hs)
  have hrest : rest.toList.filter (·.term? == some t) = [] :=
    List.filter_eq_nil_iff.mpr fun s hs => mt beq_iff_eq.mp (h.term?_ne hs)
  have hperm := h.perm.filter (·.term? == some t)
  rwa [List.filter_append, htaken, hrest, List.append_nil] at hperm

lemma Taken.others_perm (h : Taken t heap taken rest) : rest.toList.Perm (heap.toList.filter (·.term? != some t)) := by
  have htaken : taken.filter (·.term? != some t) = [] :=
    List.filter_eq_nil_iff.mpr fun s hs => by simp [h.onTerm s hs]
  have hrest : rest.toList.filter (·.term? != some t) = rest.toList :=
    List.filter_eq_self.mpr fun s hs => bne_iff_ne.mpr (h.term?_ne hs)
  have hperm := h.perm.filter (·.term? != some t)
  rwa [List.filter_append, htaken, hrest, List.nil_append] at hperm

lemma takeOn_taken (h : IsQueued heap)
    (hleast : ∀ s ∈ heap.toList, ∀ u, s.term? = some u → (compare t u).isLE = true) :
    Taken t heap (takeOn t heap).1 (takeOn t heap).2 := by
  fun_induction takeOn t heap with
  | case1 heap hon hr =>
    rw [removeFront?_eq_none_iff, ← peek?_eq_none_iff] at hr
    simp [hr] at hon
  | case2 heap hon front rest hr more heap' he ih =>
    have hft : front.term? = some t := by simpa [peek?_of_removeFront? hr] using hon
    have ih := ih (h.removeFront hr) fun s hs =>
      hleast s ((removeFront?_perm hr).subset (List.mem_cons_of_mem front hs))
    rw [he] at ih
    exact ih.cons h hr hft
  | case3 heap hoff =>
    refine ⟨.refl _, rfl, h, nofun, .nil, ?_⟩
    intro s hs
    obtain ⟨u, hu⟩ := h.exists_term hs
    refine ⟨u, hu, ?_⟩
    obtain ⟨front, hf⟩ : ∃ front, heap.peek? = some front := by
      refine Option.ne_none_iff_exists'.mp ?_
      rw [ne_eq, peek?_eq_none_iff]
      exact List.ne_nil_of_mem hs
    obtain ⟨v, hv⟩ := h.exists_term (List.mem_of_mem_head? (peek?_eq heap ▸ hf))
    have hne : t ≠ v := by
      rintro rfl
      exact hoff (by rw [hf, Option.bind_some, hv])
    have htv := hleast front (List.mem_of_mem_head? (peek?_eq heap ▸ hf)) v hv
    have hvu := h.front_isLE hf hv hs hu
    cases hc : compare t v with
    | lt => exact Std.TransCmp.lt_of_lt_of_isLE hc hvu
    | eq => exact absurd (Std.LawfulEqCmp.eq_of_compare hc) hne
    | gt => simp [hc] at htv

variable {q : MergeQueue C}

lemma Taken.sound (ht : Taken t q.heap taken heap) (h : q.IsSound) : IsSound { q with heap := heap } :=
  ⟨ht.queued, h.spare⟩

lemma pop_taken (h : q.IsSound) :
    q.heap.toList = [] ∧ q.pop = (none, q) ∨
      ∃ g heap, q.pop = (some g, { q with heap := heap }) ∧ g.members ≠ [] ∧ Taken g.term q.heap g.members heap := by
  cases hr : q.heap.removeFront? before with
  | none =>
    refine Or.inl ⟨removeFront?_eq_none_iff.mp hr, ?_⟩
    rw [pop, hr]
  | some p =>
    obtain ⟨front, rest⟩ := p
    have hmem : front ∈ q.heap.toList := (removeFront?_perm hr).subset List.mem_cons_self
    obtain ⟨t, ht⟩ := h.queued.exists_term hmem
    have htaken : Taken t rest (takeOn t rest).1 (takeOn t rest).2 := by
      refine takeOn_taken (h.queued.removeFront hr) ?_
      intro s hs u hu
      exact h.queued.front_isLE (peek?_of_removeFront? hr) ht
        ((removeFront?_perm hr).subset (List.mem_cons_of_mem front hs)) hu
    refine Or.inr ⟨⟨t, front :: (takeOn t rest).1⟩, (takeOn t rest).2, ?_, List.cons_ne_nil _ _,
      htaken.cons h.queued hr ht⟩
    rw [pop, hr]
    simp only [ht, h.spare, List.nil_append]

lemma IsSound.of_pop (h : q.IsSound) {q' : MergeQueue C} {g : Option (TermGroup C)} (hpop : q.pop = (g, q')) :
    q'.IsSound := by
  rcases pop_taken h with ⟨-, hnone⟩ | ⟨g, heap, hsome, -, ht⟩
  · exact (Prod.mk.inj (hpop.symm.trans hnone)).2 ▸ h
  · exact (Prod.mk.inj (hpop.symm.trans hsome)).2 ▸ ht.sound h

end InvertedIndex.MergeQueue
