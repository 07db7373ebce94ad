import InvertedIndex.Proofs.Heap.Region

namespace InvertedIndex.Heap.Region

inductive Place where
  | seen (i : Nat)
  | finished (i : Nat)

namespace Place

def slot : Place → Nat
  | seen i => i
  | finished i => i

def seen? : Place → Option Nat
  | seen i => some i
  | finished _ => none

/-- One turn of the loop. It ends on slot 0, so that no slot before that one is ever asked for. -/
def step (on : Nat → Bool) : Place → Option Place
  | seen i =>
    if on (2 * i + 1) then some (seen (2 * i + 1))
    else if on (2 * i + 2) then some (seen (2 * i + 2))
    else some (finished i)
  | finished i =>
    if 0 < i then
      if i % 2 = 1 ∧ on (i + 1) then some (seen (i + 1)) else some (finished (parent i))
    else none

end Place

inductive Trail (on : Nat → Bool) : Place → List Place → Prop
  | last {p : Place} : p.step on = none → Trail on p [p]
  | cons {p q : Place} {ps : List Place} : p.step on = some q → Trail on q ps → Trail on p (p :: ps)

def Ends (on : Nat → Bool) (size : Nat) (p : Place) (seen : List Nat) : Prop :=
  ∃ ps, Trail on p ps ∧ (∀ q ∈ ps, q.slot < size) ∧ ps.filterMap Place.seen? = seen

variable {on : Nat → Bool} {size : Nat}

lemma Ends.last {i : Nat} (hs : (Place.finished i).step on = none) (hi : i < size) :
    Ends on size (.finished i) [] :=
  ⟨[.finished i], .last hs, List.forall_mem_singleton.mpr hi, rfl⟩

lemma Ends.onward {i : Nat} {q : Place} {seen : List Nat} (h : Ends on size q seen)
    (hs : (Place.finished i).step on = some q) (hi : i < size) : Ends on size (.finished i) seen := by
  obtain ⟨ps, ht, hps, hseen⟩ := h
  exact ⟨_, ht.cons hs, List.forall_mem_cons.mpr ⟨hi, hps⟩, hseen⟩

lemma Ends.see {i : Nat} {q : Place} {seen : List Nat} (h : Ends on size q seen)
    (hs : (Place.seen i).step on = some q) (hi : i < size) : Ends on size (.seen i) (i :: seen) := by
  obtain ⟨ps, ht, hps, hseen⟩ := h
  exact ⟨_, ht.cons hs, List.forall_mem_cons.mpr ⟨hi, hps⟩, congrArg (i :: ·) hseen⟩

lemma ends_finished {i : Nat} (hi : i < size)
    (hnext : ∀ j, climb on i = some j → Ends on size (.seen j) (preorder on size j ++ afterward on size j)) :
    Ends on size (.finished i) (afterward on size i) := by
  rw [afterward_eq_climb]
  -- The inner loop climbs to the next slot to be seen, or else to slot 0.
  fun_induction climb on i with
  | case1 i hpos hright => exact (hnext (i + 1) rfl).onward (by rw [Place.step, if_pos hpos, if_pos hright]) hi
  | case2 i hpos hright ih =>
    exact (ih (Nat.lt_trans (parent_lt hpos) hi) hnext).onward (by rw [Place.step, if_pos hpos, if_neg hright]) hi
  | case3 i hpos => exact .last (by rw [Place.step, if_neg hpos]) hi

lemma ends_seen (hon : ∀ i, on i = true → i < size) {n i : Nat} (hi : on i = true)
    (hn : (preorder on size i ++ afterward on size i).length = n) :
    Ends on size (.seen i) (preorder on size i ++ afterward on size i) := by
  -- On the number of slots that are still to be seen.
  induction n using Nat.strongRecOn generalizing i with
  | ind n ih =>
    obtain ⟨hrest, hin⟩ := successor_spec hon hi
    have hnext (j : Nat) (hj : successor on i = some j) :
        Ends on size (.seen j) (preorder on size j ++ afterward on size j) := by
      refine ih _ ?_ (hin j hj) rfl
      rw [← hn, hrest, hj, Option.elim_some, List.length_cons]
      exact Nat.lt_succ_self _
    rw [hrest]
    rw [successor] at hnext ⊢
    by_cases hl : on (2 * i + 1) = true
    · rw [if_pos hl] at hnext ⊢
      exact (hnext _ rfl).see (by rw [Place.step, if_pos hl]) (hon i hi)
    · rw [if_neg hl] at hnext ⊢
      by_cases hr : on (2 * i + 2) = true
      · rw [if_pos hr] at hnext ⊢
        exact (hnext _ rfl).see (by rw [Place.step, if_neg hl, if_pos hr]) (hon i hi)
      · rw [if_neg hr] at hnext ⊢
        rw [← afterward_eq_climb]
        exact (ends_finished (hon i hi) hnext).see (by rw [Place.step, if_neg hl, if_neg hr]) (hon i hi)

lemma ends_preorder (hon : ∀ i, on i = true → i < size) (h : on 0 = true) :
    Ends on size (.seen 0) (preorder on size 0) := by
  have hends := ends_seen hon h rfl
  have hafter : afterward on size 0 = [] := by
    rw [afterward, dif_neg (Nat.lt_irrefl 0)]
  rwa [hafter, List.append_nil] at hends

end InvertedIndex.Heap.Region
