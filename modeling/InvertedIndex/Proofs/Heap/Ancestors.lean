import InvertedIndex.Proofs.Heap.PriorityQueue
import InvertedIndex.Proofs.Heap.Region

namespace InvertedIndex.Heap

variable {α : Type u} {before : α → α → Bool} {heap : Heap α}

def tiesFront (before : α → α → Bool) (heap : Heap α) (i : Nat) : Bool :=
  heap.slots[i]?.any fun item => heap.peek?.any fun front => !before item front && !before front item

lemma tiesFront_iff {i : Nat} : heap.tiesFront before i = true ↔
    ∃ (_ : 0 < heap.slots.size) (_ : i < heap.slots.size),
      before heap.slots[i] heap.slots[0] = false ∧ before heap.slots[0] heap.slots[i] = false := by
  simp only [tiesFront, peek?, Option.any_eq_true, Array.getElem?_eq_some_iff, Bool.and_eq_true, Bool.not_eq_true']
  constructor
  · rintro ⟨_, ⟨hi, rfl⟩, _, ⟨h0, rfl⟩, hties⟩
    exact ⟨h0, hi, hties⟩
  · rintro ⟨h0, hi, hties⟩
    exact ⟨_, ⟨hi, rfl⟩, _, ⟨h0, rfl⟩, hties⟩

lemma lt_size_of_tiesFront {i : Nat} (h : heap.tiesFront before i = true) : i < heap.size := by
  obtain ⟨-, hi, -⟩ := tiesFront_iff.mp h
  exact hi

lemma tiesFront_zero (hw : IsWeakOrder before) (h : 0 < heap.slots.size) : heap.tiesFront before 0 = true :=
  tiesFront_iff.mpr ⟨h, h, hw.irrefl _, hw.irrefl _⟩

lemma isOrdered_iff_ancestors (hw : IsWeakOrder before) : heap.IsOrdered before ↔
    ∀ a i (_ : a < heap.slots.size) (_ : i < heap.slots.size), a ∈ ancestors i →
      before heap.slots[i] heap.slots[a] = false := by
  constructor
  · intro h a i ha hi hai
    exact h.not_before_ancestor hw hai ha hi
  · intro h i hi hpos
    exact h (parent i) i (Nat.lt_trans (parent_lt hpos) hi) hi (parent_mem_ancestors hpos)

lemma IsOrdered.tiesFront_parent (hw : IsWeakOrder before) (h : heap.IsOrdered before) {p c : Nat} (hpc : IsChild p c)
    (hc : heap.tiesFront before c = true) : heap.tiesFront before p = true := by
  obtain ⟨h0, hlt, -, hfront⟩ := tiesFront_iff.mp hc
  have hp : p < heap.slots.size := Nat.lt_trans hpc.lt hlt
  have hparent : before heap.slots[c] heap.slots[p] = false := isOrdered_iff.mp h p c hp hlt hpc
  -- The front item is not before the child, nor the child before its parent.
  exact tiesFront_iff.mpr ⟨h0, hp, front_least hw h h0 p hp, hw.not_before_trans hparent hfront⟩

lemma IsOrdered.walk_tiesFront_perm (hw : IsWeakOrder before) (h : heap.IsOrdered before) :
    (Region.walk (heap.tiesFront before) heap.size).Perm
      ((List.range heap.size).filter (heap.tiesFront before)) := by
  rcases Nat.eq_zero_or_pos heap.size with hzero | hpos
  · rw [hzero]
    exact .nil
  · exact Region.walk_perm_filter (fun _ => lt_size_of_tiesFront) (fun _ _ => h.tiesFront_parent hw)
      (tiesFront_zero hw hpos)

/-- The check looks at parents only, and passes exactly if no slot comes before any of its ancestors. No slot then comes
before the front one, and the slots that tie with the front one hang together: the walk from there sees each of them
once, and no other slot. -/
theorem isHeap_iff_not_before_ancestors (hw : IsWeakOrder before) (heap : Heap α) :
    (heap.isHeap before = true ↔
      ∀ a i (_ : a < heap.slots.size) (_ : i < heap.slots.size), a ∈ ancestors i →
        before heap.slots[i] heap.slots[a] = false) ∧
    (heap.isHeap before = true →
      (∀ i (_ : 0 < heap.slots.size) (_ : i < heap.slots.size), before heap.slots[i] heap.slots[0] = false) ∧
      (∀ i, 0 < i → heap.tiesFront before i = true → heap.tiesFront before (parent i) = true) ∧
      (Region.walk (heap.tiesFront before) heap.size).Perm
        ((List.range heap.size).filter (heap.tiesFront before))) := by
  refine ⟨isHeap_iff.trans (isOrdered_iff_ancestors hw), fun hheap => ?_⟩
  have ho := isHeap_iff.mp hheap
  refine ⟨fun i h0 hi => front_least hw ho h0 i hi, fun i hpos hi => ?_, ho.walk_tiesFront_perm hw⟩
  exact ho.tiesFront_parent hw (isChild_iff.mpr ⟨hpos, rfl⟩) hi

/-- Transitivity alone would not do: here slot 3 comes before slot 0, and neither is told apart from slot 1. -/
example : isHeap (fun a b => decide (a + 1 < b)) ⟨#[2, 1, 3, 0], 4, Nat.le_refl 4⟩ = true := by decide +kernel

def tiedFront : Heap (Nat × Nat) :=
  ⟨#[(1, 0), (1, 1), (1, 2), (1, 3), (4, 4), (2, 5), (1, 6), (1, 7), (3, 8), (4, 9), (5, 10), (2, 11), (3, 12), (1, 13),
    (6, 14), (1, 15)], 20, by decide⟩

def deepDisorder : Heap (Nat × Nat) :=
  -- Out of order at slot 9 only, which comes before slots 1 and 4.
  ⟨#[(1, 0), (3, 1), (2, 2), (3, 3), (4, 4), (2, 5), (5, 6), (3, 7), (3, 8), (2, 9)], 10, Nat.le_refl 10⟩

theorem isHeap_iff_not_before_ancestors_of_ties :
    tiedFront.isHeap keyBefore = true ∧ ancestors 15 = [7, 3, 1, 0] ∧
    (∀ a i (_ : a < 16) (_ : i < 16), a ∈ ancestors i → keyBefore tiedFront.slots[i] tiedFront.slots[a] = false) ∧
    (∀ i (_ : i < 16), keyBefore tiedFront.slots[i] tiedFront.slots[0] = false) ∧
    (∀ i, 0 < i → tiedFront.tiesFront keyBefore i = true → tiedFront.tiesFront keyBefore (parent i) = true) ∧
    (Region.walk (tiedFront.tiesFront keyBefore) 16).Perm [0, 1, 2, 3, 6, 7, 13, 15] ∧
    1 ∈ ancestors 9 ∧ keyBefore deepDisorder.slots[9] deepDisorder.slots[1] = true ∧
    deepDisorder.isHeap keyBefore = false := by
  have hheap : tiedFront.isHeap keyBefore = true := by decide +kernel
  have hties : (List.range 16).filter (tiedFront.tiesFront keyBefore) = [0, 1, 2, 3, 6, 7, 13, 15] := by decide +kernel
  obtain ⟨hall, hfacts⟩ := isHeap_iff_not_before_ancestors keyBefore_isWeakOrder tiedFront
  obtain ⟨hfront, hup, hwalk⟩ := hfacts hheap
  have habove : 1 ∈ ancestors 9 := by decide +kernel
  have hbefore : keyBefore deepDisorder.slots[9] deepDisorder.slots[1] = true := rfl
  refine ⟨hheap, by decide +kernel, hall.mp hheap, fun i => hfront i (by decide), hup, hties ▸ hwalk, habove, hbefore,
    ?_⟩
  rw [Bool.eq_false_iff]
  intro hordered
  have hnot := (isHeap_iff_not_before_ancestors keyBefore_isWeakOrder deepDisorder).1.mp hordered 1 9 (by decide)
    (by decide) habove
  rw [hbefore] at hnot
  cases hnot

end InvertedIndex.Heap
