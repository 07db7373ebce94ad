import InvertedIndex.Proofs.Heap.PriorityQueue
import InvertedIndex.Proofs.Heap.Region
import Mathlib.Logic.Equiv.Basic

namespace InvertedIndex.Heap

open Region (Below)

variable {α : Type u} {n : Nat} {before : α → α → Bool}

lemma closed_below (i : Nat) : Closed (Below i) := fun _ _ hc hp => hp.child hc

lemma get_swap (slots : Vector α n) {i j : Nat} (hi : i < n) (hj : j < n) (k : Fin n) :
    (slots.swap i j).get k = slots.get (Equiv.swap ⟨i, hi⟩ ⟨j, hj⟩ k) := by
  refine (Vector.getElem_swap hi hj k.isLt).trans ?_
  simp only [Equiv.swap_apply_def, Fin.ext_iff]
  split
  · rfl
  · split <;> rfl

lemma siftDown_moves_below (before : α → α → Bool) (slots : Vector α n) (i : Nat) : ∃ σ : Equiv.Perm (Fin n),
    (∀ j : Fin n, ¬ Below i j → σ j = j) ∧ ∀ j, (siftDown before slots i).get j = slots.get (σ j) := by
  fun_induction siftDown before slots i with
  | case1 slots i h child hlt hn hb ih =>
    obtain ⟨σ, hfix, hσ⟩ := ih
    have hi : i < n := by omega
    -- The rest of the way leads through the subtree of the child.
    have hchild : Below i child := Below.refl.child (isChild_firstChild slots i h)
    refine ⟨σ.trans (Equiv.swap ⟨i, hi⟩ ⟨child, hn⟩), fun j hj => ?_, fun j => ?_⟩
    · have hji : j ≠ ⟨i, hi⟩ := fun he => hj (he ▸ .refl)
      have hjc : j ≠ ⟨child, hn⟩ := fun he => hj (he ▸ hchild)
      rw [Equiv.trans_apply, hfix j fun hc => hj (hchild.trans hc), Equiv.swap_apply_of_ne_of_ne hji hjc]
    · rw [hσ, get_swap slots hi hn, Equiv.trans_apply]
  | case2 | case3 => exact ⟨Equiv.refl _, fun _ _ => rfl, fun _ => rfl⟩

lemma siftDownFrom_size (before : α → α → Bool) (heap : Heap α) (i : Nat) :
    (heap.siftDownFrom before i).size = heap.size := by
  rw [size, siftDownFrom, rearrange, Vector.size_toArray, size]

lemma siftDownFrom_moves_below (before : α → α → Bool) (heap : Heap α) (i : Nat) :
    ∃ σ : Equiv.Perm (Fin heap.slots.size), (∀ j : Fin heap.slots.size, ¬ Below i j → σ j = j) ∧
      ∀ j : Fin heap.slots.size, (heap.siftDownFrom before i).slots[j.val]? = heap.slots[(σ j).val]? := by
  obtain ⟨σ, hfix, hσ⟩ := siftDown_moves_below before heap.slots.toVector i
  refine ⟨σ, hfix, fun j => ?_⟩
  have hj : j.val < (heap.siftDownFrom before i).slots.size :=
    Nat.lt_of_lt_of_eq j.isLt (siftDownFrom_size before heap i).symm
  rw [Array.getElem?_eq_getElem hj, Array.getElem?_eq_getElem (σ j).isLt]
  exact congrArg some (hσ j)

/-- If a subtree is in order but for its topmost slot, sifting that one down brings it into order. The items of the
subtree change places among each other, and the other slots keep theirs. So a heap is brought into order from any
state, from the last slot with a child up to the first slot. Slots take up less than half of the addresses. -/
theorem siftDownAt_repairs_subtree (hw : IsWeakOrder before) (heap : Heap α) (hfits : 2 * heap.size < UInt64.size)
    (root : UInt64) (hroot : root.toNat < heap.size)
    (h : OrderedOn before (fun p => Below root.toNat p ∧ p ≠ root.toNat) heap.slots.toVector) :
    (∃ heap', heap.siftDownAt before root = .ok heap' ∧ heap'.size = heap.size ∧ heap'.capacity = heap.capacity ∧
      (∀ j, ¬ Below root.toNat j → heap'.slots[j]? = heap.slots[j]?) ∧
      (∃ σ : Equiv.Perm (Fin heap.slots.size), (∀ j : Fin heap.slots.size, ¬ Below root.toNat j → σ j = j) ∧
        ∀ j : Fin heap.slots.size, heap'.slots[j.val]? = heap.slots[(σ j).val]?) ∧
      OrderedOn before (Below root.toNat) heap'.slots.toVector) ∧
    ∀ other : Heap α, (other.heapify before).isHeap before = true := by
  refine ⟨?_, fun other => isHeap_iff.mpr (heapify_isOrdered hw other)⟩
  have hsift : heap.siftDownAt before root = .ok (heap.siftDownFrom before root.toNat) := if_pos (by omega)
  obtain ⟨σ, hfix, hmoved⟩ := siftDownFrom_moves_below before heap root.toNat
  refine ⟨_, hsift, siftDownFrom_size before heap root.toNat, rfl, fun j hout => ?_, ⟨σ, hfix, hmoved⟩, ?_⟩
  · by_cases hj : j < heap.size
    · have hkept := hmoved ⟨j, hj⟩
      rwa [hfix ⟨j, hj⟩ hout] at hkept
    · have hj' : ¬ j < (heap.siftDownFrom before root.toNat).size := by rwa [siftDownFrom_size]
      rw [Array.getElem?_eq_none (Nat.le_of_not_lt hj), Array.getElem?_eq_none (Nat.le_of_not_lt hj')]
  · apply heap.rearrange_orderedOn
    refine siftDown_orderedOn hw (closed_below root.toNat) heap.slots.toVector root.toNat .refl ⟨h, ?_⟩
    -- The parent of the topmost slot is not in its subtree.
    exact fun p c _ _ hp _ hin => absurd hp.lt (Nat.not_lt.mpr hin.le)

def outOfOrder : Heap (Nat × Nat) :=
  -- In order below slot 1; the last parent has no right child.
  ⟨#[(9, 0), (7, 1), (8, 2), (2, 3), (2, 4), (1, 5), (6, 6), (4, 7), (3, 8), (5, 9)], 12, by decide⟩

theorem siftDownAt_repairs_subtree_of_ties :
    ∃ heap, outOfOrder.siftDownAt keyBefore 1 = .ok heap ∧
      heap.toList = [(9, 0), (2, 3), (8, 2), (3, 8), (2, 4), (1, 5), (6, 6), (4, 7), (7, 1), (5, 9)] ∧
      OrderedOn keyBefore (Below 1) heap.slots.toVector ∧ heap.isHeap keyBefore = false ∧
      (heap.heapify keyBefore).isHeap keyBefore = true := by
  have hlist : (outOfOrder.siftDownAt keyBefore 1).map toList =
      .ok [(9, 0), (2, 3), (8, 2), (3, 8), (2, 4), (1, 5), (6, 6), (4, 7), (7, 1), (5, 9)] := by decide +kernel
  have hout : (outOfOrder.siftDownAt keyBefore 1).map (isHeap keyBefore) = .ok false := by decide +kernel
  have hready : OrderedOn keyBefore (fun p => Below 1 p ∧ p ≠ 1) outOfOrder.slots.toVector := by
    rintro p c - (hc : c < 10) hpc ⟨hbelow, hne⟩
    have hle := hbelow.le
    have hsibling : p ≠ 2 := by
      rintro rfl
      exact Region.not_below_sibling 0 hbelow
    rw [IsChild] at hpc
    obtain ⟨rfl, rfl⟩ | ⟨rfl, rfl⟩ | ⟨rfl, rfl⟩ : p = 3 ∧ c = 7 ∨ p = 3 ∧ c = 8 ∨ p = 4 ∧ c = 9 := by omega
    all_goals rfl
  obtain ⟨⟨heap, hsift, -, -, -, -, hordered⟩, hheapify⟩ :=
    siftDownAt_repairs_subtree keyBefore_isWeakOrder outOfOrder (by decide) 1 (by decide) hready
  rw [hsift] at hlist hout
  exact ⟨heap, hsift, Except.ok.inj hlist, hordered, Except.ok.inj hout, hheapify heap⟩

end InvertedIndex.Heap
