import InvertedIndex.Fault
import Mathlib.Data.List.Basic

namespace InvertedIndex.Count

@[simp] lemma total_nil : total [] = 0 := rfl

@[simp] lemma total_cons (n : Nat) (ns : List Nat) : total (n :: ns) = n + total ns := rfl

@[simp] lemma total_append (ms ns : List Nat) : total (ms ++ ns) = total ms + total ns := by
  induction ms with
  | nil => simp
  | cons m ms ih => simp [ih, Nat.add_assoc]

lemma total_ones {α : Type u} (xs : List α) : total (xs.map fun _ => 1) = xs.length := by
  induction xs with
  | nil => rfl
  | cons x xs ih => rw [List.map_cons, total_cons, ih, List.length_cons, Nat.add_comm]

lemma total_perm {ms ns : List Nat} (h : ms.Perm ns) : total ms = total ns := by
  induction h with
  | nil => rfl
  | cons n _ ih => simp [ih]
  | swap m n ns => simp [Nat.add_left_comm]
  | trans _ _ ih₁ ih₂ => exact ih₁.trans ih₂

lemma total_sublist {ms ns : List Nat} (h : ms.Sublist ns) : total ms ≤ total ns := by
  induction h with
  | slnil => exact Nat.le_refl 0
  | cons n _ ih => exact Nat.le_add_left_of_le ih
  | cons_cons n _ ih => exact Nat.add_le_add_left ih n

lemma total_map_add {α : Type u} (f g : α → Nat) (xs : List α) :
    total (xs.map fun x => f x + g x) = total (xs.map f) + total (xs.map g) := by
  induction xs with
  | nil => rfl
  | cons x xs ih =>
    simp only [List.map_cons, total_cons, ih]
    omega

lemma ofNat_eq_ok {n : Nat} (h : n < UInt64.size) : ofNat n = .ok n.toUInt64 := if_pos h

lemma ofNat_eq_ok_iff {n : Nat} {m : UInt64} : ofNat n = .ok m ↔ m.toNat = n := by
  rw [ofNat]
  constructor
  · intro h
    split at h
    · next hlt =>
      obtain rfl := Except.ok.inj h
      exact UInt64.toNat_ofNat_of_lt' hlt
    · cases h
  · rintro rfl
    rw [if_pos m.toNat_lt_size]
    exact congrArg Except.ok UInt64.ofNat_toNat

lemma eq_of_ofNat_eq_error {n : Nat} {x : Fault} (h : ofNat n = .error x) : x = .sumOverflow := by
  rw [ofNat] at h
  split at h
  · cases h
  · exact (Except.error.inj h).symm

lemma sum_eq_ok {ns : List UInt64} (h : total (ns.map UInt64.toNat) < UInt64.size) :
    sum ns = .ok (total (ns.map UInt64.toNat)).toUInt64 := ofNat_eq_ok h

lemma sum_perm {ms ns : List UInt64} (h : ms.Perm ns) : sum ms = sum ns :=
  congrArg ofNat (total_perm (h.map UInt64.toNat))

end InvertedIndex.Count
