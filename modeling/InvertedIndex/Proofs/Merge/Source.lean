import InvertedIndex.MergeQueue
import InvertedIndex.Proofs.Heap.Operations
import InvertedIndex.Proofs.Term
import InvertedIndex.Proofs.Utf8

namespace InvertedIndex.MergeSource

open Heap

variable {C : Type} [TermCursor C]

def place (t : Term) (s : MergeSource C) : Term × UInt64 := (t, s.origin)

def comparePlaces : Term × UInt64 → Term × UInt64 → Ordering := compareLex (compareOn Prod.fst) (compareOn Prod.snd)

instance : Std.TransCmp comparePlaces := inferInstanceAs (Std.TransCmp (compareLex _ _))

lemma comparePlaces_eq_iff {p q : Term × UInt64} : comparePlaces p q = .eq ↔ p = q := by
  have hterm : compare p.1 q.1 = .eq ↔ p.1 = q.1 := Std.LawfulEqCmp.compare_eq_iff_eq
  have horigin : compare p.2 q.2 = .eq ↔ p.2 = q.2 := Std.LawfulEqCmp.compare_eq_iff_eq
  exact Ordering.then_eq_eq.trans ((and_congr hterm horigin).trans Prod.ext_iff.symm)

variable {a b c : MergeSource C} {x y : Term}

lemma before_some (ha : a.term? = some x) (hb : b.term? = some y) :
    before a b = true ↔ comparePlaces (place x a) (place y b) = .lt := by
  rw [before, ha, hb]
  exact beq_iff_eq

lemma before_none_right (ha : a.term? = some x) (hb : b.term? = none) : before a b = true := by
  rw [before, ha, hb]

lemma before_none_left (ha : a.term? = none) : before a b = false := by
  rw [before, ha]

lemma incomparable_iff : before a b = false ∧ before b a = false ↔
    a.term? = none ∧ b.term? = none ∨
      ∃ x y, a.term? = some x ∧ b.term? = some y ∧ comparePlaces (place x a) (place y b) = .eq := by
  cases ha : a.term? with
  | none =>
    cases hb : b.term? with
    | none => simp [before_none_left ha, before_none_left hb]
    | some y => simp [before_none_right hb ha]
  | some x =>
    cases hb : b.term? with
    | none => simp [before_none_right ha hb]
    | some y =>
      rw [Bool.eq_false_iff, Bool.eq_false_iff, ne_eq, ne_eq, before_some ha hb, before_some hb ha]
      have hswap : comparePlaces (place y b) (place x a) = (comparePlaces (place x a) (place y b)).swap :=
        Std.OrientedCmp.eq_swap
      rw [hswap]
      cases hc : comparePlaces (place x a) (place y b) <;> simp [hc]

lemma before_isWeakOrder : IsWeakOrder (before (C := C)) where
  irrefl a := by
    rw [(incomparable_iff.mpr ?_).1]
    · exact Bool.false_ne_true
    · cases ha : a.term? with
      | none => exact Or.inl ⟨rfl, rfl⟩
      | some x => exact Or.inr ⟨x, x, rfl, rfl, Std.ReflCmp.compare_self⟩
  trans a b c hab hbc := by
    cases ha : a.term? with
    | none => simp [before_none_left ha] at hab
    | some x =>
      cases hb : b.term? with
      | none => simp [before_none_left hb] at hbc
      | some y =>
        cases hc : c.term? with
        | none => exact before_none_right ha hc
        | some z =>
          rw [before_some ha hb] at hab
          rw [before_some hb hc] at hbc
          exact (before_some ha hc).mpr (Std.TransCmp.lt_trans hab hbc)
  incomp_trans a b c hab hbc := by
    simp only [Bool.not_eq_true, incomparable_iff] at hab hbc ⊢
    rcases hab with ⟨ha, hb⟩ | ⟨x, y, ha, hb, hxy⟩
    · rcases hbc with ⟨-, hc⟩ | ⟨y, z, hb', -⟩
      · exact Or.inl ⟨ha, hc⟩
      · rw [hb] at hb'
        cases hb'
    · rcases hbc with ⟨hb', -⟩ | ⟨y', z, hb', hc, hyz⟩
      · rw [hb] at hb'
        cases hb'
      · obtain rfl : y = y' := Option.some.inj (hb.symm.trans hb')
        exact Or.inr ⟨x, z, ha, hc, Std.TransCmp.eq_trans hxy hyz⟩

lemma le_of_not_before (ha : a.term? = some x) (hb : b.term? = some y) (h : before b a = false) :
    (compare x y).isLE = true := by
  have hplace : comparePlaces (place y b) (place x a) ≠ .lt := by
    rw [ne_eq, ← before_some hb ha, h]
    exact Bool.false_ne_true
  have hswap : compare x y = (compare y x).swap := Std.OrientedCmp.eq_swap
  rw [hswap]
  cases hc : compare y x with
  | lt => exact absurd (by rw [comparePlaces, compareLex, compareOn, place, place, hc, Ordering.lt_then]) hplace
  | eq => rfl
  | gt => rfl

lemma origin_le_of_not_before (ha : a.term? = some x) (hb : b.term? = some x) (h : before b a = false) :
    a.origin ≤ b.origin := by
  have hplace : comparePlaces (place x b) (place x a) ≠ .lt := by
    rw [ne_eq, ← before_some hb ha, h]
    exact Bool.false_ne_true
  have heq : comparePlaces (place x b) (place x a) = compare b.origin a.origin := by
    have hx : compare x x = .eq := Std.ReflCmp.compare_self
    rw [comparePlaces, compareLex, compareOn, place, place, hx]
    rfl
  rw [heq, ne_eq, Std.compare_eq_lt] at hplace
  exact UInt64.not_lt.mp hplace

/-- The order of the terms is total, by the bytes of the field and then of the text, which are in the order of the code
points. That of the sources is weak, exhausted ones included, and only equal terms of equal origins are tied in it, and
all exhausted sources. -/
theorem merge_order_lawful (C : Type) [TermCursor C] :
    (∀ s t : String, compare (Utf8.bytes s) (Utf8.bytes t) = compare (Utf8.codePoints s) (Utf8.codePoints t)) ∧
    (∀ x y : Term, compare x y =
      (compare (Utf8.bytes x.field) (Utf8.bytes y.field)).then (compare (Utf8.bytes x.text) (Utf8.bytes y.text))) ∧
    (∀ x y : Term, compare y x = (compare x y).swap) ∧
    (∀ x y z : Term, (compare x y).isLE → (compare y z).isLE → (compare x z).isLE) ∧
    (∀ x y : Term, compare x y = .eq ↔ x.field = y.field ∧ x.text = y.text) ∧
    IsWeakOrder (before (C := C)) ∧
    ∀ a b : MergeSource C, before a b = false ∧ before b a = false ↔
      a.term? = none ∧ b.term? = none ∨
        (∃ t, a.term? = some t ∧ b.term? = some t) ∧ a.origin = b.origin := by
  refine ⟨Utf8.compare_bytes, fun x y => ?_, fun _ _ => Std.OrientedCmp.eq_swap, fun _ _ _ => Std.TransCmp.isLE_trans,
    fun x y => ?_, before_isWeakOrder, fun a b => ?_⟩
  · simp only [Utf8.compare_bytes, Utf8.compare_codePoints]
    rfl
  · have htext (s t : String) : compare s t = .eq ↔ s = t := Std.LawfulEqCmp.compare_eq_iff_eq
    exact Ordering.then_eq_eq.trans (and_congr (htext _ _) (htext _ _))
  · simp only [incomparable_iff, comparePlaces_eq_iff, place, Prod.mk.injEq]
    constructor
    · rintro (hnone | ⟨x, _, ha, hb, rfl, horigin⟩)
      · exact .inl hnone
      · exact .inr ⟨⟨x, ha, hb⟩, horigin⟩
    · rintro (hnone | ⟨⟨t, ha, hb⟩, horigin⟩)
      · exact .inl hnone
      · exact .inr ⟨t, t, ha, hb, rfl, horigin⟩

end InvertedIndex.MergeSource
