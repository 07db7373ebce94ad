import InvertedIndex.Term
import Mathlib.Tactic.Lemma

namespace InvertedIndex.Term

lemma compare_eq_compareLex : (compare : Term → Term → Ordering) = compareLex (compareOn field) (compareOn text) := by
  funext a b
  rfl

instance : Std.TransCmp (α := Term) compare := by
  rw [compare_eq_compareLex]
  infer_instance

instance : Std.LawfulEqCmp (α := Term) compare where
  compare_self {a} := Std.ReflCmp.compare_self
  eq_of_compare {a b} h := by
    obtain ⟨hfield, htext⟩ := Ordering.then_eq_eq.mp h
    cases a
    cases b
    congr
    · exact Std.LawfulEqCmp.eq_of_compare hfield
    · exact Std.LawfulEqCmp.eq_of_compare htext

lemma ne_of_lt {a b : Term} (h : compare a b = .lt) : a ≠ b := by
  rintro rfl
  have heq : compare a a = .eq := Std.ReflCmp.compare_self
  rw [heq] at h
  cases h

end InvertedIndex.Term
