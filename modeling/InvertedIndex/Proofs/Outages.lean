import InvertedIndex.Error
import Mathlib.Data.List.Basic
import Mathlib.Data.Set.Card
import Mathlib.Data.Set.Finite.List

namespace InvertedIndex.Outages

def failures (o : Outages) (calls : Nat) : List Error := (List.range calls).filterMap o

lemma failures_succ (o : Outages) (calls : Nat) :
    o.failures (calls + 1) = o.failures calls ++ (o calls).toList := by
  rw [failures, failures, List.range_succ, List.filterMap_append]
  cases h : o calls <;> simp [h]

noncomputable def toCome (o : Outages) (calls : Nat) : ℕ∞ := {n | calls ≤ n ∧ o n ≠ .none}.encard

lemma toCome_none (calls : Nat) : none.toCome calls = 0 := by
  simp [toCome, none]

lemma toCome_ofCalls_ne_top (calls : List Nat) (e : Error) (call : Nat) : (ofCalls calls e).toCome call ≠ ⊤ := by
  refine Set.encard_ne_top_iff.mpr (calls.finite_toSet.subset fun n hn => ?_)
  by_contra hnot
  exact hn.2 (if_neg (by simpa using hnot))

lemma toCome_succ_le (o : Outages) (calls : Nat) : o.toCome (calls + 1) ≤ o.toCome calls :=
  Set.encard_le_encard fun _ hn => ⟨Nat.le_of_succ_le hn.1, hn.2⟩

lemma toCome_succ_add_one {o : Outages} {calls : Nat} {e : Error} (h : o calls = some e) :
    o.toCome (calls + 1) + 1 = o.toCome calls := by
  have hset : {n | calls ≤ n ∧ o n ≠ .none} = insert calls {n | calls + 1 ≤ n ∧ o n ≠ .none} := by
    ext n
    rw [Set.mem_insert_iff, Set.mem_ofPred_eq, Set.mem_ofPred_eq]
    constructor
    · rintro ⟨hle, hn⟩
      exact (Nat.eq_or_lt_of_le hle).imp Eq.symm fun hlt => ⟨hlt, hn⟩
    · rintro (rfl | ⟨hlt, hn⟩)
      · exact ⟨Nat.le_refl _, by simp [h]⟩
      · exact ⟨Nat.le_of_succ_le hlt, hn⟩
  rw [toCome, toCome, hset, Set.encard_insert_of_notMem fun hn => Nat.not_succ_le_self _ hn.1]

end InvertedIndex.Outages
