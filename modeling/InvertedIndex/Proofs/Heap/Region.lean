import InvertedIndex.Heap.Region
import InvertedIndex.Proofs.Heap.Sift
import Mathlib.Data.List.Nodup
import Mathlib.Data.List.Perm.Subperm

namespace InvertedIndex.Heap.Region

variable {on : Nat → Bool} {size : Nat}

def preorder (on : Nat → Bool) (size i : Nat) : List Nat :=
  if _h : i < size ∧ on i = true then i :: (preorder on size (2 * i + 1) ++ preorder on size (2 * i + 2)) else []
termination_by size - i

lemma preorder_of_on (hon : ∀ i, on i = true → i < size) {i : Nat} (h : on i = true) :
    preorder on size i = i :: (preorder on size (2 * i + 1) ++ preorder on size (2 * i + 2)) := by
  rw [preorder, dif_pos ⟨hon i h, h⟩]

lemma preorder_of_not_on {i : Nat} (h : ¬ on i = true) : preorder on size i = [] := by
  rw [preorder, dif_neg fun hi => h hi.2]

lemma on_of_mem_preorder {i j : Nat} (h : j ∈ preorder on size i) : j < size ∧ on j = true := by
  fun_induction preorder on size i with
  | case1 i hi ihl ihr =>
    rcases List.mem_cons.mp h with rfl | h
    · exact hi
    · exact (List.mem_append.mp h).elim ihl ihr
  | case2 i hi => exact absurd h List.not_mem_nil

def afterward (on : Nat → Bool) (size i : Nat) : List Nat :=
  if _h : 0 < i then
    (if i % 2 = 1 then preorder on size (i + 1) else []) ++ afterward on size (parent i)
  else []
termination_by i
decreasing_by exact parent_lt _h

lemma afterward_left (i : Nat) :
    afterward on size (2 * i + 1) = preorder on size (2 * i + 2) ++ afterward on size i := by
  rw [afterward, dif_pos (by omega), if_pos (by omega)]
  congr 2
  rw [parent]
  omega

lemma afterward_right (i : Nat) : afterward on size (2 * i + 2) = afterward on size i := by
  rw [afterward, dif_pos (by omega), if_neg (by omega), List.nil_append]
  congr 1
  rw [parent]
  omega

lemma on_of_climb {i j : Nat} (h : climb on i = some j) : on j = true := by
  fun_induction climb on i with
  | case1 i hi hr => exact Option.some.inj h ▸ hr.2
  | case2 i hi hr ih => exact ih h
  | case3 i hi => cases h

lemma afterward_eq_climb (i : Nat) : afterward on size i =
    (climb on i).elim [] fun j => preorder on size j ++ afterward on size j := by
  fun_induction climb on i with
  | case1 i hi hr =>
    obtain ⟨k, rfl⟩ : ∃ k, i = 2 * k + 1 := ⟨i / 2, by omega⟩
    rw [afterward_left, Option.elim_some, afterward_right]
  | case2 i hi hr ih =>
    rw [afterward, dif_pos hi, ih]
    by_cases hodd : i % 2 = 1
    · rw [if_pos hodd, preorder_of_not_on fun h => hr ⟨hodd, h⟩, List.nil_append]
    · rw [if_neg hodd, List.nil_append]
  | case3 i hi =>
    rw [afterward, dif_neg hi]
    rfl

lemma successor_spec (hon : ∀ i, on i = true → i < size) {i : Nat} (h : on i = true) :
    preorder on size i ++ afterward on size i =
      i :: (successor on i).elim [] (fun j => preorder on size j ++ afterward on size j) ∧
    ∀ j, successor on i = some j → on j = true := by
  rw [preorder_of_on hon h, successor]
  by_cases hl : on (2 * i + 1) = true
  · rw [if_pos hl, Option.elim_some, afterward_left]
    exact ⟨by simp, fun j hj => Option.some.inj hj ▸ hl⟩
  · rw [if_neg hl, preorder_of_not_on hl, List.nil_append]
    by_cases hr : on (2 * i + 2) = true
    · rw [if_pos hr, Option.elim_some, afterward_right]
      exact ⟨rfl, fun j hj => Option.some.inj hj ▸ hr⟩
    · rw [if_neg hr, preorder_of_not_on hr, ← afterward_eq_climb]
      exact ⟨rfl, fun j => on_of_climb⟩

lemma walkFrom_eq (hon : ∀ i, on i = true → i < size) (limit : Nat) {i : Nat} (h : on i = true) :
    walkFrom on limit i = (preorder on size i ++ afterward on size i).take limit := by
  induction limit generalizing i with
  | zero => rfl
  | succ limit ih =>
    obtain ⟨hnext, hin⟩ := successor_spec hon h
    rw [hnext, List.take_succ_cons, walkFrom]
    cases hs : successor on i with
    | none => rw [Option.elim_none, Option.elim_none, List.take_nil]
    | some j => rw [Option.elim_some, Option.elim_some, ih (hin j hs)]

inductive Below (i : Nat) : Nat → Prop
  | refl : Below i i
  | child {p c : Nat} : Below i p → IsChild p c → Below i c

lemma Below.le {i j : Nat} (h : Below i j) : i ≤ j := by
  induction h with
  | refl => exact Nat.le_refl i
  | child _ hc ih => exact Nat.le_trans ih (Nat.le_of_lt hc.lt)

lemma Below.trans {i j k : Nat} (hij : Below i j) (hjk : Below j k) : Below i k := by
  induction hjk with
  | refl => exact hij
  | child _ hc ih => exact ih.child hc

lemma Below.comparable {i j k : Nat} (hi : Below i k) (hj : Below j k) : Below i j ∨ Below j i := by
  induction hi with
  | refl => exact Or.inr hj
  | @child p c hp hc ih =>
    cases hj with
    | refl => exact Or.inl (hp.child hc)
    | @child p' c hp' hc' =>
      obtain rfl := hc.parent_unique hc'
      exact ih hp'

lemma not_below_sibling (i : Nat) : ¬ Below (2 * i + 1) (2 * i + 2) := by
  generalize hj : 2 * i + 2 = j
  rintro (_ | ⟨hp, hc⟩)
  · omega
  · have hle := hp.le
    rcases hc with hc | hc <;> omega

lemma below_of_mem_preorder {i j : Nat} (h : j ∈ preorder on size i) : Below i j := by
  fun_induction preorder on size i with
  | case1 i hi ihl ihr =>
    rcases List.mem_cons.mp h with rfl | h
    · exact .refl
    · rcases List.mem_append.mp h with hl | hr
      · exact (Below.refl.child (Or.inl rfl)).trans (ihl hl)
      · exact (Below.refl.child (Or.inr rfl)).trans (ihr hr)
  | case2 i hi => exact absurd h List.not_mem_nil

lemma nodup_preorder (i : Nat) : (preorder on size i).Nodup := by
  fun_induction preorder on size i with
  | case1 i hi ihl ihr =>
    refine List.nodup_cons.mpr ⟨fun h => ?_, List.nodup_append.mpr ⟨ihl, ihr, ?_⟩⟩
    · rcases List.mem_append.mp h with hl | hr
      · have hle := (below_of_mem_preorder hl).le
        omega
      · have hle := (below_of_mem_preorder hr).le
        omega
    · rintro j hl _ hr rfl
      rcases (below_of_mem_preorder hl).comparable (below_of_mem_preorder hr) with h | h
      · exact not_below_sibling i h
      · have hle := h.le
        omega
  | case2 i hi => exact List.nodup_nil

lemma length_preorder_le (i : Nat) : (preorder on size i).length ≤ size := by
  have hsub : preorder on size i ⊆ List.range size := fun j hj => List.mem_range.mpr (on_of_mem_preorder hj).1
  have hlen := (List.subperm_of_subset (nodup_preorder i) hsub).length_le
  rwa [List.length_range] at hlen

lemma walk_eq_preorder (hon : ∀ i, on i = true → i < size) (h : on 0 = true) : walk on size = preorder on size 0 := by
  have hafter : afterward on size 0 = [] := by
    rw [afterward, dif_neg (Nat.lt_irrefl 0)]
  rw [walk, walkFrom_eq hon size h, hafter, List.append_nil, List.take_of_length_le (length_preorder_le 0)]

lemma walk_eq_singleton (hon : ∀ i, on i = false) (h : 0 < size) : walk on size = [0] := by
  obtain ⟨limit, rfl⟩ := Nat.exists_eq_add_one_of_ne_zero (Nat.ne_of_gt h)
  have hclimb : climb on 0 = none := by rw [climb, dif_neg (Nat.lt_irrefl 0)]
  simp [walk, walkFrom, successor, hon, hclimb]

lemma mem_preorder_child (hon : ∀ i, on i = true → i < size) {i p c : Nat} (hp : p ∈ preorder on size i)
    (hpc : IsChild p c) (hc : on c = true) : c ∈ preorder on size i := by
  fun_induction preorder on size i with
  | case1 i hi ihl ihr =>
    refine List.mem_cons_of_mem i (List.mem_append.mpr ?_)
    rcases List.mem_cons.mp hp with rfl | hp
    · rcases hpc with rfl | rfl
      · left
        rw [preorder_of_on hon hc]
        exact List.mem_cons_self
      · right
        rw [preorder_of_on hon hc]
        exact List.mem_cons_self
    · exact (List.mem_append.mp hp).imp ihl ihr
  | case2 i hi => exact absurd hp List.not_mem_nil

lemma mem_preorder_zero_iff (hon : ∀ i, on i = true → i < size)
    (hup : ∀ p c, IsChild p c → on c = true → on p = true) {j : Nat} : j ∈ preorder on size 0 ↔ on j = true := by
  refine ⟨fun h => (on_of_mem_preorder h).2, fun h => ?_⟩
  induction j using Nat.strongRecOn with
  | ind j ih =>
    by_cases hj : 0 < j
    · have hpc := isChild_iff.mpr ⟨hj, rfl⟩
      exact mem_preorder_child hon (ih (parent j) (parent_lt hj) (hup _ _ hpc h)) hpc h
    · obtain rfl : j = 0 := by omega
      rw [preorder_of_on hon h]
      exact List.mem_cons_self

lemma walk_perm_filter (hon : ∀ i, on i = true → i < size) (hup : ∀ p c, IsChild p c → on c = true → on p = true)
    (h : on 0 = true) : (walk on size).Perm ((List.range size).filter on) := by
  rw [walk_eq_preorder hon h]
  refine (List.perm_ext_iff_of_nodup (nodup_preorder 0) (List.nodup_range.filter _)).mpr fun i => ?_
  rw [mem_preorder_zero_iff hon hup, List.mem_filter, List.mem_range]
  exact ⟨fun hi => ⟨hon i hi, hi⟩, And.right⟩

end InvertedIndex.Heap.Region
