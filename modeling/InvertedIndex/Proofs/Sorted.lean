import InvertedIndex.Sorted
import Mathlib.Data.List.Basic
import Mathlib.Data.Nat.Init

namespace InvertedIndex.Sorted

variable {α : Type u} {κ : Type v}

section Firsts

variable [BEq κ] (key : α → κ)

lemma firstsAfter_sublist (k : κ) (xs : List α) : (firstsAfter key k xs).Sublist xs := by
  induction xs generalizing k with
  | nil => exact .slnil
  | cons a xs ih =>
    rw [firstsAfter]
    split
    · exact (ih k).cons a
    · exact (ih (key a)).cons_cons a

lemma firsts_sublist (xs : List α) : (firsts key xs).Sublist xs := by
  cases xs with
  | nil => exact .slnil
  | cons a xs => exact (firstsAfter_sublist key (key a) xs).cons_cons a

lemma mem_of_mem_ofList [Ord κ] {a : α} {xs : List α} (h : a ∈ ofList key xs) : a ∈ xs :=
  List.mem_mergeSort.mp ((firsts_sublist key _).subset h)

variable {key} [LawfulBEq κ]

lemma find?_firstsAfter {j k : κ} (hjk : j ≠ k) (xs : List α) :
    (firstsAfter key j xs).find? (key · == k) = xs.find? (key · == k) := by
  induction xs generalizing j with
  | nil => rfl
  | cons a xs ih =>
    by_cases ha : key a = k
    · simp [firstsAfter, ha, hjk.symm]
    · by_cases haj : key a = j
      · simp [firstsAfter, haj, ih hjk, hjk]
      · simp [firstsAfter, haj, ih ha, ha]

lemma find?_firsts (k : κ) (xs : List α) : (firsts key xs).find? (key · == k) = xs.find? (key · == k) := by
  cases xs with
  | nil => rfl
  | cons a xs =>
    by_cases ha : key a = k
    · simp [firsts, ha]
    · simp [firsts, ha, find?_firstsAfter ha]

end Firsts

section Distinct

variable [Ord κ] (key : α → κ)

def Increasing (xs : List α) : Prop := xs.Pairwise fun a b => compare (key a) (key b) = .lt

variable {key}

lemma Increasing.nodup [Std.ReflCmp (α := κ) compare] {xs : List α} (h : Increasing key xs) : xs.Nodup := by
  refine List.Pairwise.imp ?_ h
  rintro a b hab rfl
  simp [Std.ReflCmp.compare_self] at hab

lemma Increasing.eq_of_mem_iff [Std.TransCmp (α := κ) compare] {xs ys : List α} (hx : Increasing key xs)
    (hy : Increasing key ys) (h : ∀ a, a ∈ xs ↔ a ∈ ys) : xs = ys := by
  refine List.Perm.eq_of_pairwise ?_ hx hy ((List.perm_ext_iff_of_nodup hx.nodup hy.nodup).mpr h)
  intro a b _ _ hab hba
  have hgt := Std.OrientedCmp.gt_of_lt hab
  rw [hba] at hgt
  cases hgt

def notAfter (key : α → κ) (a b : α) : Bool := (compare (key a) (key b)).isLE

section Order

variable [Std.TransCmp (α := κ) compare]

lemma notAfter_trans (a b c : α) (hab : notAfter key a b = true) (hbc : notAfter key b c = true) :
    notAfter key a c = true :=
  Std.TransCmp.isLE_trans hab hbc

lemma notAfter_total (a b : α) : (notAfter key a b || notAfter key b a) = true := by
  simp only [notAfter]
  have hswap : compare (key b) (key a) = (compare (key a) (key b)).swap := Std.OrientedCmp.eq_swap
  rw [hswap]
  cases compare (key a) (key b) <;> rfl

lemma mergeSort_notAfter (xs : List α) : (xs.mergeSort (notAfter key)).Pairwise (notAfter key · ·) :=
  List.pairwise_mergeSort notAfter_trans notAfter_total xs

end Order

variable [BEq κ] [LawfulBEq κ]

variable [Std.TransCmp (α := κ) compare] [Std.LawfulEqCmp (α := κ) compare]

lemma increasing_firstsAfter {k : κ} {xs : List α} (hk : ∀ a ∈ xs, (compare k (key a)).isLE)
    (h : xs.Pairwise (notAfter key · ·)) :
    Increasing key (firstsAfter key k xs) ∧ ∀ a ∈ firstsAfter key k xs, compare k (key a) = .lt := by
  induction xs generalizing k with
  | nil => exact ⟨.nil, fun a ha => absurd ha List.not_mem_nil⟩
  | cons a xs ih =>
    obtain ⟨hax, hxs⟩ := List.pairwise_cons.mp h
    rw [firstsAfter]
    split
    · exact ih (fun b hb => hk b (List.mem_cons_of_mem a hb)) hxs
    · next hne =>
      obtain ⟨hinc, hlt⟩ := ih hax hxs
      have hka : compare k (key a) = .lt := by
        have hle := hk a List.mem_cons_self
        cases hc : compare k (key a) with
        | lt => rfl
        | eq => exact absurd (Std.LawfulEqCmp.eq_of_compare hc) (fun he => hne (beq_iff_eq.mpr he.symm))
        | gt => simp [hc] at hle
      refine ⟨List.pairwise_cons.mpr ⟨hlt, hinc⟩, ?_⟩
      intro b hb
      rcases List.mem_cons.mp hb with rfl | hb
      · exact hka
      · exact Std.TransCmp.lt_trans hka (hlt b hb)

lemma ofList_increasing (xs : List α) : Increasing key (ofList key xs) := by
  rw [ofList]
  have h : (xs.mergeSort (notAfter key)).Pairwise (notAfter key · ·) := mergeSort_notAfter xs
  change Increasing key (firsts key (xs.mergeSort (notAfter key)))
  generalize xs.mergeSort (notAfter key) = ys at h
  cases ys with
  | nil => exact .nil
  | cons a ys =>
    obtain ⟨ha, hys⟩ := List.pairwise_cons.mp h
    obtain ⟨hinc, hlt⟩ := increasing_firstsAfter ha hys
    exact List.pairwise_cons.mpr ⟨hlt, hinc⟩

omit [Std.TransCmp (α := κ) compare] in
lemma Increasing.firstsAfter_eq {k : κ} {xs : List α} (h : Increasing key xs)
    (hk : ∀ a ∈ xs, compare k (key a) = .lt) : firstsAfter key k xs = xs := by
  induction xs generalizing k with
  | nil => rfl
  | cons a xs ih =>
    obtain ⟨ha, hxs⟩ := List.pairwise_cons.mp h
    have hne : ¬ (key a == k) = true := by
      rw [beq_iff_eq]
      rintro rfl
      simp [Std.ReflCmp.compare_self] at hk
    rw [firstsAfter, if_neg hne, ih hxs ha]

omit [Std.TransCmp (α := κ) compare] in
lemma Increasing.ofList_eq {xs : List α} (h : Increasing key xs) : ofList key xs = xs := by
  have hsort : xs.mergeSort (notAfter key) = xs :=
    List.mergeSort_of_pairwise (h.imp fun hab => by simp [notAfter, hab])
  change firsts key (xs.mergeSort (notAfter key)) = xs
  rw [hsort]
  cases xs with
  | nil => rfl
  | cons a xs =>
    obtain ⟨ha, hxs⟩ := List.pairwise_cons.mp h
    rw [firsts, Increasing.firstsAfter_eq hxs ha]

lemma filter_mergeSort (k : κ) (xs : List α) :
    (xs.mergeSort (notAfter key)).filter (key · == k) = xs.filter (key · == k) := by
  have hperm : ((xs.mergeSort (notAfter key)).filter (key · == k)).Perm (xs.filter (key · == k)) :=
    (List.mergeSort_perm xs _).filter _
  have hsub : (xs.filter (key · == k)).Sublist (xs.mergeSort (notAfter key)) := by
    apply List.sublist_mergeSort notAfter_trans notAfter_total
    · rw [List.pairwise_filter]
      refine List.pairwise_iff_forall_sublist.mpr ?_
      intro a b _ ha hb
      simp [notAfter, beq_iff_eq.mp ha, beq_iff_eq.mp hb, Std.ReflCmp.compare_self]
    · exact List.filter_sublist
  have hsub' := hsub.filter (key · == k)
  rw [List.filter_filter] at hsub'
  simp only [Bool.and_self] at hsub'
  exact (hsub'.eq_of_length hperm.length_eq.symm).symm

lemma find?_ofList (k : κ) (xs : List α) : (ofList key xs).find? (key · == k) = xs.find? (key · == k) := by
  change (firsts key (xs.mergeSort (notAfter key))).find? (key · == k) = _
  rw [find?_firsts, ← List.head?_filter, ← List.head?_filter, filter_mergeSort]

lemma exists_key_ofList_iff {k : κ} {xs : List α} :
    (∃ a ∈ ofList key xs, key a = k) ↔ ∃ a ∈ xs, key a = k := by
  have h (ys : List α) : (∃ a ∈ ys, key a = k) ↔ (ys.find? (key · == k)).isSome := by
    simp [List.find?_isSome]
  rw [h, h, find?_ofList]

end Distinct

lemma mem_ofList_id [Ord κ] [BEq κ] [LawfulBEq κ] [Std.TransCmp (α := κ) compare] [Std.LawfulEqCmp (α := κ) compare]
    {k : κ} {xs : List κ} : k ∈ ofList id xs ↔ k ∈ xs := by
  have h : (∃ a ∈ ofList id xs, id a = k) ↔ ∃ a ∈ xs, id a = k := exists_key_ofList_iff
  simpa using h

lemma narrow_spec (above : Nat → Bool) (base size : Nat) (hs : 0 < size)
    (hmono : ∀ i j, base ≤ i → i ≤ j → j < base + size → above i = true → above j = true) :
    base ≤ narrow above base size ∧ narrow above base size < base + size ∧
      (narrow above base size = base ∨ above (narrow above base size) = false) ∧
      ∀ i, narrow above base size < i → i < base + size → above i = true := by
  fun_induction narrow above base size with
  | case1 base size h =>
    refine ⟨Nat.le_refl base, by omega, Or.inl rfl, ?_⟩
    intro i hi hlt
    omega
  | case2 base size h half ha ih =>
    have hhalf : 0 < half := by omega
    obtain ⟨hle, hlt, hat, hgt⟩ := ih (by omega) fun i j hi hij hj => hmono i j hi hij (by omega)
    refine ⟨hle, by omega, hat, ?_⟩
    intro i hi hlt'
    by_cases hib : i < base + (size - half)
    · exact hgt i hi hib
    · exact hmono (base + half) i (by omega) (by omega) hlt' ha
  | case3 base size h half ha ih =>
    have hhalf : 0 < half := by omega
    obtain ⟨hle, hlt, hat, hgt⟩ := ih (by omega) fun i j hi hij hj => hmono i j (by omega) hij (by omega)
    refine ⟨by omega, by omega, ?_, ?_⟩
    · rcases hat with he | hf
      · right
        rw [he]
        simpa using ha
      · exact Or.inr hf
    · intro i hi hlt'
      exact hgt i hi (by omega)

lemma below_of_le {below : α → Bool} {xs : Array α}
    (hmono : xs.toList.Pairwise fun a b => below b = true → below a = true) {i j : Nat} (hij : i ≤ j)
    (hi : i < xs.size) (hj : j < xs.size) (hb : below xs[j] = true) : below xs[i] = true := by
  rcases Nat.eq_or_lt_of_le hij with rfl | hlt
  · exact hb
  · exact List.pairwise_iff_getElem.mp hmono i j hi hj hlt hb

lemma lowerBound_spec (below : α → Bool) {xs : Array α} {start : Nat} (hs : start ≤ xs.size)
    (hmono : xs.toList.Pairwise fun a b => below b = true → below a = true) :
    start ≤ lowerBound below xs start ∧ lowerBound below xs start ≤ xs.size ∧
      (∀ i (_ : i < xs.size), start ≤ i → i < lowerBound below xs start → below xs[i] = true) ∧
      ∀ i (_ : i < xs.size), lowerBound below xs start ≤ i → below xs[i] = false := by
  rw [lowerBound]
  split
  · have he : start = xs.size := by omega
    refine ⟨Nat.le_refl _, hs, ?_, ?_⟩ <;> intro i hi _ <;> omega
  · next hlt =>
    have hat (i : Nat) (hi : i < xs.size) : xs[i]?.any below = below xs[i] := by
      rw [Array.getElem?_eq_getElem hi, Option.any_some]
    obtain ⟨hle, hlt', hfirst, hgt⟩ := narrow_spec (fun i => !xs[i]?.any below) start
      (xs.size - start) (by omega) (by
        intro i j hi hij hj ha
        have hjs : j < xs.size := by omega
        have his : i < xs.size := by omega
        simp only [hat i his, hat j hjs, Bool.not_eq_true'] at ha ⊢
        rw [Bool.eq_false_iff] at ha ⊢
        exact fun hb => ha (below_of_le hmono hij his hjs hb))
    dsimp only
    generalize narrow (fun i => !xs[i]?.any below) start (xs.size - start) = r at *
    have hr : r < xs.size := by omega
    simp only [hat r hr] at hfirst ⊢
    have habove (i : Nat) (hi : i < xs.size) (hri : r < i) : below xs[i] = false := by
      simpa [hat i hi] using hgt i hri (by omega)
    by_cases hb : below xs[r] = true
    · rw [if_pos hb]
      refine ⟨by omega, by omega, ?_, ?_⟩
      · intro i hi _ hir
        exact below_of_le hmono (by omega) hi hr hb
      · intro i hi hir
        exact habove i hi (by omega)
    · rw [if_neg hb]
      have he : r = start := by simpa [hb] using hfirst
      refine ⟨hle, by omega, ?_, ?_⟩
      · intro i hi hsi hir
        omega
      · intro i hi hir
        rcases Nat.eq_or_lt_of_le hir with rfl | hir
        · simpa using hb
        · exact habove i hi hir

lemma dropWhile_drop {below : α → Bool} {xs : List α} {start stop : Nat} (hle : start ≤ stop)
    (hbelow : ∀ i (_ : i < xs.length), start ≤ i → i < stop → below xs[i] = true)
    (hstop : ∀ h : stop < xs.length, below xs[stop] = false) : (xs.drop start).dropWhile below = xs.drop stop := by
  induction hle using Nat.decreasingInduction with
  | self =>
    by_cases h : stop < xs.length
    · rw [List.drop_eq_getElem_cons h, List.dropWhile_cons_of_neg (by simpa using hstop h)]
    · rw [List.drop_eq_nil_of_le (Nat.le_of_not_lt h), List.dropWhile_nil]
  | of_succ start hlt ih =>
    have hrest := ih fun i hi hs => hbelow i hi (Nat.le_of_succ_le hs)
    by_cases h : start < xs.length
    · rw [List.drop_eq_getElem_cons h, List.dropWhile_cons_of_pos (hbelow start h (Nat.le_refl _) hlt), hrest]
    · rw [List.drop_eq_nil_of_le (by omega), List.drop_eq_nil_of_le (by omega), List.dropWhile_nil]

lemma Increasing.find?_eq [Ord κ] [BEq κ] [LawfulBEq κ] [Std.ReflCmp (α := κ) compare] {key : α → κ} {xs : List α}
    (h : Increasing key xs) {a : α} (ha : a ∈ xs) : xs.find? (key · == key a) = some a := by
  induction xs with
  | nil => cases ha
  | cons b xs ih =>
    obtain ⟨hb, hxs⟩ := List.pairwise_cons.mp h
    rcases List.mem_cons.mp ha with rfl | ha
    · exact List.find?_cons_of_pos (beq_self_eq_true (key a))
    · have hne : ¬ (key b == key a) = true := fun he => by
        have hlt := hb a ha
        have hself : compare (key a) (key a) = .eq := Std.ReflCmp.compare_self
        rw [beq_iff_eq.mp he, hself] at hlt
        cases hlt
      exact (List.find?_cons_of_neg (p := (key · == key a)) hne).trans (ih hxs ha)

lemma mem_ofList_iff [Ord κ] [BEq κ] [LawfulBEq κ] [Std.TransCmp (α := κ) compare] [Std.LawfulEqCmp (α := κ) compare]
    {key : α → κ} {a : α} {xs : List α} : a ∈ ofList key xs ↔ xs.find? (key · == key a) = some a := by
  rw [← find?_ofList]
  exact ⟨(ofList_increasing xs).find?_eq, List.mem_of_find?_eq_some⟩

section Find

variable [Ord κ] [Std.TransCmp (α := κ) compare] {key : α → κ} {xs : Array α} {i j : Nat}

omit [Std.TransCmp (α := κ) compare] in
lemma Increasing.getElem_lt (h : Increasing key xs.toList) (hij : i < j) (hj : j < xs.size) :
    compare (key xs[i]) (key xs[j]) = .lt :=
  List.pairwise_iff_getElem.mp h i j (by simpa using Nat.lt_trans hij hj) (by simpa using hj) hij

lemma Increasing.narrow_eq (h : Increasing key xs.toList) (hi : i < xs.size) :
    narrow (fun j => xs[j]?.any fun a => compare (key a) (key xs[i]) == .gt) 0 xs.size = i := by
  have hat (j : Nat) (hj : j < xs.size) :
      xs[j]?.any (fun a => compare (key a) (key xs[i]) == .gt) = (compare (key xs[j]) (key xs[i]) == .gt) := by
    rw [Array.getElem?_eq_getElem hj, Option.any_some]
  have hgt (j : Nat) (hj : j < xs.size) (hij : i < j) : compare (key xs[j]) (key xs[i]) = .gt :=
    Std.OrientedCmp.gt_of_lt (h.getElem_lt hij hj)
  obtain ⟨-, hlt, hfirst, habove⟩ := narrow_spec
    (fun j => xs[j]?.any fun a => compare (key a) (key xs[i]) == .gt) 0 xs.size (by omega) (by
      intro j k _ hjk hk hj
      rcases Nat.eq_or_lt_of_le hjk with rfl | hjk
      · exact hj
      · have hks : k < xs.size := by omega
        simp only [hat j (by omega), hat k hks, beq_iff_eq] at hj ⊢
        exact Std.TransCmp.gt_trans (Std.OrientedCmp.gt_of_lt (h.getElem_lt hjk hks)) hj)
  generalize narrow (fun j => xs[j]?.any fun a => compare (key a) (key xs[i]) == .gt) 0 xs.size = r at *
  have hr : r < xs.size := by omega
  rcases Nat.lt_trichotomy r i with hri | rfl | hir
  · have hi' := habove i hri (by omega)
    simp [hat i hi, Std.ReflCmp.compare_self] at hi'
  · rfl
  · simp [hat r hr, hgt r hr hir] at hfirst
    omega

lemma Increasing.find?_eq_find?_toList [BEq κ] [LawfulBEq κ] [Std.LawfulEqCmp (α := κ) compare]
    (h : Increasing key xs.toList) (k : κ) : find? (fun a => compare (key a) k) xs = xs.toList.find? (key · == k) := by
  cases hf : xs.toList.find? (key · == k) with
  | some a =>
    obtain ⟨i, hi, rfl⟩ := Array.getElem_of_mem (Array.mem_toList_iff.mp (List.mem_of_find?_eq_some hf))
    have hk : key xs[i] = k := by simpa using List.find?_some hf
    subst hk
    rw [find?, h.narrow_eq hi, Array.getElem?_eq_getElem hi]
    simp [Std.ReflCmp.compare_self]
  | none =>
    rw [find?, Option.filter_eq_none_iff]
    intro a ha hk
    have hmem : a ∈ xs.toList := Array.mem_toList_iff.mpr (Array.mem_of_getElem? ha)
    exact List.find?_eq_none.mp hf a hmem (beq_iff_eq.mpr (Std.LawfulEqCmp.eq_of_compare (beq_iff_eq.mp hk)))

end Find

end InvertedIndex.Sorted
