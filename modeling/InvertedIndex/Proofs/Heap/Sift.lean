import InvertedIndex.Heap
import Mathlib.Order.Defs.Unbundled
import Mathlib.Tactic.Lemma

namespace InvertedIndex.Heap

variable {α : Type u} {n : Nat} {before : α → α → Bool}

def IsWeakOrder (before : α → α → Bool) : Prop := IsStrictWeakOrder α fun a b => before a b = true

namespace IsWeakOrder

lemma irrefl (hw : IsWeakOrder before) (a : α) : before a a = false :=
  Bool.eq_false_iff.mpr (hw.toIrrefl.irrefl a)

lemma asymm (hw : IsWeakOrder before) {a b : α} (h : before a b = true) : before b a = false := by
  rw [Bool.eq_false_iff]
  intro hba
  exact hw.toIrrefl.irrefl a (hw.toIsTrans.trans a b a h hba)

lemma not_before_trans (hw : IsWeakOrder before) {a b c : α} (hba : before b a = false)
    (hcb : before c b = false) : before c a = false := by
  rw [Bool.eq_false_iff] at *
  intro hca
  by_cases hab : before a b = true
  · exact hcb (hw.toIsTrans.trans c a b hca hab)
  · by_cases hbc : before b c = true
    · exact hba (hw.toIsTrans.trans b c a hbc hca)
    · exact (hw.incomp_trans a b c ⟨hab, hba⟩ ⟨hbc, hcb⟩).2 hca

end IsWeakOrder

def IsChild (p c : Nat) : Prop := c = 2 * p + 1 ∨ c = 2 * p + 2

lemma isChild_iff {p c : Nat} : IsChild p c ↔ 0 < c ∧ parent c = p := by
  rw [IsChild, parent]; omega

lemma IsChild.lt {p c : Nat} (h : IsChild p c) : p < c := by
  rw [IsChild] at h; omega

lemma IsChild.parent_unique {p q c : Nat} (h : IsChild p c) (h' : IsChild q c) : p = q := by
  rw [IsChild] at h h'; omega

def OrderedOn (before : α → α → Bool) (inside : Nat → Prop) (slots : Vector α n) : Prop :=
  ∀ p c (_ : p < n) (_ : c < n), IsChild p c → inside p → before slots[c] slots[p] = false

lemma ordered_iff {slots : Vector α n} : Ordered before slots ↔ OrderedOn before (fun _ => True) slots := by
  constructor
  · intro h p c hp hc hpc _
    obtain ⟨h0, rfl⟩ := isChild_iff.mp hpc
    exact h c hc h0
  · intro h c hc h0
    exact h (parent c) c (Nat.lt_trans (parent_lt h0) hc) hc (isChild_iff.mpr ⟨h0, rfl⟩) trivial

lemma OrderedOn.mono {inside inside' : Nat → Prop} {slots : Vector α n} (h : OrderedOn before inside slots)
    (hi : ∀ p, inside' p → inside p) : OrderedOn before inside' slots :=
  fun p c hp hc hpc hin => h p c hp hc hpc (hi p hin)

def Closed (inside : Nat → Prop) : Prop := ∀ p c, IsChild p c → inside p → inside c

/-- In order but for the pairs below `hole`; the children of the hole come after its parent. -/
structure DownReady (before : α → α → Bool) (inside : Nat → Prop) (slots : Vector α n) (hole : Nat) : Prop where
  rest : OrderedOn before (fun p => inside p ∧ p ≠ hole) slots
  grand : ∀ p c (_ : p < n) (_ : c < n), IsChild p hole → IsChild hole c → inside p →
    before slots[c] slots[p] = false

lemma isChild_firstChild (slots : Vector α n) (i : Nat) (h : 2 * i + 1 < n) :
    IsChild i (firstChild before slots i h) := by
  rw [IsChild, firstChild]
  split <;> (try split) <;> omega

lemma firstChild_least (hw : IsWeakOrder before) (slots : Vector α n) (i : Nat) (h : 2 * i + 1 < n)
    (c : Nat) (hc : c < n) (hic : IsChild i c) (hf : firstChild before slots i h < n) :
    before slots[c] slots[firstChild before slots i h] = false := by
  have hright : 2 * i + 2 < n → before slots[c] slots[firstChild before slots i h] = false := by
    intro hr
    by_cases hb : before slots[2 * i + 2] slots[2 * i + 1] = true
    · have he : firstChild before slots i h = 2 * i + 2 := by simp [firstChild, hr, hb]
      simp only [he]
      rcases hic with rfl | rfl
      · exact hw.asymm hb
      · exact hw.irrefl _
    · have he : firstChild before slots i h = 2 * i + 1 := by simp [firstChild, hr, hb]
      simp only [he]
      rcases hic with rfl | rfl
      · exact hw.irrefl _
      · simpa using hb
  by_cases hr : 2 * i + 2 < n
  · exact hright hr
  · have he : firstChild before slots i h = 2 * i + 1 := by simp [firstChild, hr]
    have hcl : c = 2 * i + 1 := by rw [IsChild] at hic; omega
    subst hcl
    simp only [he]
    exact hw.irrefl _

lemma DownReady.finish {inside : Nat → Prop} {slots : Vector α n} {hole : Nat}
    (h : DownReady before inside slots hole)
    (hstop : ∀ c (_ : hole < n) (_ : c < n), IsChild hole c → before slots[c] slots[hole] = false) :
    OrderedOn before inside slots := by
  intro p c hp hc hpc hin
  by_cases hph : p = hole
  · subst hph
    exact hstop c hp hc hpc
  · exact h.rest p c hp hc hpc ⟨hin, hph⟩

lemma DownReady.step (hw : IsWeakOrder before) {inside : Nat → Prop} (hcl : Closed inside)
    {slots : Vector α n} {i : Nat} (hin : inside i) (hi : i < n) (h : 2 * i + 1 < n)
    (hf : firstChild before slots i h < n) (hr : DownReady before inside slots i)
    (hb : before slots[firstChild before slots i h] slots[i] = true) :
    DownReady before inside (slots.swap i (firstChild before slots i h)) (firstChild before slots i h) := by
  have hic : IsChild i (firstChild before slots i h) := isChild_firstChild slots i h
  have hmin := fun c hc hc' => firstChild_least hw slots i h c hc hc' hf
  generalize firstChild before slots i h = f at *
  have hif := hic.lt
  constructor
  · rintro p c hp hc hpc ⟨hinp, hpf⟩
    simp only [Vector.getElem_swap]
    by_cases hpi : p = i
    · subst hpi
      rw [if_neg (by have := hpc.lt; omega), if_pos rfl]
      by_cases hcf : c = f
      · rw [if_pos hcf]
        exact hw.asymm hb
      · rw [if_neg hcf]
        exact hmin c hc hpc
    · have hcf : c ≠ f := fun hcf => hpi ((hcf ▸ hpc).parent_unique hic)
      rw [if_neg hcf, if_neg hpi, if_neg hpf]
      by_cases hci : c = i
      · subst hci
        rw [if_pos rfl]
        exact hr.grand p f hp hf hpc hic hinp
      · rw [if_neg hci]
        exact hr.rest p c hp hc hpc ⟨hinp, hpi⟩
  · intro p c hp hc hpf hfc _
    have hpi : p = i := hpf.parent_unique hic
    subst hpi
    have hcf := hfc.lt
    simp only [Vector.getElem_swap]
    rw [if_neg (by omega), if_neg (by omega), if_pos trivial]
    exact hr.rest f c hf hc hfc ⟨hcl p f hic hin, by omega⟩

lemma siftDown_orderedOn (hw : IsWeakOrder before) {inside : Nat → Prop} (hcl : Closed inside)
    (slots : Vector α n) (i : Nat) (hin : inside i) (hr : DownReady before inside slots i) :
    OrderedOn before inside (siftDown before slots i) := by
  fun_induction siftDown before slots i with
  | case1 slots i h child hlt hn hb ih =>
    exact ih (hcl i child (isChild_firstChild slots i h) hin) (hr.step hw hcl hin (by omega) h hn hb)
  | case2 slots i h child hlt hn hb =>
    apply hr.finish
    intro c hi hc hic
    exact hw.not_before_trans (by simpa using hb) (firstChild_least hw slots i h c hc hic hn)
  | case3 slots i h =>
    apply hr.finish
    intro c hi hc hic
    rw [IsChild] at hic
    omega

lemma siftDown_perm (slots : Vector α n) (i : Nat) : (siftDown before slots i).Perm slots := by
  fun_induction siftDown before slots i with
  | case1 slots i h child hlt hn hb ih => exact ih.trans (Vector.swap_perm _ _)
  | case2 | case3 => exact .rfl

/-- In order but for the pair above `hole`; the children of the hole come after its parent. -/
structure UpReady (before : α → α → Bool) (slots : Vector α n) (hole : Nat) : Prop where
  rest : ∀ p c (_ : p < n) (_ : c < n), IsChild p c → c ≠ hole → before slots[c] slots[p] = false
  grand : ∀ p c (_ : p < n) (_ : c < n), IsChild p hole → IsChild hole c → before slots[c] slots[p] = false

lemma UpReady.step (hw : IsWeakOrder before) {slots : Vector α n} {i p : Nat} (hi : i < n) (hp : p < n)
    (hpi : IsChild p i) (hr : UpReady before slots i) (hb : before slots[i] slots[p] = true) :
    UpReady before (slots.swap i p) p := by
  have hlt := hpi.lt
  constructor
  · intro q c hq hc hqc hcp
    simp only [Vector.getElem_swap]
    rw [if_neg hcp]
    by_cases hci : c = i
    · subst hci
      obtain rfl := hqc.parent_unique hpi
      rw [if_pos rfl, if_neg (by omega), if_pos rfl]
      exact hw.asymm hb
    · rw [if_neg hci]
      by_cases hqi : q = i
      · subst hqi
        rw [if_pos rfl]
        exact hr.grand p c hp hc hpi hqc
      · rw [if_neg hqi]
        by_cases hqp : q = p
        · subst hqp
          rw [if_pos rfl]
          exact hw.not_before_trans (hw.asymm hb) (hr.rest q c hq hc hqc hci)
        · rw [if_neg hqp]
          exact hr.rest q c hq hc hqc hci
  · intro q c hq hc hqp hpc
    have hqlt := hqp.lt
    have hclt := hpc.lt
    have hpq := hr.rest q p hq hp hqp (by omega)
    simp only [Vector.getElem_swap]
    rw [if_neg (show q ≠ i by omega), if_neg (show q ≠ p by omega)]
    by_cases hci : c = i
    · rw [if_pos hci]
      exact hpq
    · rw [if_neg hci, if_neg (by omega)]
      exact hw.not_before_trans hpq (hr.rest p c hp hc hpc hci)

lemma siftUp_ordered (hw : IsWeakOrder before) (slots : Vector α n) (i : Nat) (h : i < n)
    (hr : UpReady before slots i) : Ordered before (siftUp before slots i h) := by
  rw [ordered_iff]
  fun_induction siftUp before slots i h with
  | case1 slots i h hi hp hb ih => exact ih (hr.step hw h hp (isChild_iff.mpr ⟨hi, rfl⟩) hb)
  | case2 slots i h hi hp hb =>
    intro p c hp' hc hpc _
    by_cases hci : c = i
    · subst hci
      obtain ⟨-, rfl⟩ := isChild_iff.mp hpc
      simpa using hb
    · exact hr.rest p c hp' hc hpc hci
  | case3 slots i h hi =>
    intro p c hp' hc hpc _
    exact hr.rest p c hp' hc hpc (by have := hpc.lt; omega)

lemma siftUp_perm (slots : Vector α n) (i : Nat) (h : i < n) : (siftUp before slots i h).Perm slots := by
  fun_induction siftUp before slots i h with
  | case1 slots i h hi hp hb ih => exact ih.trans (Vector.swap_perm _ _)
  | case2 | case3 => exact .rfl

lemma siftDownBelow_orderedOn (hw : IsWeakOrder before) (slots : Vector α n) (count : Nat)
    (h : OrderedOn before (count ≤ ·) slots) : OrderedOn before (fun _ => True) (siftDownBelow before slots count) := by
  induction count generalizing slots with
  | zero => exact h.mono fun p _ => Nat.zero_le p
  | succ i ih =>
    apply ih
    apply siftDown_orderedOn hw _ slots i (Nat.le_refl i)
    · constructor
      · exact h.mono fun p ⟨hip, hne⟩ => by omega
      · intro p c _ _ hpi _ hip
        have := hpi.lt
        omega
    · intro p c hpc hip
      have := hpc.lt
      omega

lemma siftDownBelow_perm (slots : Vector α n) (count : Nat) : (siftDownBelow before slots count).Perm slots := by
  induction count generalizing slots with
  | zero => exact .rfl
  | succ i ih => exact (ih _).trans (siftDown_perm slots i)

def ancestors (i : Nat) : List Nat :=
  if _h : 0 < i then parent i :: ancestors (parent i) else []
termination_by i
decreasing_by exact parent_lt _h

lemma parent_mem_ancestors {i : Nat} (hi : 0 < i) : parent i ∈ ancestors i := by
  rw [ancestors, dif_pos hi]
  exact List.mem_cons_self

lemma zero_mem_ancestors {i : Nat} (hi : 0 < i) : 0 ∈ ancestors i := by
  fun_induction ancestors i with
  | case1 i _ ih =>
    rcases Nat.eq_zero_or_pos (parent i) with hp | hp
    · exact hp ▸ List.mem_cons_self
    · exact List.mem_cons_of_mem _ (ih hp)
  | case2 i hzero => exact absurd hi hzero

lemma Ordered.not_before_ancestor (hw : IsWeakOrder before) {slots : Vector α n} (h : Ordered before slots) {a i : Nat}
    (hai : a ∈ ancestors i) (ha : a < n) (hi : i < n) : before slots[i] slots[a] = false := by
  fun_induction ancestors i with
  | case1 i hpos ih =>
    have hp : parent i < n := Nat.lt_trans (parent_lt hpos) hi
    have hparent : before slots[i] slots[parent i] = false := h i hi hpos
    rcases List.mem_cons.mp hai with rfl | hai
    · exact hparent
    · exact hw.not_before_trans (ih hai hp) hparent
  | case2 i hzero => exact absurd hai List.not_mem_nil

lemma front_least (hw : IsWeakOrder before) {slots : Vector α n} (h : Ordered before slots) (h0 : 0 < n)
    (i : Nat) (hi : i < n) : before slots[i] slots[0] = false := by
  rcases Nat.eq_zero_or_pos i with rfl | hpos
  · exact hw.irrefl _
  · exact h.not_before_ancestor hw (zero_mem_ancestors hpos) h0 hi

end InvertedIndex.Heap
