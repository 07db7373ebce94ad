import Mathlib.Tactic.Lemma
import Mathlib.Tactic.SplitIfs

namespace InvertedIndex.Utf8

def codePoints (s : String) : List Nat := s.toList.map Char.toNat

def bytes (s : String) : List UInt8 := s.toUTF8.data.toList

section Monotone

variable {α : Type u} {β : Type v} [Ord α] [Ord β]

lemma compare_of_lt [Std.OrientedOrd α] [Std.LawfulEqOrd α] [Std.OrientedOrd β] {f : α → β}
    (hf : ∀ a b, compare a b = .lt → compare (f a) (f b) = .lt) (a b : α) : compare (f a) (f b) = compare a b := by
  cases h : compare a b with
  | lt => exact hf a b h
  | eq =>
    obtain rfl := Std.LawfulEqOrd.eq_of_compare h
    exact Std.ReflCmp.compare_self
  | gt => exact Std.OrientedCmp.gt_of_lt (hf b a (Std.OrientedCmp.lt_of_gt h))

lemma compare_map {f : α → β} (hf : ∀ a b, compare (f a) (f b) = compare a b) (xs ys : List α) :
    compare (xs.map f) (ys.map f) = compare xs ys := by
  induction xs generalizing ys with
  | nil => cases ys <;> rfl
  | cons x xs ih =>
    cases ys with
    | nil => rfl
    | cons y ys => simp only [List.map_cons, List.compare_cons_cons, hf, ih]

lemma compare_append_left [Std.ReflOrd α] (zs xs ys : List α) : compare (zs ++ xs) (zs ++ ys) = compare xs ys := by
  induction zs with
  | nil => rfl
  | cons z zs ih =>
    have hself : compare z z = .eq := Std.ReflCmp.compare_self
    rw [List.cons_append, List.cons_append, List.compare_cons_cons, hself, Ordering.eq_then, ih]

end Monotone

lemma compare_chars_of_lt {cs ds : List Char} (h : cs < ds) : compare cs ds = .lt := by
  induction cs generalizing ds with
  | nil =>
    cases ds with
    | nil => exact absurd h (List.not_lt_nil _)
    | cons d ds => rfl
  | cons c cs ih =>
    cases ds with
    | nil => exact absurd h (List.not_lt_nil _)
    | cons d ds =>
      rw [List.compare_cons_cons, Ordering.then_eq_lt]
      rcases List.cons_lt_cons_iff.mp h with hcd | ⟨rfl, hlt⟩
      · exact .inl (compareOfLessAndEq_eq_lt (α := Char).mpr hcd)
      · exact .inr ⟨Std.ReflCmp.compare_self, ih hlt⟩

lemma compare_toList (s t : String) : compare s.toList t.toList = compare s t :=
  compare_of_lt (fun _ _ h => compare_chars_of_lt (compareOfLessAndEq_eq_lt (α := String).mp h)) s t

lemma compare_codePoints (s t : String) : compare (codePoints s) (codePoints t) = compare s t := by
  have hchar (c d : Char) (h : compare c d = .lt) : compare c.toNat d.toNat = .lt :=
    Nat.compare_eq_lt.mpr (UInt32.lt_iff_toNat_lt.mp (compareOfLessAndEq_eq_lt (α := Char).mp h))
  rw [codePoints, codePoints, compare_map (compare_of_lt hchar), compare_toList]

/-- The bytes of a code point. The first one tells how many there are, and each of the others holds six bits. -/
def octets (v : Nat) : List Nat :=
  if v < 0x80 then [v]
  else if v < 0x800 then [0xc0 + v / 64, 0x80 + v % 64]
  else if v < 0x10000 then [0xe0 + v / 4096, 0x80 + v / 64 % 64, 0x80 + v % 64]
  else [0xf0 + v / 262144, 0x80 + v / 4096 % 64, 0x80 + v / 64 % 64, 0x80 + v % 64]

lemma octets_ne_nil (v : Nat) : octets v ≠ [] := by
  rw [octets]
  split_ifs <;> exact List.cons_ne_nil _ _

lemma octets_lt {v w : Nat} (h : v < w) (xs ys : List Nat) : compare (octets v ++ xs) (octets w ++ ys) = .lt := by
  rw [octets, octets]
  -- The first byte is the greater the more bytes there are; of as many bytes, each is a digit in base 64.
  split_ifs <;>
    simp only [List.cons_append, List.nil_append, List.compare_cons_cons, Ordering.then_eq_lt, Nat.compare_eq_lt,
      Nat.compare_eq_eq] <;>
    omega

lemma compare_flatMap_octets (vs ws : List Nat) :
    compare (vs.flatMap octets) (ws.flatMap octets) = compare vs ws := by
  refine compare_of_lt (fun vs ws h => ?_) vs ws
  induction vs generalizing ws with
  | nil =>
    cases ws with
    | nil => cases h
    | cons w ws =>
      obtain ⟨o, os, ho⟩ := List.exists_cons_of_ne_nil (octets_ne_nil w)
      rw [List.flatMap_nil, List.flatMap_cons, ho]
      rfl
  | cons v vs ih =>
    cases ws with
    | nil => cases h
    | cons w ws =>
      rw [List.compare_cons_cons, Ordering.then_eq_lt, Nat.compare_eq_lt, Nat.compare_eq_eq] at h
      rw [List.flatMap_cons, List.flatMap_cons]
      rcases h with hlt | ⟨rfl, h⟩
      · exact octets_lt hlt _ _
      · rw [compare_append_left, ih ws h]

lemma map_utf8EncodeChar (c : Char) : (String.utf8EncodeChar c).map UInt8.toNat = octets c.toNat := by
  have hc : c.toNat < 0x110000 := by
    rcases c.valid with h | ⟨-, h⟩
    · exact Nat.lt_trans h (by decide)
    · exact h
  rw [octets, String.utf8EncodeChar]
  simp only [show c.val.toNat = c.toNat from rfl]
  split_ifs <;> simp <;> omega

lemma map_bytes (s : String) : (bytes s).map UInt8.toNat = (codePoints s).flatMap octets := by
  have hbytes : bytes s = s.toList.flatMap String.utf8EncodeChar := by
    rw [bytes, String.toUTF8_eq_toByteArray, ← String.utf8Encode_toList, List.utf8Encode,
      List.toList_data_toByteArray]
  rw [hbytes, codePoints, List.map_flatMap, List.flatMap_map]
  simp only [map_utf8EncodeChar]

lemma compare_bytes (s t : String) : compare (bytes s) (bytes t) = compare (codePoints s) (codePoints t) := by
  have hbyte (a b : UInt8) (h : compare a b = .lt) : compare a.toNat b.toNat = .lt :=
    Nat.compare_eq_lt.mpr (UInt8.lt_iff_toNat_lt.mp (Std.compare_eq_lt.mp h))
  rw [← compare_map (compare_of_lt hbyte), map_bytes, map_bytes, compare_flatMap_octets]

end InvertedIndex.Utf8
