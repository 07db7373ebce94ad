import InvertedIndex.Proofs.Dictionary.Entries
import Mathlib.Data.List.TakeWhile

namespace InvertedIndex

namespace TermCursor

variable {C : Type} [TermCursor C]

inductive Reaches (start : C) : C → Prop
  | refl : Reaches start start
  | next {c c' : C} {more : Bool} : Reaches start c → TermCursor.next c = .done c' more → Reaches start c'
  | seek {c c' : C} {target : Term} {found : Bool} :
    Reaches start c → TermCursor.seek target c = .done c' found → Reaches start c'

def CanSeek (target : Term) (c : C) : Prop := ∃ t ∈ TermCursor.term? c, compare target t ≠ .lt

end TermCursor

lemma Term.isLE_eq_not_lt (a b : Term) : (compare a b).isLE = !(compare b a == .lt) := by
  have hswap : compare b a = (compare a b).swap := Std.OrientedCmp.eq_swap
  rw [hswap]
  cases compare a b <;> rfl

namespace DictionaryCursor

variable {c c' : DictionaryCursor} {target t : Term} {entries : List TermEntry}

def before (target : Term) (e : TermEntry) : Bool := compare e.term target == .lt

structure IsPlaceIn (start c : DictionaryCursor) : Prop where
  entries_eq : c.entries = start.entries
  position_le : c.position ≤ c.entries.size

structure SkipsTo (target : Term) (c c' : DictionaryCursor) : Prop extends IsPlaceIn c c' where
  rest_eq : c'.rest = c.rest.dropWhile (before target)

lemma SkipsTo.unique {c₁ c₂ : DictionaryCursor} (h₁ : c.SkipsTo target c₁) (h₂ : c.SkipsTo target c₂) : c₁ = c₂ := by
  have hentries := h₁.entries_eq.trans h₂.entries_eq.symm
  have hlength := congrArg List.length (h₁.rest_eq.trans h₂.rest_eq.symm)
  have hle₁ := h₁.position_le
  have hle₂ := h₂.position_le
  obtain ⟨entries, position₁⟩ := c₁
  obtain ⟨_, position₂⟩ := c₂
  obtain rfl : entries = _ := hentries
  simp only [length_rest] at hlength
  dsimp only at hle₁ hle₂
  congr 1
  omega

lemma SkipsTo.rest_ne_nil_iff (h : c.SkipsTo target c') :
    c'.rest ≠ [] ↔ ∃ e ∈ c.rest, (compare target e.term).isLE := by
  rw [h.rest_eq, ne_eq, List.dropWhile_eq_nil_iff]
  simp [before, Term.isLE_eq_not_lt]

lemma SkipsTo.term?_eq (h : c.SkipsTo target c') :
    c'.term? = (c.rest.map TermEntry.term).find? fun t => (compare target t).isLE := by
  rw [term?, current?_eq, h.rest_eq, ← List.find?_not_eq_head?_dropWhile, List.find?_map]
  refine congrArg (fun p => (c.rest.find? p).map TermEntry.term) (funext fun e => ?_)
  exact (Term.isLE_eq_not_lt target e.term).symm

lemma before_of_compare_lt {d e : TermEntry} (hde : compare d.term e.term = .lt) (he : before target e = true) :
    before target d = true :=
  beq_iff_eq.mpr (Std.TransCmp.lt_trans hde (beq_iff_eq.mp he))

lemma term?_eq_some_iff : c.term? = some t ↔ ∃ e es, c.rest = e :: es ∧ e.term = t := by
  rw [term?, current?_eq]
  cases c.rest <;> simp

lemma IsSorted.seek_skips (h : c.IsSorted) (ht : TermCursor.CanSeek target c) :
    ∃ c', c.seek target = .done c' (decide (c'.rest ≠ [])) ∧ c.SkipsTo target c' := by
  obtain ⟨t, hterm, hle⟩ := ht
  have hlt : c.position < c.entries.size := by
    obtain ⟨e, es, hrest, -⟩ := term?_eq_some_iff.mp hterm
    exact c.rest_ne_nil_iff.mp (hrest ▸ List.cons_ne_nil e es)
  obtain ⟨hstart, hsize, hbelow, hreached⟩ :=
    Sorted.lowerBound_spec (before target) (Nat.le_of_lt hlt) (h.imp fun hde he => before_of_compare_lt hde he)
  generalize hstop : Sorted.lowerBound (before target) c.entries c.position = stop at *
  refine ⟨{ c with position := stop }, ?_, ⟨rfl, hsize⟩, ?_⟩
  · have hseek : c.seek target = .done { c with position := stop } (decide (stop < c.entries.size)) := by
      rw [seek, show c.term? = some t from hterm]
      dsimp only
      rw [if_neg hle]
      exact hstop ▸ rfl
    simp only [hseek, rest_ne_nil_iff]
  · exact (Sorted.dropWhile_drop hstart (fun i hi => hbelow i (by simpa using hi))
      fun hi => hreached stop (by simpa using hi) (Nat.le_refl stop)).symm

lemma walkTo_skips (target : Term) {limit : Nat} (hp : c.position ≤ c.entries.size)
    (hl : c.rest.length ≤ limit) :
    ∃ c', TermCursor.walkTo term? next target limit c = .done c' (decide (c'.rest ≠ [])) ∧ c.SkipsTo target c' := by
  induction limit generalizing c with
  | zero =>
    have hnil : c.rest = [] := List.length_eq_zero_iff.mp (Nat.le_zero.mp hl)
    exact ⟨c, by simp [TermCursor.walkTo, hnil], ⟨rfl, hp⟩, by simp [hnil]⟩
  | succ limit ih =>
    rw [TermCursor.walkTo, term?, current?_eq]
    cases hrest : c.rest with
    | nil => exact ⟨c, by simp [hrest], ⟨rfl, hp⟩, by simp [hrest]⟩
    | cons e es =>
      simp only [List.head?_cons, Option.map_some, Term.isLE_eq_not_lt]
      change ∃ c', (if (!before target e) = true then _ else _) = _ ∧ _
      cases hb : before target e with
      | false => exact ⟨c, by simp [hrest], ⟨rfl, hp⟩, by simp [hrest, hb]⟩
      | true =>
        have hne : c.rest ≠ [] := hrest ▸ List.cons_ne_nil e es
        have hes : { c with position := c.position + 1 }.rest = es := by rw [next_rest, hrest, List.tail_cons]
        have hskip : c.rest.dropWhile (before target) = es.dropWhile (before target) := by
          rw [hrest, List.dropWhile_cons_of_pos hb]
        have hp' : c.position + 1 ≤ c.entries.size := c.rest_ne_nil_iff.mp hne
        rw [next_eq hne, hrest, List.tail_cons]
        cases es with
        | nil => exact ⟨{ c with position := c.position + 1 }, by simp [hes], ⟨rfl, hp'⟩, hes.trans hskip.symm⟩
        | cons d ds =>
          obtain ⟨c', hwalk, ⟨hentries, hle⟩, hrest'⟩ := ih (c := { c with position := c.position + 1 }) hp'
            (by simpa [hes, hrest] using hl)
          exact ⟨c', by simpa using hwalk, ⟨hentries, hle⟩, by rw [hrest', hes, hskip]⟩

lemma IsSorted.seek_eq_seekByNext (h : c.IsSorted) (hp : c.position ≤ c.entries.size) {bound : DictionaryCursor → Nat}
    (hb : c.rest.length ≤ bound c) : c.seek target = TermCursor.seekByNext term? next bound target c := by
  rw [TermCursor.seekByNext]
  cases hterm : c.term? with
  | none => rw [seek, hterm]
  | some t =>
    by_cases ht : compare target t = .lt
    · simp only [seek, hterm, if_pos ht]
    · obtain ⟨c₁, hseek, hskips⟩ := h.seek_skips ⟨t, hterm, ht⟩
      obtain ⟨c₂, hwalk, hskips₂⟩ := walkTo_skips target hp hb
      obtain rfl := hskips.unique hskips₂
      rw [hseek]
      simp only [if_neg ht, hwalk]

lemma seek_fault (ht : ¬ TermCursor.CanSeek target c) : ∃ x, c.seek target = .fault x := by
  rw [seek]
  cases hterm : c.term? with
  | none => exact ⟨_, rfl⟩
  | some t => exact ⟨_, if_pos (Classical.not_not.mp fun hlt => ht ⟨t, hterm, hlt⟩)⟩

lemma IsPlaceIn.of_next {start : DictionaryCursor} {more : Bool} (h : IsPlaceIn start c)
    (hn : c.next = .done c' more) : IsPlaceIn start c' := by
  rw [next] at hn
  split at hn
  · next hlt =>
    obtain ⟨rfl, -⟩ := Outcome.done.inj hn
    exact ⟨h.entries_eq, hlt⟩
  · cases hn

lemma IsPlaceIn.isSorted {start : DictionaryCursor} (h : IsPlaceIn start c) (hs : start.IsSorted) : c.IsSorted := by
  rw [IsSorted, h.entries_eq]
  exact hs

lemma IsPlaceIn.of_seek {start : DictionaryCursor} {found : Bool} (h : IsPlaceIn start c) (hs : start.IsSorted)
    (hc : c.seek target = .done c' found) : IsPlaceIn start c' := by
  by_cases ht : TermCursor.CanSeek target c
  · obtain ⟨c₁, hseek, hskips⟩ := (h.isSorted hs).seek_skips ht
    obtain ⟨rfl, -⟩ := Outcome.done.inj (hseek.symm.trans hc)
    exact ⟨hskips.entries_eq.trans h.entries_eq, hskips.position_le⟩
  · obtain ⟨x, hx⟩ := seek_fault ht
    cases hx.symm.trans hc

lemma IsPlaceIn.of_reaches {start : DictionaryCursor} (hs : start.IsSorted)
    (hp : start.position ≤ start.entries.size) (h : TermCursor.Reaches start c) : IsPlaceIn start c := by
  induction h with
  | refl => exact ⟨rfl, hp⟩
  | next _ hn ih => exact ih.of_next hn
  | seek _ hc ih => exact ih.of_seek hs hc

lemma IsPlaceIn.rest_suffix (h : IsPlaceIn (ofList entries) c) : c.rest <:+ (ofList entries).rest := by
  rw [rest_ofList, rest, h.entries_eq]
  exact List.drop_suffix _ _

/-- Whatever the entries are, from every state that calls lead to: what is left are entries that are the first of their
term, in increasing order; and seeking comes to the same as going on term by term, which is a fault for a target behind
the current term or at the end, and else the first term left that is not before the target, if there is one. -/
theorem seek_follows_walk (h : TermCursor.Reaches (ofList entries) c) :
    Sorted.Increasing TermEntry.term (ofList entries).rest ∧
      (∀ e, e ∈ (ofList entries).rest ↔ entries.find? (·.term == e.term) = some e) ∧
      c.rest <:+ (ofList entries).rest ∧
      TermCursor.term? c = c.rest.head?.map TermEntry.term ∧
      TermCursor.docFreq c = c.rest.head?.elim 0 TermEntry.docFreq ∧
      ∀ target, (∀ bound : DictionaryCursor → Nat, TermCursor.bound c ≤ bound c →
          TermCursor.seek target c = TermCursor.seekByNext TermCursor.term? TermCursor.next bound target c) ∧
        ((∃ x, TermCursor.seek target c = .fault x) ↔ ¬ TermCursor.CanSeek target c) ∧
        (TermCursor.CanSeek target c → ∃ c' found, TermCursor.seek target c = .done c' found ∧
          (found = true ↔ ∃ e ∈ c.rest, (compare target e.term).isLE) ∧
          TermCursor.term? c' = (c.rest.map TermEntry.term).find? (fun t => (compare target t).isLE) ∧
          c'.rest = c.rest.dropWhile (compare ·.term target == .lt)) := by
  have hsorted := isSorted_ofList entries
  have hplace := IsPlaceIn.of_reaches hsorted (Nat.zero_le _) h
  refine ⟨hsorted.rest, fun e => rest_ofList entries ▸ Sorted.mem_ofList_iff, hplace.rest_suffix,
    congrArg (Option.map TermEntry.term) c.current?_eq, congrArg (Option.elim · 0 TermEntry.docFreq) c.current?_eq,
    fun target => ⟨fun bound hb => ?_, ⟨?_, seek_fault⟩, fun ht => ?_⟩⟩
  · exact (hplace.isSorted hsorted).seek_eq_seekByNext hplace.position_le (c.length_rest ▸ hb)
  · rintro ⟨x, hx⟩ ht
    obtain ⟨c', hseek, -⟩ := (hplace.isSorted hsorted).seek_skips ht
    cases hseek.symm.trans hx
  · obtain ⟨c', hseek, hskips⟩ := (hplace.isSorted hsorted).seek_skips ht
    exact ⟨c', _, hseek, decide_eq_true_iff.trans hskips.rest_ne_nil_iff, hskips.term?_eq, hskips.rest_eq⟩

theorem seek_follows_walk_unsorted :
    let entries : List TermEntry :=
      [⟨⟨"f", "m"⟩, 3⟩, ⟨⟨"f", "c"⟩, 1⟩, ⟨⟨"f", "m"⟩, 9⟩, ⟨⟨"f", "x"⟩, 4⟩, ⟨⟨"f", "c"⟩, 7⟩]
    ∃ c : DictionaryCursor, TermCursor.Reaches (ofList entries) c ∧
      c.rest = [⟨⟨"f", "m"⟩, 3⟩, ⟨⟨"f", "x"⟩, 4⟩] ∧ (∃ x, TermCursor.seek ⟨"f", "l"⟩ c = .fault x) ∧
      (∃ c', TermCursor.seek ⟨"f", "n"⟩ c = .done c' true ∧ c'.term? = some ⟨"f", "x"⟩ ∧
        TermCursor.seekByNext TermCursor.term? TermCursor.next TermCursor.bound ⟨"f", "n"⟩ c = .done c' true) ∧
      ∃ c', TermCursor.seek ⟨"g", ""⟩ c = .done c' false ∧ c'.term? = none := by
  intro entries
  have hlist : (ofList entries).rest = [⟨⟨"f", "c"⟩, 1⟩, ⟨⟨"f", "m"⟩, 3⟩, ⟨⟨"f", "x"⟩, 4⟩] := by
    have hstart : TermCursor.Reaches (ofList entries) (ofList entries) := .refl
    obtain ⟨hincreasing, hfirst, -⟩ := seek_follows_walk hstart
    refine hincreasing.eq_of_mem_iff (by rw [Sorted.Increasing]; decide) fun e => (hfirst e).trans ⟨fun hf => ?_, ?_⟩
    · have hmem := List.mem_of_find?_eq_some hf
      simp only [entries, List.mem_cons, List.not_mem_nil, or_false] at hmem
      rcases hmem with rfl | rfl | rfl | rfl | rfl <;> revert hf <;> decide
    · simp only [List.mem_cons, List.not_mem_nil, or_false]
      rintro (rfl | rfl | rfl) <;> decide
  have hreach : TermCursor.Reaches (ofList entries) { ofList entries with position := 1 } :=
    .next .refl (next_eq (hlist ▸ List.cons_ne_nil _ _))
  have hrest : { ofList entries with position := 1 }.rest = [⟨⟨"f", "m"⟩, 3⟩, ⟨⟨"f", "x"⟩, 4⟩] :=
    (next_rest (ofList entries)).trans (congrArg List.tail hlist)
  obtain ⟨-, -, -, hterm, -, hseek⟩ := seek_follows_walk hreach
  rw [hrest] at hterm hseek
  have hcan (t : Term) (ht : compare t ⟨"f", "m"⟩ ≠ .lt) : TermCursor.CanSeek t { ofList entries with position := 1 } :=
    ⟨_, hterm, ht⟩
  obtain ⟨c₁, found₁, hdone₁, hfound₁, hterm₁, -⟩ := (hseek ⟨"f", "n"⟩).2.2 (hcan _ (by decide))
  obtain ⟨c₂, found₂, hdone₂, hfound₂, hterm₂, -⟩ := (hseek ⟨"g", ""⟩).2.2 (hcan _ (by decide))
  obtain rfl : found₁ = true := hfound₁.mpr (by decide)
  obtain rfl : found₂ = false := Bool.eq_false_iff.mpr fun hf => absurd (hfound₂.mp hf) (by decide)
  refine ⟨_, hreach, hrest, (hseek ⟨"f", "l"⟩).2.1.mpr ?_, ⟨c₁, hdone₁, hterm₁, ?_⟩, c₂, hdone₂, hterm₂⟩
  · rintro ⟨t, ht, hlt⟩
    obtain rfl : _ = t := Option.some.inj (hterm.symm.trans ht)
    exact hlt (by decide)
  · exact ((hseek ⟨"f", "n"⟩).1 TermCursor.bound (Nat.le_refl _)).symm.trans hdone₁

end DictionaryCursor

end InvertedIndex
