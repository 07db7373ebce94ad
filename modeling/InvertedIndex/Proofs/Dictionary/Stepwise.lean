import InvertedIndex.Proofs.Dictionary.Seek
import InvertedIndex.Proofs.Merge.Segments

namespace InvertedIndex

namespace TermCursor

open DictionaryCursor (before)
open WalkingCursor (IsValid entries failures)

variable {C : Type} [TermCursor C] {target t : Term} {c c' : C} {moves : List (Outcome C Bool)} {o : Outcome C Bool}

/-- The turns of a search, and what its moves come to. Nothing limits their number. -/
inductive Search (target : Term) : C → List (Outcome C Bool) → Outcome C Bool → Prop
  | ended {c : C} : term? c = none → Search target c [] (.done c false)
  | found {c : C} {t : Term} : term? c = some t → (compare target t).isLE = true → Search target c [] (.done c true)
  | onward {c c' : C} {t : Term} {moves : List (Outcome C Bool)} {o : Outcome C Bool} : term? c = some t →
    (compare target t).isLE = false → next c = .done c' true → Search target c' moves o →
    Search target c (.done c' true :: moves) o
  | stopped {c : C} {t : Term} : term? c = some t → (compare target t).isLE = false →
    (∀ c', next c ≠ .done c' true) → Search target c [next c] (next c)

inductive Attempts (target : Term) (start : C) : C → Prop
  | start : Attempts target start start
  | failed {c c' : C} {e : Error} : Attempts target start c →
    seekByNext term? next bound target c = .failed c' e → Attempts target start c'

lemma Search.failed_mem_iff (h : Search target c moves o) (c' : C) (e : Error) :
    .failed c' e ∈ moves ↔ o = .failed c' e := by
  induction h with
  | ended | found => simp
  | onward _ _ _ _ ih => simpa using ih
  | stopped => rw [List.mem_singleton, eq_comm]

lemma seekByNext_eq_walkTo (h : CanSeek target c) :
    seekByNext term? next bound target c = walkTo term? next target (bound c) c := by
  obtain ⟨t, ht, hle⟩ := h
  rw [seekByNext, show term? c = some t from ht]
  exact if_neg hle

variable [WalkingCursor C]

lemma term?_eq_some_iff : term? c = some t ↔ ∃ e es, entries c = e :: es ∧ e.term = t := by
  rw [WalkingCursor.term?_eq]
  cases entries c <;> simp

lemma term?_eq_none_iff : term? c = none ↔ entries c = [] := by
  rw [WalkingCursor.term?_eq, Option.map_eq_none_iff, List.head?_eq_none_iff]

lemma exists_entry (h : term? c = some t) :
    ∃ e es, entries c = e :: es ∧ e.term = t ∧ (compare target t).isLE = !before target e := by
  obtain ⟨e, es, hcons, rfl⟩ := term?_eq_some_iff.mp h
  exact ⟨e, es, hcons, rfl, Term.isLE_eq_not_lt target e.term⟩

lemma exists_search {limit : Nat} (hv : IsValid c) (hl : (entries c).length ≤ limit) :
    ∃ moves, Search target c moves (walkTo term? next target limit c) := by
  -- A move after which the search goes on leaves one entry fewer.
  induction limit generalizing c with
  | zero => exact ⟨[], .ended (term?_eq_none_iff.mpr (List.length_eq_zero_iff.mp (Nat.le_zero.mp hl)))⟩
  | succ limit ih =>
    rw [walkTo]
    cases ht : term? c with
    | none => exact ⟨[], .ended ht⟩
    | some t =>
      obtain ⟨e, es, hcons, -⟩ := term?_eq_some_iff.mp ht
      have hwalks := WalkingCursor.walks hv (hcons ▸ List.cons_ne_nil e es)
      dsimp only
      cases hle : (compare target t).isLE with
      | true => exact ⟨[], .found ht hle⟩
      | false =>
        rw [if_neg Bool.false_ne_true]
        have hstop : (∀ c', next c ≠ .done c' true) → ∃ moves, Search target c moves (next c) :=
          fun h => ⟨_, .stopped ht hle h⟩
        cases hn : next c with
        | done c' more =>
          rw [hn] at hwalks hstop
          cases more with
          | true =>
            obtain ⟨-, hv', htail, -⟩ := hwalks
            rw [hcons] at htail hl
            obtain ⟨moves, hsearch⟩ := ih hv' (htail ▸ Nat.le_of_succ_le_succ hl)
            exact ⟨_, .onward ht hle hn hsearch⟩
          | false => exact hstop fun _ => by simp
        | failed c' e =>
          rw [hn] at hstop
          exact hstop fun _ => by simp
        | fault x =>
          rw [hn] at hwalks
          exact hwalks.elim

def Sought (target : Term) (c : C) : Outcome C Bool → Prop
  | .done c' found => found = decide (entries c' ≠ []) ∧ entries c' = (entries c).dropWhile (before target)
  | .failed c' e => IsValid c' ∧ (failures c').Perm (e :: failures c) ∧ (∃ t ∈ term? c', compare t target = .lt) ∧
    ∃ passed, entries c = passed ++ entries c' ∧ ∀ e ∈ passed, before target e = true
  | .fault _ => False

lemma Sought.cons {e : TermEntry} (h : Sought target c' o) (hcons : entries c = e :: entries c')
    (he : before target e = true) (hf : failures c' = failures c) : Sought target c o := by
  cases o with
  | done c₁ found =>
    obtain ⟨hfound, hrest⟩ := h
    exact ⟨hfound, by rw [hrest, hcons, List.dropWhile_cons_of_pos he]⟩
  | failed c₁ x =>
    obtain ⟨hv, hfailures, hterm, passed, hpassed, hall⟩ := h
    refine ⟨hv, hf ▸ hfailures, hterm, e :: passed, ?_, List.forall_mem_cons.mpr ⟨he, hall⟩⟩
    rw [hcons, hpassed, List.cons_append]
  | fault x => exact h

lemma Search.sought (h : Search target c moves o) (hv : IsValid c) : Sought target c o := by
  induction h with
  | ended ht =>
    have hnil := term?_eq_none_iff.mp ht
    exact ⟨by simp [hnil], by rw [hnil, List.dropWhile_nil]⟩
  | found ht hle =>
    obtain ⟨e, es, hcons, -, hbefore⟩ := exists_entry ht
    rw [hle, eq_comm, Bool.not_eq_true'] at hbefore
    exact ⟨by simp [hcons], by rw [hcons, List.dropWhile_cons_of_neg (by simp [hbefore])]⟩
  | onward ht hle hn _ ih =>
    obtain ⟨e, es, hcons, -, hbefore⟩ := exists_entry ht
    rw [hle, eq_comm, Bool.not_eq_false'] at hbefore
    have hwalks := WalkingCursor.walks hv (hcons ▸ List.cons_ne_nil e es)
    rw [hn] at hwalks
    obtain ⟨-, hv', htail, hfailures⟩ := hwalks
    exact (ih hv').cons (by rw [htail, hcons, List.tail_cons]) hbefore hfailures
  | @stopped c t ht hle hstop =>
    obtain ⟨e, es, hcons, rfl, hbefore⟩ := exists_entry ht
    rw [hle, eq_comm, Bool.not_eq_false'] at hbefore
    have hwalks := WalkingCursor.walks hv (hcons ▸ List.cons_ne_nil e es)
    cases hn : next c with
    | done c' more =>
      rw [hn] at hwalks
      obtain ⟨hmore, -, htail, -⟩ := hwalks
      have hend : (entries c).tail = [] := by
        by_contra hne
        exact hstop c' (by rw [hn, hmore, decide_eq_true hne])
      refine ⟨by rw [hmore, htail], ?_⟩
      rw [hcons, List.tail_cons] at hend
      rw [htail, hcons, hend, List.dropWhile_cons_of_pos hbefore, List.dropWhile_nil, List.tail_cons]
    | failed c' x =>
      rw [hn] at hwalks
      obtain ⟨hv', hsame, hfailures⟩ := hwalks
      refine ⟨hv', hfailures, ⟨e.term, ?_, beq_iff_eq.mp hbefore⟩, [], hsame.symm, nofun⟩
      exact term?_eq_some_iff.mpr ⟨e, es, hsame.trans hcons, rfl⟩
    | fault x =>
      rw [hn] at hwalks
      exact hwalks.elim

lemma exists_seek (hv : IsValid c) (hs : CanSeek target c) :
    ∃ moves, Search target c moves (seekByNext term? next bound target c) := by
  rw [seekByNext_eq_walkTo hs]
  exact exists_search hv (WalkingCursor.length_le_bound c)

def listing (c : C) : ListingCursor := { entries := (entries c).toArray }

lemma CanSeek.listing (h : CanSeek target c) : CanSeek target (listing c) := by
  have hterm : term? (TermCursor.listing c) = term? c :=
    (WalkingCursor.term?_eq _).trans (WalkingCursor.term?_eq c).symm
  rwa [CanSeek, hterm]

lemma listing_seek (h : CanSeek target c) :
    ∃ l, seekByNext term? next bound target (listing c) = .done l (decide (entries l ≠ [])) ∧
      entries l = (entries c).dropWhile (before target) := by
  obtain ⟨moves, hsearch⟩ := exists_seek (c := listing c) trivial h.listing
  have hsought := hsearch.sought trivial
  cases hl : seekByNext term? next bound target (listing c) with
  | done l found =>
    rw [hl] at hsought
    obtain ⟨rfl, hrest⟩ := hsought
    exact ⟨l, rfl, hrest⟩
  | failed l e =>
    rw [hl] at hsought
    exact absurd hsought.2.1.symm (List.not_perm_cons_nil)
  | fault x =>
    rw [hl] at hsought
    exact hsought.elim

lemma Attempts.resumes {start : C} (h : Attempts target start c) (hv : IsValid start) (hs : CanSeek target start) :
    IsValid c ∧ CanSeek target c ∧
      ∃ passed, entries start = passed ++ entries c ∧ ∀ e ∈ passed, before target e = true := by
  induction h with
  | start => exact ⟨hv, hs, [], rfl, nofun⟩
  | failed _ hfailed ih =>
    obtain ⟨hvalid, hseek, passed, hpassed, hall⟩ := ih
    obtain ⟨moves, hsearch⟩ := exists_seek hvalid hseek
    rw [hfailed] at hsearch
    obtain ⟨hvalid', -, ⟨t, ht, hlt⟩, passed', hpassed', hall'⟩ := hsearch.sought hvalid
    have hgt : compare target t = .gt := Std.OrientedCmp.gt_of_lt hlt
    refine ⟨hvalid', ⟨t, ht, by simp [hgt]⟩, passed ++ passed', ?_, List.forall_mem_append.mpr ⟨hall, hall'⟩⟩
    rw [hpassed, hpassed', List.append_assoc]

/-- A search by single moves comes to an end. If one of the moves fails, so does the search, with the same error, on a
term before the target to which it has passed such terms only. Taken up there, as often as it fails, it meets no fault;
and when it succeeds, it has come to the first entry that is not before the target, as it does without failures. -/
theorem interrupted_seek_resumes {start : C} (hv : IsValid start) (hs : CanSeek target start)
    (ha : Attempts target start c) :
    (∃ moves, Search target c moves (seekByNext term? next bound target c) ∧
      ∀ c' e, .failed c' e ∈ moves ↔ seekByNext term? next bound target c = .failed c' e) ∧
    (∀ x, seekByNext term? next bound target c ≠ .fault x) ∧
    (∀ c' e, seekByNext term? next bound target c = .failed c' e →
      (failures c').Perm (e :: failures c) ∧ (∃ t ∈ term? c', compare t target = .lt) ∧
      ∃ passed, entries c = passed ++ entries c' ∧ ∀ e ∈ passed, compare e.term target = .lt) ∧
    ∀ c' found, seekByNext term? next bound target c = .done c' found →
      (found = true ↔ ∃ e ∈ entries start, (compare target e.term).isLE) ∧
      entries c' = (entries start).dropWhile (compare ·.term target == .lt) ∧
      ∃ l, seekByNext term? next bound target (listing start) = .done l found ∧ entries l = entries c' := by
  obtain ⟨hvalid, hseek, passed, hpassed, hall⟩ := ha.resumes hv hs
  obtain ⟨moves, hsearch⟩ := exists_seek hvalid hseek
  have hsought := hsearch.sought hvalid
  refine ⟨⟨moves, hsearch, hsearch.failed_mem_iff⟩, fun x hx => ?_, fun c' e hc => ?_, fun c' found hc => ?_⟩
  · rw [hx] at hsought
    exact hsought
  · rw [hc] at hsought
    obtain ⟨-, hfailures, hterm, passed', hpassed', hall'⟩ := hsought
    exact ⟨hfailures, hterm, passed', hpassed', fun e he => beq_iff_eq.mp (hall' e he)⟩
  · rw [hc] at hsought
    obtain ⟨rfl, hrest⟩ := hsought
    have hstart : entries c' = (entries start).dropWhile (before target) := by
      rw [hrest, hpassed, List.dropWhile_append_of_pos hall]
    obtain ⟨l, hl, hlrest⟩ := listing_seek hs
    refine ⟨?_, hstart, l, ?_, hlrest.trans hstart.symm⟩
    · rw [decide_eq_true_iff, hstart, ne_eq, List.dropWhile_eq_nil_iff]
      simp [before, Term.isLE_eq_not_lt]
    · rw [hl, hlrest, hstart]

def unsortedEntries : List TermEntry :=
  [⟨⟨"f", "b"⟩, 1⟩, ⟨⟨"f", "a"⟩, 2⟩, ⟨⟨"f", "d"⟩, 3⟩, ⟨⟨"f", "c"⟩, 4⟩]

def truncated (calls position : Nat) : SegmentCursor :=
  .scripted ⟨"a", Outages.ofCalls [1, 2] (.dataSource "truncated dictionary"), none, false, false⟩ calls
    (.listing { entries := unsortedEntries.toArray, position := position })

theorem interrupted_seek_resumes_unsorted :
    seek ⟨"f", "c"⟩ (truncated 0 0) = .failed (truncated 2 1) (.dataSource "truncated dictionary") ∧
    seek ⟨"f", "c"⟩ (truncated 2 1) = .failed (truncated 3 1) (.dataSource "truncated dictionary") ∧
    (∃ t ∈ term? (truncated 3 1), compare t ⟨"f", "c"⟩ = .lt) ∧
    seek ⟨"f", "c"⟩ (truncated 3 1) = .done (truncated 4 2) true ∧
    ∃ l, seek ⟨"f", "c"⟩ (listing (truncated 0 0)) = .done l true ∧
      entries l = [⟨⟨"f", "d"⟩, 3⟩, ⟨⟨"f", "c"⟩, 4⟩] := by
  have hfirst : seek ⟨"f", "c"⟩ (truncated 0 0) = .failed (truncated 2 1) (.dataSource "truncated dictionary") := rfl
  have hsecond : seek ⟨"f", "c"⟩ (truncated 2 1) = .failed (truncated 3 1) (.dataSource "truncated dictionary") := rfl
  have hthird : seek ⟨"f", "c"⟩ (truncated 3 1) = .done (truncated 4 2) true := rfl
  have hvalid : IsValid (truncated 0 0) := ⟨rfl, rfl, trivial⟩
  have hseek : CanSeek ⟨"f", "c"⟩ (truncated 0 0) := ⟨⟨"f", "b"⟩, rfl, by decide⟩
  have honce : Attempts ⟨"f", "c"⟩ (truncated 0 0) (truncated 2 1) := .failed .start hfirst
  obtain ⟨-, -, hfailed, -⟩ := interrupted_seek_resumes hvalid hseek honce
  obtain ⟨-, -, -, hdone⟩ := interrupted_seek_resumes hvalid hseek (honce.failed hsecond)
  obtain ⟨-, hrest, l, hl, hsame⟩ := hdone _ _ hthird
  exact ⟨hfirst, hsecond, (hfailed _ _ hsecond).2.1, hthird, l, hl, hsame.trans hrest⟩

end TermCursor

end InvertedIndex
