import InvertedIndex.SegmentCursor
import InvertedIndex.Proofs.Dictionary.Entries
import InvertedIndex.Proofs.Merge.Advance
import InvertedIndex.Proofs.Merge.Reference

namespace InvertedIndex

def TermCursor.Walks {C : Type} (IsValid : C → Prop) (entries : C → List TermEntry) (failures : C → List Error)
    (c : C) : Outcome C Bool → Prop
  | .done c' more => more = decide ((entries c).tail ≠ []) ∧ IsValid c' ∧ entries c' = (entries c).tail ∧
    failures c' = failures c
  | .failed c' e => IsValid c' ∧ entries c' = entries c ∧ (failures c').Perm (e :: failures c)
  | .fault _ => False

class WalkingCursor (C : Type) [TermCursor C] where
  IsValid : C → Prop
  entries : C → List TermEntry
  failures : C → List Error
  term?_eq (c : C) : TermCursor.term? c = (entries c).head?.map TermEntry.term
  docFreq_eq (c : C) : TermCursor.docFreq c = (entries c).head?.elim 0 TermEntry.docFreq
  walks {c : C} : IsValid c → entries c ≠ [] → TermCursor.Walks IsValid entries failures c (TermCursor.next c)
  length_le_bound (c : C) : (entries c).length ≤ TermCursor.bound c

class ListedCursor (C : Type) [TermCursor C] where
  entries : C → List TermEntry
  term?_eq (c : C) : TermCursor.term? c = (entries c).head?.map TermEntry.term
  docFreq_eq (c : C) : TermCursor.docFreq c = (entries c).head?.elim 0 TermEntry.docFreq
  next_done {c : C} : entries c ≠ [] →
    ∃ c', TermCursor.next c = .done c' (decide ((entries c).tail ≠ [])) ∧ entries c' = (entries c).tail
  close_error (c : C) : (TermCursor.closing c).error = none
  length_le_bound (c : C) : (entries c).length ≤ TermCursor.bound c

instance {C : Type} [TermCursor C] [ListedCursor C] : WalkingCursor C where
  IsValid _ := True
  entries := ListedCursor.entries
  failures _ := []
  term?_eq := ListedCursor.term?_eq
  docFreq_eq := ListedCursor.docFreq_eq
  walks {c} _ h := by
    obtain ⟨c', hc, hentries⟩ := ListedCursor.next_done h
    rw [hc]
    exact ⟨rfl, trivial, hentries, rfl⟩
  length_le_bound := ListedCursor.length_le_bound

namespace DictionaryCursor

instance : ListedCursor DictionaryCursor where
  entries := rest
  term?_eq c := congrArg (Option.map TermEntry.term) c.current?_eq
  docFreq_eq c := congrArg (Option.elim · 0 TermEntry.docFreq) c.current?_eq
  next_done {c} h := ⟨_, next_eq h, c.next_rest⟩
  close_error _ := rfl
  length_le_bound c := by simp [rest, TermCursor.bound]

end DictionaryCursor

instance : ListedCursor ListingCursor where
  entries c := c.entries.toList.drop c.position
  term?_eq c := by simp [TermCursor.term?, ListingCursor.current?]
  docFreq_eq c := by simp [TermCursor.docFreq, ListingCursor.current?]
  next_done {c} _ := by
    refine ⟨{ c with position := c.position + 1 }, ?_, by simp⟩
    simp only [TermCursor.next, List.tail_drop]
    congr 1
    simp
  close_error _ := rfl
  length_le_bound c := by simp [TermCursor.bound]

namespace MergeSource

variable {C : Type} [TermCursor C]

section Walking

variable [WalkingCursor C] {s : MergeSource C} {t : Term}

def listed (s : MergeSource C) : TermList := ⟨s.origin, WalkingCursor.entries s.cursor⟩

lemma term?_eq (s : MergeSource C) : s.term? = s.listed.entries.head?.map TermEntry.term :=
  WalkingCursor.term?_eq s.cursor

lemma docFreq_eq (s : MergeSource C) : s.docFreq = s.listed.entries.head?.elim 0 TermEntry.docFreq :=
  WalkingCursor.docFreq_eq s.cursor

lemma term?_eq_none_iff : s.term? = none ↔ s.listed.entries = [] := by
  rw [term?_eq, Option.map_eq_none_iff, List.head?_eq_none_iff]

lemma term?_isSome (s : MergeSource C) : s.term?.isSome = decide (s.listed.entries ≠ []) := by
  rw [term?_eq]
  cases s.listed.entries <;> rfl

lemma requeued_listed (hv : WalkingCursor.IsValid s.cursor) (h : s.listed.entries ≠ []) (hm : s.Moves) :
    s.requeued.map listed = [s.listed.tail].filter (·.entries ≠ []) := by
  obtain ⟨c, more, hc⟩ := hm
  have hwalks := WalkingCursor.walks hv h
  rw [hc] at hwalks
  obtain ⟨rfl, -, htail, -⟩ := hwalks
  have hterm : (TermCursor.term? c).isSome = decide ((WalkingCursor.entries s.cursor).tail ≠ []) := by
    rw [WalkingCursor.term?_eq, htail]
    cases (WalkingCursor.entries s.cursor).tail <;> rfl
  by_cases ht : (WalkingCursor.entries s.cursor).tail = []
  · rw [(finished_eq hc (by simp [ht])).1]
    simp [listed, TermList.tail, ht]
  · rw [(requeued_eq hc (by simp [hterm, ht])).1]
    simp [listed, TermList.tail, ht, htail]

lemma walked (hv : WalkingCursor.IsValid s.cursor) (h : s.listed.entries ≠ []) {s' : MergeSource C}
    (hs : s' ∈ s.requeued ++ s.finished) :
    WalkingCursor.IsValid s'.cursor ∧ WalkingCursor.failures s'.cursor = WalkingCursor.failures s.cursor := by
  have hwalks := WalkingCursor.walks hv h
  cases hm : TermCursor.next s.cursor with
  | done c more =>
    rw [hm] at hwalks
    obtain ⟨-, hvalid, -, hfailures⟩ := hwalks
    have hmem : s' = { s with cursor := c } := by
      by_cases hmore : (more && (TermCursor.term? c).isSome) = true
      · simpa [requeued_eq hm hmore] using hs
      · simpa [finished_eq hm hmore] using hs
    exact hmem ▸ ⟨hvalid, hfailures⟩
  | failed c e => simp [requeued, finished, hm] at hs
  | fault x => simp [requeued, finished, hm] at hs

lemma startsWith (hinc : Sorted.Increasing TermEntry.term s.listed.entries) (ht : s.term? = some t) :
    s.listed.StartsWith t :=
  ⟨hinc, by rw [← term?_eq, ht]⟩

lemma later_of_term?_lt (hinc : Sorted.Increasing TermEntry.term s.listed.entries) {u : Term} (hu : s.term? = some u)
    (htu : compare t u = .lt) {e : TermEntry} (he : e ∈ s.listed.entries) : compare t e.term = .lt := by
  obtain ⟨d, es, hl, rfl⟩ := (startsWith hinc hu).exists_cons
  rw [hl] at he hinc
  rcases List.mem_cons.mp he with rfl | he
  · exact htu
  · exact Std.TransCmp.lt_trans htu ((List.pairwise_cons.mp hinc).1 e he)

end Walking

section Listed

variable [ListedCursor C] {s : MergeSource C}

lemma moves (h : s.listed.entries ≠ []) : s.Moves := by
  obtain ⟨c, hc, -⟩ := ListedCursor.next_done h
  exact ⟨c, _, hc⟩

lemma closeErrors_eq_nil (sources : List (MergeSource C)) : closeErrors sources = [] :=
  List.filterMap_eq_nil_iff.mpr fun s _ => ListedCursor.close_error s.cursor

end Listed

end MergeSource

end InvertedIndex
