import InvertedIndex.Proofs.Merge.Listed
import InvertedIndex.Proofs.Outages

namespace InvertedIndex

lemma TermCursor.Walks.mapState {B C : Type} {P : B → Prop} {Q : C → Prop} {entries : B → List TermEntry}
    {entries' : C → List TermEntry} {failures : B → List Error} {failures' : C → List Error} {f : B → C} {b : B}
    {o : Outcome B Bool} (h : Walks P entries failures b o) (hP : ∀ b, P b → Q (f b))
    (he : ∀ b, entries' (f b) = entries b) (hf : ∀ b, failures' (f b) = failures b) :
    Walks Q entries' failures' (f b) (o.mapState f) := by
  cases o with
  | done c more =>
    obtain ⟨hmore, hv, htail, hfail⟩ := h
    exact ⟨by rw [hmore, he], hP c hv, by rw [he, htail, he], by rw [hf, hfail, hf]⟩
  | failed c e =>
    obtain ⟨hv, hsame, hfail⟩ := h
    exact ⟨hP c hv, by rw [he, hsame, he], by rw [hf, hf]; exact hfail⟩
  | fault x => exact h

namespace SegmentCursor

def IsHonest : SegmentCursor → Prop
  | .dictionary _ => True
  | .listing _ => True
  | .scripted script _ inner => script.claimsMore = false ∧ script.claimsDone = false ∧ inner.IsHonest

def entries : SegmentCursor → List TermEntry
  | .dictionary c => ListedCursor.entries c
  | .listing c => ListedCursor.entries c
  | .scripted _ _ inner => inner.entries

def failures : SegmentCursor → List Error
  | .dictionary _ => []
  | .listing _ => []
  | .scripted script calls inner => script.outages.failures calls ++ inner.failures

lemma scripted_walks {script : Script} {calls : Nat} {inner : SegmentCursor}
    (h : IsHonest (.scripted script calls inner))
    (hw : TermCursor.Walks IsHonest entries failures inner inner.next) :
    TermCursor.Walks IsHonest entries failures (.scripted script calls inner)
      (next (.scripted script calls inner)) := by
  obtain ⟨hmore, hdone, hinner⟩ := h
  have hsucc := script.outages.failures_succ calls
  rw [next]
  cases ho : script.outages calls with
  | some e =>
    rw [ho] at hsucc
    refine ⟨⟨hmore, hdone, hinner⟩, rfl, ?_⟩
    rw [failures, failures, hsucc, List.append_assoc]
    exact List.perm_middle
  | none =>
    rw [ho, Option.toList_none, List.append_nil] at hsucc
    dsimp only
    cases hn : inner.next with
    | done c more =>
      rw [hn] at hw
      obtain ⟨hm, hv, htail, hfail⟩ := hw
      refine ⟨?_, ⟨hmore, hdone, hv⟩, htail, ?_⟩
      · change script.claim more = decide (inner.entries.tail ≠ [])
        simp [Script.claim, hmore, hdone, hm]
      · rw [failures, failures, hsucc, hfail]
    | failed c e =>
      rw [hn] at hw
      obtain ⟨hv, hsame, hfail⟩ := hw
      refine ⟨⟨hmore, hdone, hv⟩, hsame, ?_⟩
      rw [failures, failures, hsucc]
      exact (hfail.append_left _).trans List.perm_middle
    | fault x =>
      rw [hn] at hw
      exact hw

lemma next_walks {c : SegmentCursor} (h : c.IsHonest) (hne : c.entries ≠ []) :
    TermCursor.Walks IsHonest entries failures c c.next := by
  induction c with
  | dictionary c =>
    have hwalks := WalkingCursor.walks (C := DictionaryCursor) trivial hne
    exact hwalks.mapState (fun _ _ => trivial) (fun _ => rfl) fun _ => rfl
  | listing c =>
    have hwalks := WalkingCursor.walks (C := ListingCursor) trivial hne
    exact hwalks.mapState (fun _ _ => trivial) (fun _ => rfl) fun _ => rfl
  | scripted script calls inner ih => exact scripted_walks h (ih h.2.2 hne)

lemma term?_eq (c : SegmentCursor) : c.term? = c.entries.head?.map TermEntry.term := by
  induction c with
  | dictionary c => exact ListedCursor.term?_eq c
  | listing c => exact ListedCursor.term?_eq c
  | scripted script calls inner ih => exact ih

lemma docFreq_eq (c : SegmentCursor) : c.docFreq = c.entries.head?.elim 0 TermEntry.docFreq := by
  induction c with
  | dictionary c => exact ListedCursor.docFreq_eq c
  | listing c => exact ListedCursor.docFreq_eq c
  | scripted script calls inner ih => exact ih

lemma length_le_bound (c : SegmentCursor) : c.entries.length ≤ c.bound := by
  induction c with
  | dictionary c => exact ListedCursor.length_le_bound c
  | listing c => exact ListedCursor.length_le_bound c
  | scripted script calls inner ih => exact ih

instance : WalkingCursor SegmentCursor where
  IsValid := IsHonest
  entries := entries
  failures := failures
  term?_eq := term?_eq
  docFreq_eq := docFreq_eq
  walks := next_walks
  length_le_bound := length_le_bound

end SegmentCursor

end InvertedIndex
