import InvertedIndex.Proofs.Cursor.Moves

namespace InvertedIndex

lemma Move.keeps_exhausted {m : Move} {current : DocId} (h : current ≠ DocId.exhausted) :
    m.keeps current DocId.exhausted = true := by
  have hle := DocId.le_exhausted
  cases m with
  | next => exact decide_eq_true (UInt64.lt_of_le_of_ne (hle current) h)
  | seek target => exact decide_eq_true (hle target)

def Move.Goes {C : Type} [DocCursor C] (m : Move) (P : C → Prop) (current : DocId) : Outcome C Unit → Prop
  | .done c () => P c ∧ m.keeps current (DocCursor.doc c) = true
  | .failed c _ => P c ∧ DocCursor.doc c = current
  | .fault _ => False

lemma Move.Goes.mapState {B C : Type} [DocCursor B] [DocCursor C] {m : Move} {P : B → Prop} {Q : C → Prop}
    {current : DocId} {f : B → C} {o : Outcome B Unit} (h : m.Goes P current o) (hP : ∀ b, P b → Q (f b))
    (hd : ∀ b, DocCursor.doc (f b) = DocCursor.doc b) : m.Goes Q current (o.mapState f) := by
  cases o with
  | done b u => exact ⟨hP b h.1, (hd b).symm ▸ h.2⟩
  | failed b e => exact ⟨hP b h.1, (hd b).trans h.2⟩
  | fault x => exact h

class ForwardCursor (C : Type) [DocCursor C] where
  IsSound : C → Prop
  goes {c : C} {m : Move} : IsSound c → DocCursor.doc c ≠ DocId.exhausted → m.IsForward (DocCursor.doc c) →
    m.Goes IsSound (DocCursor.doc c) (m.apply c)

lemma FaithfulCursor.goes {C : Type} [DocCursor C] [FaithfulCursor C] {c : C} {m : Move} (h : IsValid c)
    (he : DocCursor.doc c ≠ DocId.exhausted) (hf : m.IsForward (DocCursor.doc c)) :
    m.Goes IsValid (DocCursor.doc c) (m.apply c) := by
  obtain ⟨c', hm, hv, hmem⟩ := apply_done h he hf
  rw [hm]
  refine ⟨hv, ?_⟩
  by_cases hx : DocCursor.doc c' = DocId.exhausted
  · rw [hx]
    exact Move.keeps_exhausted he
  · exact ((hmem _).mp (doc_mem hv hx)).2

def Move.EndsAt {C : Type} [DocCursor C] (m : Move) (c c' : C) : Prop :=
  m.apply c = .done c' () ∨ ∃ e, m.apply c = .failed c' e

lemma Move.EndsAt.of_mapState {B C : Type} [DocCursor B] [DocCursor C] {f : B → C} {m : Move} {b : B} {c : C}
    (h : m.EndsAt (f b) c) (hf : m.apply (f b) = (m.apply b).mapState f) : ∃ b', m.EndsAt b b' ∧ f b' = c := by
  rcases h with hm | ⟨e, hm⟩
  · obtain ⟨b', hb, rfl⟩ := Outcome.mapState_eq_done (hf.symm.trans hm)
    exact ⟨b', .inl hb, rfl⟩
  · obtain ⟨b', hb, rfl⟩ := Outcome.mapState_eq_failed (hf.symm.trans hm)
    exact ⟨b', .inr ⟨e, hb⟩, rfl⟩

inductive DocCursor.Attempts {C : Type} [DocCursor C] (c : C) : C → Prop
  | start : Attempts c c
  | done {c₁ c₂ : C} {m : Move} : Attempts c c₁ → m.apply c₁ = .done c₂ () → Attempts c c₂
  | failed {c₁ c₂ : C} {m : Move} {e : Error} : Attempts c c₁ → m.apply c₁ = .failed c₂ e → Attempts c c₂

end InvertedIndex
