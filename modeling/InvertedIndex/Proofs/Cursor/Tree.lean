import InvertedIndex.Query
import InvertedIndex.Proofs.Cursor.Posting
import InvertedIndex.Proofs.Cursor.Union

namespace InvertedIndex

open FaithfulCursor

namespace Leaf

lemma apply_eq (m : Move) (l : Leaf) : m.apply l = l.lift (m.apply l.postings) := by
  cases m <;> rfl

instance : FaithfulCursor Leaf where
  IsValid l := IsValid l.postings
  documents l := documents l.postings
  doc_mem h he := FaithfulCursor.doc_mem (C := PostingCursor) h he
  doc_le h hx := FaithfulCursor.doc_le (C := PostingCursor) h hx
  exhausted_notMem h := FaithfulCursor.exhausted_notMem (C := PostingCursor) h
  length_le_bound h := FaithfulCursor.length_le_bound (C := PostingCursor) h
  apply_done {l m} h he hf := by
    obtain ⟨c, hc, hv, hmem⟩ := FaithfulCursor.apply_done (C := PostingCursor) h he hf
    exact ⟨{ l with postings := c }, by rw [apply_eq, hc]; rfl, hv, hmem⟩

end Leaf

namespace Layer

variable {C : Type} [ScoredCursor C]

lemma apply_leaf (m : Move) (l : Leaf) : m.apply (.leaf l : Layer C) = (m.apply l).mapState .leaf := by
  cases m <;> rfl

lemma apply_union (m : Move) (d : Disjunction C) : m.apply (.union d : Layer C) = (m.apply d).mapState .union := by
  cases m <;> rfl

variable [FaithfulCursor C]

def IsValid : Layer C → Prop
  | .leaf l => FaithfulCursor.IsValid l
  | .unreliable _ => False
  | .union d => FaithfulCursor.IsValid d

def documents : Layer C → List DocId
  | .leaf l => FaithfulCursor.documents l
  | .unreliable u => FaithfulCursor.documents u.inner
  | .union d => FaithfulCursor.documents d

instance : FaithfulCursor (Layer C) where
  IsValid := IsValid
  documents := documents
  doc_mem {c} h he := by
    cases c with
    | leaf l => exact FaithfulCursor.doc_mem (C := Leaf) h he
    | unreliable u => exact h.elim
    | union d => exact FaithfulCursor.doc_mem (C := Disjunction C) h he
  doc_le {c x} h hx := by
    cases c with
    | leaf l => exact FaithfulCursor.doc_le (C := Leaf) h hx
    | unreliable u => exact h.elim
    | union d => exact FaithfulCursor.doc_le (C := Disjunction C) h hx
  exhausted_notMem {c} h := by
    cases c with
    | leaf l => exact FaithfulCursor.exhausted_notMem (C := Leaf) h
    | unreliable u => exact h.elim
    | union d => exact FaithfulCursor.exhausted_notMem (C := Disjunction C) h
  length_le_bound {c} h := by
    cases c with
    | leaf l => exact FaithfulCursor.length_le_bound (C := Leaf) h
    | unreliable u => exact h.elim
    | union d => exact FaithfulCursor.length_le_bound (C := Disjunction C) h
  apply_done {c m} h he hf := by
    cases c with
    | leaf l =>
      obtain ⟨l', hl, hv, hmem⟩ := FaithfulCursor.apply_done (C := Leaf) h he hf
      exact ⟨.leaf l', by rw [apply_leaf, hl]; rfl, hv, hmem⟩
    | unreliable u => exact h.elim
    | union d =>
      obtain ⟨d', hd, hv, hmem⟩ := FaithfulCursor.apply_done (C := Disjunction C) h he hf
      exact ⟨.union d', by rw [apply_union, hd]; rfl, hv, hmem⟩

end Layer

namespace QueryCursor

instance : FaithfulCursor Empty where
  IsValid := nofun
  documents := nofun
  doc_mem {c} := c.elim
  doc_le {c} := c.elim
  exhausted_notMem {c} := c.elim
  length_le_bound {c} := c.elim
  apply_done {c} := c.elim

instance faithfulCursor : (height : Nat) → FaithfulCursor (QueryCursor height)
  | 0 => inferInstanceAs (FaithfulCursor Empty)
  | height + 1 =>
    have := faithfulCursor height
    inferInstanceAs (FaithfulCursor (Layer (QueryCursor height)))

def leaf {n : Nat} (l : Leaf) : QueryCursor (n + 1) := Layer.leaf l

def union {n : Nat} (d : Disjunction (QueryCursor n)) : QueryCursor (n + 1) := Layer.union d

/-- A tree of unions over posting lists, any part of which may have moved forward before it became a child. -/
inductive IsTree : {n : Nat} → QueryCursor n → Prop
  | leaf {n : Nat} {postings : List Posting} {cursor : PostingCursor} (scoring : Scoring) (cost : Option UInt64) :
    PostingCursor.ofList postings = .ok cursor → IsTree (leaf (n := n) ⟨cursor, scoring, cost⟩)
  | union {n : Nat} {children : List (QueryCursor n)} {settings : UnionSettings} {d : Disjunction (QueryCursor n)} :
    (∀ c ∈ children, IsTree c) → Disjunction.ofChildren settings children = .ok d → IsTree (union d)
  | moved {n : Nat} {c c' : QueryCursor n} {m : Move} : IsTree c → DocCursor.doc c ≠ DocId.exhausted →
    m.IsForward (DocCursor.doc c) → m.apply c = .done c' () → IsTree c'

lemma IsTree.isValid {n : Nat} {c : QueryCursor n} (h : IsTree c) : FaithfulCursor.IsValid c := by
  induction h with
  | leaf scoring cost h => exact PostingCursor.isSorted_of_ofList h
  | union _ h ih => exact Disjunction.isValid_ofChildren ih h
  | @moved n c c' m _ he hf hm ih =>
    obtain ⟨c'', hm', hv, -⟩ := FaithfulCursor.apply_done ih he hf
    rw [hm, Outcome.done.injEq] at hm'
    exact hm'.1 ▸ hv

end QueryCursor

end InvertedIndex
