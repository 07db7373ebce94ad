import InvertedIndex.DocCursor
import InvertedIndex.Proofs.Outcome
import InvertedIndex.Proofs.Sorted

namespace InvertedIndex

lemma DocId.compare_eq_lt {x y : DocId} : compare x y = .lt ↔ x < y := Std.compare_eq_lt

lemma DocId.le_exhausted (x : DocId) : x ≤ exhausted := by
  rw [exhausted]; grind

inductive Move where
  | next
  | seek (target : DocId)

namespace Move

def keeps (m : Move) (current x : DocId) : Bool :=
  match m with
  | .next => current < x
  | .seek target => target ≤ x

def IsForward (m : Move) (current : DocId) : Prop :=
  match m with
  | .next => True
  | .seek target => current ≤ target

def apply {C : Type} [DocCursor C] (m : Move) (c : C) : Outcome C Unit :=
  match m with
  | .next => DocCursor.next c
  | .seek target => DocCursor.seek target c

end Move

namespace Remaining

def front (left : List DocId) : DocId := left.headD DocId.exhausted

def move (m : Move) (left : List DocId) : List DocId := left.filter (m.keeps (front left))

def moves (ms : List Move) (left : List DocId) : List DocId := ms.foldl (fun left m => move m left) left

def answers : List Move → List DocId → List DocId
  | [], _ => []
  | m :: ms, left => front (move m left) :: answers ms (move m left)

def GoesForward : List Move → List DocId → Prop
  | [], _ => True
  | m :: ms, left => (front left ≠ DocId.exhausted → m.IsForward (front left)) ∧ GoesForward ms (move m left)

@[simp] lemma moves_cons (m : Move) (ms : List Move) (left : List DocId) :
    moves (m :: ms) left = moves ms (move m left) := rfl

end Remaining

namespace DocCursor

variable {C : Type} [DocCursor C]

def run : List Move → C → Outcome C (List DocId)
  | [], c => .done c []
  | m :: ms, c =>
    match answer (m.apply c) with
    | .done c x => (run ms c).map (x :: ·)
    | .failed c e => .failed c e
    | .fault x => .fault x

def GoesForward : List Move → C → Prop
  | [], _ => True
  | m :: ms, c =>
    (doc c ≠ DocId.exhausted → m.IsForward (doc c)) ∧ ∀ c', m.apply c = .done c' () → GoesForward ms c'

lemma run_cons_done {m : Move} {ms : List Move} {c c' : C} {docs : List DocId} (h : run (m :: ms) c = .done c' docs) :
    ∃ c₁ docs₁, m.apply c = .done c₁ () ∧ run ms c₁ = .done c' docs₁ := by
  rw [run] at h
  cases hm : m.apply c with
  | done c₁ u =>
    rw [hm] at h
    obtain ⟨docs₁, hrun, -⟩ := Outcome.map_eq_done h
    exact ⟨c₁, docs₁, rfl, hrun⟩
  | failed c₁ e =>
    rw [hm] at h
    cases h
  | fault x =>
    rw [hm] at h
    cases h

lemma isExhausted_iff {c : C} : isExhausted c = true ↔ doc c = DocId.exhausted := beq_iff_eq

end DocCursor

class FaithfulCursor (C : Type) [DocCursor C] where
  IsValid : C → Prop
  documents : C → List DocId
  doc_mem {c : C} : IsValid c → DocCursor.doc c ≠ DocId.exhausted → DocCursor.doc c ∈ documents c
  doc_le {c : C} {x : DocId} : IsValid c → x ∈ documents c → DocCursor.doc c ≤ x
  exhausted_notMem {c : C} : IsValid c → DocId.exhausted ∉ documents c
  length_le_bound {c : C} : IsValid c → (documents c).length ≤ DocCursor.bound c
  apply_done {c : C} {m : Move} : IsValid c → DocCursor.doc c ≠ DocId.exhausted → m.IsForward (DocCursor.doc c) →
    ∃ c', m.apply c = .done c' () ∧ IsValid c' ∧
      ∀ x, x ∈ documents c' ↔ x ∈ documents c ∧ m.keeps (DocCursor.doc c) x = true

namespace FaithfulCursor

variable {C : Type} [DocCursor C] [FaithfulCursor C] {c c' : C}

lemma doc_eq_exhausted_iff (h : IsValid c) : DocCursor.doc c = DocId.exhausted ↔ ∀ x, x ∉ documents c := by
  constructor
  · intro he x hx
    have hle := doc_le h hx
    have hne : x ≠ DocId.exhausted := fun hxe => exhausted_notMem h (hxe ▸ hx)
    rw [he] at hle
    have hge := DocId.le_exhausted x
    grind
  · intro hx
    by_contra hne
    exact hx _ (doc_mem h hne)

lemma not_isExhausted_of_mem {x : DocId} (h : IsValid c) (hx : x ∈ documents c) :
    (!DocCursor.isExhausted c) = true := by
  have hne : DocCursor.doc c ≠ DocId.exhausted := fun he => (doc_eq_exhausted_iff h).mp he x hx
  rw [Bool.not_eq_true', Bool.eq_false_iff]
  exact mt DocCursor.isExhausted_iff.mp hne

structure Represents (c : C) (left : List DocId) : Prop where
  valid : IsValid c
  increasing : Sorted.Increasing id left
  mem_iff : ∀ x, x ∈ documents c ↔ x ∈ left

namespace Represents

variable {left : List DocId}

lemma doc_eq (h : Represents c left) : DocCursor.doc c = Remaining.front left := by
  cases left with
  | nil => exact (doc_eq_exhausted_iff h.valid).mpr fun x hx => List.not_mem_nil ((h.mem_iff x).mp hx)
  | cons d ds =>
    have hd := (h.mem_iff d).mpr List.mem_cons_self
    have hle := doc_le h.valid hd
    have hne : DocCursor.doc c ≠ DocId.exhausted :=
      fun he => (doc_eq_exhausted_iff h.valid).mp he d hd
    rcases List.mem_cons.mp ((h.mem_iff _).mp (doc_mem h.valid hne)) with he | hmem
    · exact he
    · have hlt := DocId.compare_eq_lt.mp ((List.pairwise_cons.mp h.increasing).1 _ hmem)
      simp only [id_eq] at hlt
      grind

lemma eq_nil_iff (h : Represents c left) : left = [] ↔ DocCursor.doc c = DocId.exhausted := by
  rw [doc_eq_exhausted_iff h.valid, List.eq_nil_iff_forall_not_mem]
  simp only [h.mem_iff]

lemma move (h : Represents c left) {m : Move} (hv : IsValid c')
    (hmem : ∀ x, x ∈ documents c' ↔ x ∈ documents c ∧ m.keeps (DocCursor.doc c) x = true) :
    Represents c' (Remaining.move m left) := by
  refine ⟨hv, List.Pairwise.filter _ h.increasing, fun x => ?_⟩
  rw [hmem, h.mem_iff, h.doc_eq, Remaining.move, List.mem_filter]

end Represents

end FaithfulCursor

end InvertedIndex
