import InvertedIndex.Fault
import Mathlib.Tactic.Lemma

namespace InvertedIndex

namespace Error

def dataSource? : Error → Option String
  | .dataSource text => some text
  | _ => none

lemma dataSource?_eq_some_iff {e : Error} {text : String} : e.dataSource? = some text ↔ e = .dataSource text := by
  cases e <;> simp [dataSource?]

lemma map_dataSource?_eq_iff {es : List Error} {texts : List String} :
    es.map dataSource? = texts.map some ↔ es = texts.map .dataSource := by
  induction es generalizing texts with
  | nil => cases texts <;> simp
  | cons e es ih => cases texts <;> simp [ih, dataSource?_eq_some_iff]

end Error

lemma toOption_eq_some_iff {ε : Type u} {α : Type v} {o : Except ε α} {a : α} : o.toOption = some a ↔ o = .ok a := by
  cases o <;> simp [Except.toOption]

namespace Outcome

variable {σ : Type u} {τ : Type v} {α : Type w} {β : Type x}

lemma mapState_eq_done {f : σ → τ} {o : Outcome σ α} {t : τ} {a : α} (h : o.mapState f = .done t a) :
    ∃ s, o = .done s a ∧ f s = t := by
  cases o with
  | done s b =>
    obtain ⟨hs, rfl⟩ := Outcome.done.inj h
    exact ⟨s, rfl, hs⟩
  | failed s e => cases h
  | fault x => cases h

lemma mapState_eq_failed {f : σ → τ} {o : Outcome σ α} {t : τ} {e : Error} (h : o.mapState f = .failed t e) :
    ∃ s, o = .failed s e ∧ f s = t := by
  cases o with
  | done s a => cases h
  | failed s e' =>
    obtain ⟨hs, rfl⟩ := Outcome.failed.inj h
    exact ⟨s, rfl, hs⟩
  | fault x => cases h

lemma mapState_eq_fault {f : σ → τ} {o : Outcome σ α} {x : Fault} (h : o.mapState f = .fault x) : o = .fault x := by
  cases o with
  | done s a => cases h
  | failed s e => cases h
  | fault y => exact congrArg fault (Outcome.fault.inj h)

lemma map_eq_done {f : α → β} {o : Outcome σ α} {s : σ} {b : β} (h : o.map f = .done s b) :
    ∃ a, o = .done s a ∧ f a = b := by
  cases o with
  | done t a =>
    obtain ⟨rfl, hb⟩ := Outcome.done.inj h
    exact ⟨a, rfl, hb⟩
  | failed t e => cases h
  | fault x => cases h

lemma map_eq_fault {f : α → β} {o : Outcome σ α} {x : Fault} (h : o.map f = .fault x) : o = .fault x := by
  cases o with
  | done s a => cases h
  | failed s e => cases h
  | fault y => exact congrArg fault (Outcome.fault.inj h)

lemma map_eq_self {f : α → α} (hf : ∀ a, f a = a) (o : Outcome σ α) : o.map f = o := by
  cases o with
  | done s a => rw [Outcome.map, hf]
  | failed s e => rfl
  | fault x => rfl

def done? : Outcome σ α → Option (σ × α)
  | .done s a => some (s, a)
  | .failed .. => none
  | .fault _ => none

def failed? : Outcome σ α → Option (σ × Error)
  | .done .. => none
  | .failed s e => some (s, e)
  | .fault _ => none

lemma done?_eq_some_iff {o : Outcome σ α} {s : σ} {a : α} : o.done? = some (s, a) ↔ o = .done s a := by
  cases o <;> simp [done?]

lemma failed?_eq_some_iff {o : Outcome σ α} {s : σ} {e : Error} : o.failed? = some (s, e) ↔ o = .failed s e := by
  cases o <;> simp [failed?]

end Outcome

end InvertedIndex
