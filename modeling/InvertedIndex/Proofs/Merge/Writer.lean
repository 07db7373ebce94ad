import InvertedIndex.Dictionary
import InvertedIndex.Proofs.Outages

namespace InvertedIndex

def DictionaryWriter.Logs {W : Type} (accepted : W → List MergedTerm) (refusals : W → List Error) (e : MergedTerm)
    (w : W) : Outcome W Unit → Prop
  | .done w' () => accepted w' = accepted w ++ [e] ∧ refusals w' = refusals w
  | .failed w' x => accepted w' = accepted w ∧ refusals w' = refusals w ++ [x]
  | .fault _ => False

class LoggedWriter (W : Type) [DictionaryWriter W] where
  accepted : W → List MergedTerm
  refusals : W → List Error
  logs (e : MergedTerm) (w : W) : DictionaryWriter.Logs accepted refusals e w (DictionaryWriter.add e w)

def LoggedWriter.IsReliable (W : Type) [DictionaryWriter W] : Prop :=
  ∀ (e : MergedTerm) (w w' : W) (x : Error), DictionaryWriter.add e w ≠ .failed w' x

lemma Dictionary.isReliable : LoggedWriter.IsReliable Dictionary := nofun

lemma Dictionary.toList_add (e : MergedTerm) (d : Dictionary) : (d.add e).toList = d.toList ++ [e] := by
  simp [toList, add]

instance : LoggedWriter Dictionary where
  accepted := Dictionary.toList
  refusals _ := []
  logs e d := ⟨d.toList_add e, rfl⟩

instance : LoggedWriter UnreliableDictionary where
  accepted u := u.dictionary.toList
  refusals u := u.outages.failures u.calls
  logs e u := by
    have hsucc := u.outages.failures_succ u.calls
    cases ho : u.outages u.calls with
    | some x =>
      rw [ho] at hsucc
      simp only [DictionaryWriter.add, ho]
      exact ⟨rfl, hsucc⟩
    | none =>
      rw [ho, Option.toList_none, List.append_nil] at hsucc
      simp only [DictionaryWriter.add, ho]
      exact ⟨u.dictionary.toList_add e, hsucc⟩

end InvertedIndex
