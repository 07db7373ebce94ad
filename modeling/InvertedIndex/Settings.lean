import InvertedIndex.Binary32.Decimal
import InvertedIndex.Error
import InvertedIndex.Json.Record

namespace InvertedIndex

open Json

structure UnionSettings where
  tieBreaker : Float32 := 0

namespace UnionSettings

def IsValid (s : UnionSettings) : Prop := s.tieBreaker.isFinite ∧ 0 ≤ s.tieBreaker ∧ s.tieBreaker ≤ 1

instance (s : UnionSettings) : Decidable s.IsValid := by unfold IsValid; infer_instance

def validate (s : UnionSettings) : Except Error UnionSettings :=
  if s.IsValid then .ok s
  else .error (.invalidConfig ("tie_breaker_multiplier must be within [0, 1], got " ++ Binary32.text s.tieBreaker))

def ofDocument? (d : Document) : Option UnionSettings := do
  let [tieBreaker] ← d.fields? ["tie_breaker_multiplier"] | none
  return { tieBreaker := ← Document.orDefault Document.single? 0 tieBreaker }

def read (json : String) : Except Error UnionSettings := Document.decode ofDocument? json >>= validate

def toValue (s : UnionSettings) : Value := .object [("tie_breaker_multiplier", .ofSingle s.tieBreaker)]

end UnionSettings

structure MergeSettings where
  verifyOrder : Bool := true
  dropEmpty : Bool := true
  deriving DecidableEq

namespace MergeSettings

def ofDocument? (d : Document) : Option MergeSettings := do
  let [verifyOrder, dropEmpty] ← d.fields? ["verify_term_order", "drop_empty_terms"] | none
  return {
    verifyOrder := ← Document.orDefault Document.bool? true verifyOrder
    dropEmpty := ← Document.orDefault Document.bool? true dropEmpty }

def read (json : String) : Except Error MergeSettings := Document.decode ofDocument? json

def toValue (s : MergeSettings) : Value :=
  .object [("verify_term_order", .bool s.verifyOrder), ("drop_empty_terms", .bool s.dropEmpty)]

end MergeSettings

end InvertedIndex
