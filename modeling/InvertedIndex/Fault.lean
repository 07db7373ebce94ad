import InvertedIndex.Error
import InvertedIndex.Term

namespace InvertedIndex

abbrev DocId := UInt64

def DocId.exhausted : DocId := 0xFFFFFFFFFFFFFFFF

/-- A call outside its contract, or a count beyond 64 bits. Nothing is promised after one. -/
inductive Fault where
  | heapFull (capacity : Nat)
  | capacityOverflow
  | reservedDoc
  | docNextExhausted
  | docSeekExhausted
  | docSeekBehind (target current : DocId)
  | termNextExhausted
  | termSeekExhausted
  | termSeekBehind (target current : Term)
  | sumOverflow
  | productOverflow
  deriving DecidableEq, Inhabited

def Fault.message : Fault → String
  | .heapFull capacity => "heap is full (" ++ toString capacity ++ " slots)"
  | .capacityOverflow => "capacity overflow"
  | .reservedDoc => "doc id " ++ toString DocId.exhausted ++ " is reserved for exhausted cursors"
  | .docNextExhausted => "next_doc called on an exhausted posting cursor"
  | .docSeekExhausted => "skip_to called on an exhausted posting cursor"
  | .docSeekBehind target current =>
    "skip_to(" ++ toString target ++ ") behind current document " ++ toString current
  | .termNextExhausted => "next_term called on an exhausted term cursor"
  | .termSeekExhausted => "skip_to called on an exhausted term cursor"
  | .termSeekBehind target current =>
    "skip_to(" ++ target.display ++ ") behind current term " ++ current.display
  | .sumOverflow => "attempt to add with overflow"
  | .productOverflow => "attempt to multiply with overflow"

namespace Count

def total (ns : List Nat) : Nat := ns.foldr (· + ·) 0

def ofNat (n : Nat) : Except Fault UInt64 := if n < UInt64.size then .ok n.toUInt64 else .error .sumOverflow

def add (a b : UInt64) : Except Fault UInt64 := ofNat (a.toNat + b.toNat)

def sum (counts : List UInt64) : Except Fault UInt64 := ofNat (total (counts.map UInt64.toNat))

end Count

inductive Failure where
  | error (error : Error)
  | fault (fault : Fault)

/-- What a request to a value of type `σ` came to. After an error the value can be used on; a fault ends it. -/
inductive Outcome (σ : Type u) (α : Type v) where
  | done (state : σ) (value : α)
  | failed (state : σ) (error : Error)
  | fault (fault : Fault)

namespace Outcome

def mapState (f : σ → τ) : Outcome σ α → Outcome τ α
  | .done s a => .done (f s) a
  | .failed s e => .failed (f s) e
  | .fault x => .fault x

def map (f : α → β) : Outcome σ α → Outcome σ β
  | .done s a => .done s (f a)
  | .failed s e => .failed s e
  | .fault x => .fault x

end Outcome

end InvertedIndex
