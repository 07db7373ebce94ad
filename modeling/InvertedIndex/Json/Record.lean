import InvertedIndex.Error
import InvertedIndex.Json.Document

namespace InvertedIndex.Json

namespace Document

def text? : Document → Option String
  | .text s => s
  | _ => none

def bool? : Document → Option Bool
  | .bool b => some b
  | _ => none

def count? : Document → Option UInt64
  | .number n => n.number?.bind Number.unsigned?
  | _ => none

def single? : Document → Option Float32
  | .number n => n.number?.map Number.single
  | _ => none

def list? (read? : Document → Option α) : Document → Option (List α)
  | .array ds => ds.mapM read?
  | _ => none

def member? (members : List (Option String × Document)) (name : String) : Option (Option Document) :=
  match members.filter (·.1 == some name) with
  | [] => some none
  | [(_, d)] => some (some d)
  | _ => none

def fields? (names : List String) : Document → Option (List (Option Document))
  | .array ds => if ds.length ≤ names.length then some (names.mapIdx fun i _ => ds[i]?) else none
  | .object ms => if ms.all (·.1.isSome) then names.mapM (member? ms) else none
  | _ => none

def orDefault (read? : Document → Option α) (default : α) : Option Document → Option α
  | none => some default
  | some d => read? d

def decode (ofDocument? : Document → Option α) (text : String) : Except Error α :=
  match (read? text).bind ofDocument? with
  | some a => .ok a
  | none => .error .malformedJson

end Document

inductive Value where
  | null
  | bool (b : Bool)
  | count (n : Nat)
  | single (x : Float32)
  | text (s : String)
  | array (items : List Value)
  | object (members : List (String × Value))

def Value.ofSingle (x : Float32) : Value := if x.isFinite then .single x else .null

end InvertedIndex.Json
