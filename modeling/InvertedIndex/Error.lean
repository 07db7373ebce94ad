namespace InvertedIndex

inductive Error where
  | io (text : String)
  | dataSource (text : String)
  | invalidConfig (text : String)
  | close (failures : List Error)
  | malformedJson
  | collaborator (cause : String) (contexts : List String)
  deriving Inhabited

namespace Error

mutual

def message : Error → String
  | .io text => "I/O error: " ++ text
  | .dataSource text => "Data source error: " ++ text
  | .invalidConfig text => "Invalid configuration: " ++ text
  | .close failures =>
    toString failures.length ++ " error(s) while closing cursors: " ++ "; ".intercalate (messages failures)
  | .malformedJson => "JSON error: malformed document"
  | .collaborator cause contexts => "Anyhow error: " ++ contexts.getLast?.getD cause

def messages : List Error → List String
  | [] => []
  | e :: es => e.message :: messages es

end

def joint : Error → List Error → Error
  | e, [] => e
  | e, es => .close (e :: es)

def joint? : List Error → Option Error
  | [] => none
  | e :: es => some (joint e es)

end Error

/-- Which calls fail, counted from 0, and with what error. -/
abbrev Outages := Nat → Option Error

namespace Outages

def none : Outages := fun _ => .none

def ofCalls (calls : List Nat) (e : Error) : Outages := fun n => if calls.contains n then some e else .none

end Outages

end InvertedIndex
