import InvertedIndex.Json.Numeral

namespace InvertedIndex.Json

/-- A string is missing where an escape stands for one half of a surrogate pair. -/
inductive Document where
  | null
  | bool (b : Bool)
  | number (n : Numeral)
  | text (s : Option String)
  | array (items : List Document)
  | object (members : List (Option String × Document))

namespace Document

abbrev Reader (α : Type) := List Char → Option (α × List Char)

def isBlank (c : Char) : Bool := c == ' ' || c == '\n' || c == '\t' || c == '\r'

def skipBlanks (cs : List Char) : List Char := cs.dropWhile isBlank

def digit? (c : Char) : Option Nat := if '0' ≤ c ∧ c ≤ '9' then some (c.toNat - '0'.toNat) else none

def hexDigit? (c : Char) : Option Nat :=
  if '0' ≤ c ∧ c ≤ '9' then some (c.toNat - '0'.toNat)
  else if 'a' ≤ c ∧ c ≤ 'f' then some (c.toNat - 'a'.toNat + 10)
  else if 'A' ≤ c ∧ c ≤ 'F' then some (c.toNat - 'A'.toNat + 10)
  else none

def digits : List Char → List Nat × List Char
  | [] => ([], [])
  | c :: cs =>
    match digit? c with
    | some d => let (ds, rest) := digits cs; (d :: ds, rest)
    | none => ([], c :: cs)

def someDigits : Reader (List Nat) := fun cs =>
  match digits cs with
  | ([], _) => none
  | found => some found

def whole : Reader (List Nat) := fun cs => do
  let (ds, rest) ← someDigits cs
  if ds.head? = some 0 ∧ ds.length ≠ 1 then none else return (ds, rest)

def fraction : Reader (Option (List Nat))
  | '.' :: cs => (someDigits cs).map fun (ds, rest) => (some ds, rest)
  | cs => some (none, cs)

def value (ds : List Nat) : Nat := ds.foldl (fun n d => 10 * n + d) 0

def signedExponent : Reader Int
  | '-' :: cs => (someDigits cs).map fun (ds, rest) => (-value ds, rest)
  | '+' :: cs => (someDigits cs).map fun (ds, rest) => ((value ds : Int), rest)
  | cs => (someDigits cs).map fun (ds, rest) => ((value ds : Int), rest)

def exponent : Reader (Option Int)
  | c :: cs =>
    if c = 'e' ∨ c = 'E' then (signedExponent cs).map fun (e, rest) => (some e, rest) else some (none, c :: cs)
  | [] => some (none, [])

def numeral (cs : List Char) : Option (Numeral × List Char) := do
  let (negative, cs) := match cs with
    | '-' :: cs => (true, cs)
    | cs => (false, cs)
  let (w, cs) ← whole cs
  let (f, cs) ← fraction cs
  let (e, cs) ← exponent cs
  return (⟨negative, w, f, e⟩, cs)

def escaped? : Char → Option Nat
  | '"' => some 0x22
  | '\\' => some 0x5c
  | '/' => some 0x2f
  | 'b' => some 0x08
  | 'f' => some 0x0c
  | 'n' => some 0x0a
  | 'r' => some 0x0d
  | 't' => some 0x09
  | _ => none

def codePoints : List Char → Option (List Nat × List Char)
  | [] => none
  | '"' :: cs => some ([], cs)
  | '\\' :: 'u' :: a :: b :: c :: d :: cs => do
    let n := 4096 * (← hexDigit? a) + 256 * (← hexDigit? b) + 16 * (← hexDigit? c) + (← hexDigit? d)
    let (ns, rest) ← codePoints cs
    return (n :: ns, rest)
  | '\\' :: c :: cs => do
    let n ← escaped? c
    let (ns, rest) ← codePoints cs
    return (n :: ns, rest)
  | c :: cs =>
    if c.toNat < 0x20 then none
    else do
      let (ns, rest) ← codePoints cs
      return (c.toNat :: ns, rest)

def isHighSurrogate (n : Nat) : Bool := 0xd800 ≤ n && n < 0xdc00
def isLowSurrogate (n : Nat) : Bool := 0xdc00 ≤ n && n < 0xe000

def characters? : List Nat → Option (List Char)
  | [] => some []
  | [n] => if isHighSurrogate n || isLowSurrogate n then none else some [Char.ofNat n]
  | n :: m :: ns =>
    if isHighSurrogate n then
      if isLowSurrogate m then
        (characters? ns).map (Char.ofNat (0x10000 + 1024 * (n - 0xd800) + (m - 0xdc00)) :: ·)
      else none
    else if isLowSurrogate n then none
    else (characters? (m :: ns)).map (Char.ofNat n :: ·)

def string : Reader (Option String) := fun cs => do
  let (ns, rest) ← codePoints cs
  return ((characters? ns).map String.ofList, rest)

def keyword (word : String) (d : Document) : Reader Document := fun cs =>
  if word.toList.isPrefixOf cs then some (d, cs.drop word.length) else none

mutual

def element : (depth : Nat) → Reader Document
  | 0, _ => none
  | depth + 1, cs =>
    match skipBlanks cs with
    | [] => none
    | '"' :: cs => (string cs).map fun (s, rest) => (.text s, rest)
    | '[' :: cs =>
      match skipBlanks cs with
      | ']' :: rest => some (.array [], rest)
      | cs => (items depth cs).map fun (ds, rest) => (.array ds, rest)
    | '{' :: cs =>
      match skipBlanks cs with
      | '}' :: rest => some (.object [], rest)
      | cs => (members depth cs).map fun (ms, rest) => (.object ms, rest)
    | 'n' :: cs => keyword "ull" .null cs
    | 't' :: cs => keyword "rue" (.bool true) cs
    | 'f' :: cs => keyword "alse" (.bool false) cs
    | cs => (numeral cs).map fun (n, rest) => (.number n, rest)

def items : (depth : Nat) → Reader (List Document)
  | 0, _ => none
  | depth + 1, cs => do
    let (d, cs) ← element depth cs
    match skipBlanks cs with
    | ']' :: rest => return ([d], rest)
    | ',' :: cs =>
      let (ds, rest) ← items depth cs
      return (d :: ds, rest)
    | _ => none

def members : (depth : Nat) → Reader (List (Option String × Document))
  | 0, _ => none
  | depth + 1, cs => do
    let '"' :: cs := skipBlanks cs | none
    let (name, cs) ← string cs
    let ':' :: cs := skipBlanks cs | none
    let (d, cs) ← element depth cs
    match skipBlanks cs with
    | '}' :: rest => return ([(name, d)], rest)
    | ',' :: cs =>
      let (ms, rest) ← members depth cs
      return ((name, d) :: ms, rest)
    | _ => none

end

def read? (s : String) : Option Document := do
  -- Every level and every item takes a character, so twice the length bounds their number.
  let (d, rest) ← element (2 * s.length + 2) s.toList
  if (skipBlanks rest).isEmpty then return d else none

end Document

end InvertedIndex.Json
