namespace InvertedIndex.Json

structure Numeral where
  negative : Bool
  whole : List Nat
  fraction : Option (List Nat)
  exponent : Option Int

inductive Number where
  | unsigned (n : UInt64)
  | negative (magnitude : UInt64)
  | real (x : Float)

namespace Numeral

def absorb : (significand : Nat) → (digits : List Nat) → Nat × List Nat
  | significand, [] => (significand, [])
  | significand, d :: ds =>
    if 10 * significand + d < UInt64.size then absorb (10 * significand + d) ds else (significand, d :: ds)

def maxPower : Nat := 308

def powerOfTen (n : Nat) : Float := Float.ofScientific 1 false n

def scaleDown (x : Float) (n : Nat) : Float :=
  if n ≤ maxPower then x / powerOfTen n
  else if x == 0 then x
  else scaleDown (x / powerOfTen maxPower) (n - maxPower)
termination_by n
decreasing_by unfold maxPower at *; omega

def scaleUp? (x : Float) (n : Nat) : Option Float :=
  if n ≤ maxPower then
    let y := x * powerOfTen n
    if y.isInf then none else some y
  else if x == 0 then some x
  else none

def real? (significand : UInt64) (exponent : Int) : Option Float :=
  if exponent < 0 then some (scaleDown significand.toFloat exponent.natAbs)
  else scaleUp? significand.toFloat exponent.natAbs

/-- Whole numbers of 64 bits are exact, but minus zero is not whole. Other numbers are doubles. -/
def number? (n : Numeral) : Option Number := do
  let (significand, dropped) := absorb 0 n.whole
  match n.fraction, n.exponent, dropped with
  | none, none, [] =>
    if !n.negative then return .unsigned significand.toUInt64
    else if 0 < significand ∧ 2 * significand ≤ UInt64.size then return .negative significand.toUInt64
    else return .real (-significand.toUInt64.toFloat)
  | fraction, exponent, dropped =>
    let places := fraction.getD []
    let (significand, unread) := absorb significand places
    let shift : Int := dropped.length + unread.length - places.length
    let x ← real? significand.toUInt64 (shift + exponent.getD 0)
    return .real (if n.negative then -x else x)

end Numeral

namespace Number

def single : Number → Float32
  | .unsigned n => n.toFloat32
  | .negative n => -n.toFloat32
  | .real x => x.toFloat32

def unsigned? : Number → Option UInt64
  | .unsigned n => some n
  | _ => none

end Number

end InvertedIndex.Json
