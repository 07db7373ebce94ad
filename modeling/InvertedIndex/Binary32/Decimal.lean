import InvertedIndex.Binary32.Basic

/-! The shortest decimal text that reads back as a given binary32 number. -/

namespace InvertedIndex.Binary32

structure Decimal where
  digits : Nat
  exponent : Int

namespace Decimal

/-- The reals that round to a number, in quarters of its unit, each of which is `numerator / denominator`. -/
structure Range where
  low : Nat
  value : Nat
  high : Nat
  closed : Bool
  numerator : Nat
  denominator : Nat

def range (p : Parts) : Range :=
  -- Below a power of two the numbers lie twice as close.
  let isPower := p.significand = minNormal ∧ minExponent < p.exponent
  let quarter := p.exponent - 2
  { low := 4 * p.significand - (if isPower then 1 else 2)
    value := 4 * p.significand
    high := 4 * p.significand + 2
    closed := p.significand % 2 = 0
    numerator := 1 <<< quarter.toNat
    denominator := 1 <<< (-quarter).toNat }

def Range.scale (r : Range) (exponent : Int) : Range :=
  { r with numerator := r.numerator * Nat.pow 10 (-exponent).toNat
           denominator := r.denominator * Nat.pow 10 exponent.toNat }

def Range.contains (r : Range) (n : Nat) : Bool :=
  let low := r.low * r.numerator
  let high := r.high * r.numerator
  let n := n * r.denominator
  if r.closed then low ≤ n && n ≤ high else low < n && n < high

def Range.nearestInteger? (r : Range) : Option Nat :=
  let value := r.value * r.numerator
  let below := value / r.denominator
  let above := below + 1
  match r.contains below, r.contains above with
  | true, true => if 2 * value < (below + above) * r.denominator then some below else some above
  | true, false => some below
  | false, true => some above
  | false, false => none

def shortest (p : Parts) : Decimal :=
  -- The coarsest power of ten with a multiple in the range leaves the fewest digits.
  let r := range p
  let at? (exponent : Int) : Option Decimal := (r.scale exponent).nearestInteger?.map (⟨·, exponent⟩)
  ((List.range 100).findSome? fun (i : Nat) => at? (40 - i)).getD ⟨0, 0⟩

def text (d : Decimal) : String :=
  let digits := toString d.digits
  if 0 ≤ d.exponent then digits ++ String.ofList (List.replicate d.exponent.toNat '0')
  else
    let places := d.exponent.natAbs
    let padded := List.replicate (places + 1 - digits.length) '0' ++ digits.toList
    String.ofList (padded.take (padded.length - places)) ++ "." ++
      String.ofList (padded.drop (padded.length - places))

end Decimal

def text (x : Float32) : String :=
  if x.isNaN then "NaN"
  else
    let sign := if x.toBits.toNat < signBit then "" else "-"
    if x.isInf then sign ++ "inf"
    else if x == 0 then sign ++ "0"
    else sign ++ (Decimal.shortest (parts x)).text

end InvertedIndex.Binary32
