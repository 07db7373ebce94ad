import InvertedIndex.Binary32.Basic

namespace InvertedIndex.Binary32

namespace Logarithm

/-- Reals are counted in units of two to minus this number. -/
def precision : Nat := 160

def terms : Nat := 64

/-- The sum of `power / index + power * square / (index + 2) + …` in fixed point. -/
def oddSeries (square : Nat) : (count power index : Nat) → Nat
  | 0, _, _ => 0
  | count + 1, power, index =>
    power / index + oddSeries square count ((power * square) >>> precision) (index + 2)

/-- `log ((d + n) / (d - n))`, for `n` at most a third of `d`. -/
def ofQuotient (n d : Nat) : Nat :=
  let x := (n <<< precision) / d
  2 * oddSeries ((x * x) >>> precision) terms x 1

def two : Nat := ofQuotient 1 3

def ofParts (p : Parts) : Int :=
  let top := 1 <<< p.significand.log2
  ofQuotient (p.significand - top) (p.significand + top) + (p.exponent + p.significand.log2) * two

end Logarithm

def log (x : Float32) : Float32 :=
  if x.isNaN then x
  else if x == 0 then -1 / 0
  else if x < 0 then 0 / 0
  else if x.isInf then x
  else
    let y := Logarithm.ofParts (parts x)
    let magnitude := nearest y.natAbs (-Logarithm.precision)
    if y < 0 then -magnitude else magnitude

end InvertedIndex.Binary32
