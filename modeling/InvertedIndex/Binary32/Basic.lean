namespace InvertedIndex.Binary32

def minExponent : Int := -149

def minNormal : Nat := 0x800000

def signBit : Nat := 0x80000000

/-- A finite number without its sign is its significand times two to its exponent. -/
structure Parts where
  significand : Nat
  exponent : Int

def parts (x : Float32) : Parts :=
  let bits := x.toBits.toNat % signBit
  let field : Nat := bits / minNormal
  let fraction : Nat := bits % minNormal
  if field = 0 then ⟨fraction, minExponent⟩ else ⟨minNormal + fraction, minExponent + field - 1⟩

/-- `n` divided by two to `k`, to the nearest integer; a half goes to the even neighbour. -/
def shiftRightNearest (n k : Nat) : Nat :=
  let unit := 1 <<< k
  let quotient := n / unit
  let twice := 2 * (n % unit)
  if unit < twice ∨ (twice = unit ∧ quotient % 2 = 1) then quotient + 1 else quotient

def nearest (n : Nat) (exponent : Int) : Float32 :=
  if n = 0 then 0
  else
    let unit := max (n.log2 + exponent - minNormal.log2) minExponent
    let significand :=
      if unit ≤ exponent then n <<< (exponent - unit).toNat else shiftRightNearest n (unit - exponent).toNat
    Float32.ofBits (UInt32.ofNat (min ((unit - minExponent).toNat * minNormal + significand) 0x7f800000))

end InvertedIndex.Binary32
