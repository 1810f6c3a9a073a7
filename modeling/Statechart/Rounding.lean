/-! Rounding exact ratios of natural numbers to binary floating point. -/

namespace Statechart

/-- Powers are those of the core library, whether or not the algebraic hierarchy is imported. -/
scoped instance (priority := 1100) powNat {α : Type} [NatPow α] : Pow α Nat := instPowNat

/-- The number `coefficient * 2 ^ exponent`. -/
structure Binary where
  coefficient : Nat
  exponent : Int
  deriving DecidableEq

/-- Significands of at most `digits` bits over units `2 ^ k` with `lowest ≤ k ≤ highest`. -/
structure BinaryFormat where
  digits : Nat
  lowest : Int
  highest : Int

def BinaryFormat.single : BinaryFormat := ⟨24, -149, 104⟩

def BinaryFormat.double : BinaryFormat := ⟨53, -1074, 971⟩

/-- The numerator and denominator of `num / den` counted in units of `base ^ k`. -/
def inUnits (base : Nat) (k : Int) (num den : Nat) : Nat × Nat :=
  (num * base ^ (-k).toNat, den * base ^ k.toNat)

/-- The natural number nearest to `num / den`, a half going to the even neighbour. -/
def nearestEven (num den : Nat) : Nat :=
  let q := num / den
  let r := num % den
  if 2 * r < den then q else if den < 2 * r then q + 1 else q + q % 2

/-- The greatest `k` with `2 ^ k ≤ num / den`, for a positive ratio. -/
def floorLog (num den : Nat) : Int :=
  let k : Int := (num.log2 : Int) - (den.log2 : Int)
  let scaled := inUnits 2 k num den
  if scaled.2 ≤ scaled.1 then k else k - 1

/-- The nearest member of the format, or `none` beyond its range. -/
def BinaryFormat.round (f : BinaryFormat) (num den : Nat) : Option Binary :=
  if num = 0 then some ⟨0, f.lowest⟩
  else
    let k := max f.lowest (floorLog num den + 1 - f.digits)
    let scaled := inUnits 2 k num den
    let c := nearestEven scaled.1 scaled.2
    let b : Binary := if c = 2 ^ f.digits then ⟨2 ^ (f.digits - 1), k + 1⟩ else ⟨c, k⟩
    if b.exponent ≤ f.highest then some b else none

def Binary.ratio (b : Binary) : Nat × Nat :=
  (b.coefficient * 2 ^ b.exponent.toNat, 2 ^ (-b.exponent).toNat)

def BinaryFormat.roundBinary (f : BinaryFormat) (b : Binary) : Option Binary :=
  f.round b.ratio.1 b.ratio.2

end Statechart
