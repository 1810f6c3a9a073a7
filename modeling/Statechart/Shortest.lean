import Statechart.Digits
import Statechart.Single

/-! The shortest decimal that rounds back to a given single precision number. -/

namespace Statechart

/-- The number `coefficient * 10 ^ exponent`. -/
structure Decimal where
  coefficient : Nat
  exponent : Int
  deriving DecidableEq

/-- Which neighbour is taken when a number lies halfway between two shortest decimals. -/
inductive Tie where
  | even
  | up
  deriving DecidableEq

namespace Single

/-- The reals that round to a positive number, as bounds in quarters of its unit. The lower gap is
half as wide at a power of two. -/
def quarters (x : Single) : Nat × Nat :=
  let c := x.magnitude.coefficient
  (4 * c - (if c = 2 ^ (23 : Nat) ∧ -149 < x.magnitude.exponent then 1 else 2), 4 * c + 2)

/-- Compares `d` with the number `quarters * 2 ^ (exponent - 2)`. -/
def comparedTo (x : Single) (d : Decimal) (quarters : Nat) : Ordering :=
  let k := x.magnitude.exponent - 2
  compare (d.coefficient * 10 ^ d.exponent.toNat * 2 ^ (-k).toNat)
    (quarters * 2 ^ k.toNat * 10 ^ (-d.exponent).toNat)

/-- The bounds belong to the interval exactly when the coefficient is even. -/
def admits (x : Single) (d : Decimal) : Bool :=
  let closed := x.magnitude.coefficient % 2 = 0
  let low := x.comparedTo d x.quarters.1
  let high := x.comparedTo d x.quarters.2
  (low == .gt || closed && low == .eq) && (high == .lt || closed && high == .eq)

/-- The exponent of the leading decimal digit of a positive number. -/
def leading (x : Single) : Int :=
  let powers := (List.range 85).map fun (i : Nat) => (38 - i : Int)
  (powers.find? fun e => x.comparedTo ⟨1, e⟩ (4 * x.magnitude.coefficient) != .gt).getD (-46)

/-- The decimal of `n` digits just below a positive number. -/
def below (x : Single) (n : Nat) : Decimal :=
  let e := x.leading + 1 - n
  let k := x.magnitude.exponent
  ⟨x.magnitude.coefficient * 2 ^ k.toNat * 10 ^ (-e).toNat / (2 ^ (-k).toNat * 10 ^ e.toNat), e⟩

/-- Whether the decimal above `d` on its grid is preferred to `d`. -/
def prefersAbove (tie : Tie) (x : Single) (d : Decimal) : Bool :=
  match x.comparedTo ⟨2 * d.coefficient + 1, d.exponent⟩ (8 * x.magnitude.coefficient) with
  | .lt => true
  | .gt => false
  | .eq => tie == .up || d.coefficient % 2 == 1

/-- The preferred decimal of `n` digits among those that round back. -/
def decimalOf? (tie : Tie) (x : Single) (n : Nat) : Option Decimal :=
  let d := x.below n
  let above : Decimal := ⟨d.coefficient + 1, d.exponent⟩
  match x.admits d, x.admits above with
  | true, true => some (if x.prefersAbove tie d then above else d)
  | true, false => some d
  | false, true => some above
  | false, false => none

/-- The shortest decimal of a positive number; nine digits always suffice. -/
def shortest (tie : Tie) (x : Single) : Decimal :=
  ((List.range 9).findSome? fun n => x.decimalOf? tie (n + 1)).getD (x.below 9)

end Single

/-- Digits with trailing zeros removed, and the exponent of the leading one. -/
def Decimal.digits (d : Decimal) : List Nat × Int :=
  let ds := digitsOf 10 d.coefficient
  ((ds.reverse.dropWhile (· == 0)).reverse, d.exponent + ds.length - 1)

end Statechart
