import Statechart.Rounding

/-! Single precision numbers, held as their bits so that every pattern survives being stored. -/

namespace Statechart

structure Single where
  bits : UInt32
  deriving DecidableEq

namespace Single

def isNegative (x : Single) : Bool := 0x80000000 ≤ x.bits.toNat

def scale (x : Single) : Nat := x.bits.toNat / 2 ^ (23 : Nat) % 2 ^ (8 : Nat)

def fraction (x : Single) : Nat := x.bits.toNat % 2 ^ (23 : Nat)

def isFinite (x : Single) : Bool := x.scale != 255

def isNaN (x : Single) : Bool := x.scale == 255 && x.fraction != 0

/-- The absolute value of a finite number. -/
def magnitude (x : Single) : Binary :=
  if x.scale = 0 then ⟨x.fraction, -149⟩ else ⟨2 ^ (23 : Nat) + x.fraction, x.scale - 150⟩

def signBit (negative : Bool) : Nat := if negative then 2 ^ (31 : Nat) else 0

def infinity (negative : Bool) : Single :=
  ⟨UInt32.ofNat (signBit negative + 255 * 2 ^ (23 : Nat))⟩

def zero (negative : Bool) : Single := ⟨UInt32.ofNat (signBit negative)⟩

instance : Inhabited Single := ⟨zero false⟩

/-- The pattern of a rounded magnitude; beyond the range it is infinity. -/
def ofMagnitude (negative : Bool) : Option Binary → Single
  | none => infinity negative
  | some b =>
    if b.coefficient < 2 ^ (23 : Nat) then ⟨UInt32.ofNat (signBit negative + b.coefficient)⟩
    else
      ⟨UInt32.ofNat
        (signBit negative + (b.exponent + 150).toNat * 2 ^ (23 : Nat) +
          (b.coefficient - 2 ^ (23 : Nat)))⟩

def ofRatio (negative : Bool) (num den : Nat) : Single :=
  ofMagnitude negative (BinaryFormat.single.round num den)

def ofBinary (negative : Bool) (b : Binary) : Single :=
  ofMagnitude negative (BinaryFormat.single.roundBinary b)

def ofInt (n : Int) : Single := ofRatio (n < 0) n.natAbs 1

def one : Single := ofInt 1

/-- The value of an operation without a meaningful result. -/
def invalid : Single := ⟨0xffc00000⟩

def quiet (x : Single) : Single := ⟨x.bits ||| 0x00400000⟩

/-- A finite number in units of `2 ^ k`, for `k` at most its own exponent. -/
def units (x : Single) (k : Int) : Int :=
  let n : Int := x.magnitude.coefficient * 2 ^ (x.magnitude.exponent - k).toNat
  if x.isNegative then -n else n

/-- An exact sum that is zero takes the common sign of its terms, and is positive otherwise. -/
def add (x y : Single) : Single :=
  if x.isNaN then x.quiet
  else if y.isNaN then y.quiet
  else if !x.isFinite && !y.isFinite then
    if x.isNegative = y.isNegative then x else invalid
  else if !x.isFinite then x
  else if !y.isFinite then y
  else
    let k := min x.magnitude.exponent y.magnitude.exponent
    let s := x.units k + y.units k
    if s = 0 then zero (x.isNegative && y.isNegative)
    else ofBinary (s < 0) ⟨s.natAbs, k⟩

def mul (x y : Single) : Single :=
  let negative := x.isNegative != y.isNegative
  if x.isNaN then x.quiet
  else if y.isNaN then y.quiet
  else if !x.isFinite || !y.isFinite then
    if x.isFinite && x.magnitude.coefficient = 0 || y.isFinite && y.magnitude.coefficient = 0 then
      invalid
    else infinity negative
  else
    ofBinary negative
      ⟨x.magnitude.coefficient * y.magnitude.coefficient,
        x.magnitude.exponent + y.magnitude.exponent⟩

instance : Add Single := ⟨add⟩

instance : Mul Single := ⟨mul⟩

/-- Equality as numbers: the two zeros are equal and a NaN differs from itself. -/
def eqv (x y : Single) : Bool :=
  !x.isNaN && !y.isNaN && (x.bits == y.bits ||
    x.bits.toNat % 2 ^ (31 : Nat) + y.bits.toNat % 2 ^ (31 : Nat) == 0)

instance : BEq Single := ⟨eqv⟩

end Single

end Statechart
