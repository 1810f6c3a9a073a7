import Statechart.Shortest

/-! Decimal numerals as documents write them: their spelling, the integers they spell, and the
floating point numbers they stand for. -/

namespace Statechart

/-- Decimal digits before and after the point, and an exponent of ten. Without a point the fraction
is empty. -/
structure Numeral where
  negative : Bool
  whole : List Nat
  fraction : List Nat
  exponent : Option Int
  deriving DecidableEq

namespace Numeral

def ofInt (n : Int) : Numeral := ⟨n < 0, digitsOf 10 n.natAbs, [], none⟩

def exponentText (e : Int) : List Char :=
  'e' :: (if e < 0 then '-' else '+') :: decimalText e.natAbs

def render (n : Numeral) : List Char :=
  (if n.negative then ['-'] else []) ++ n.whole.map digitChar ++
    (if n.fraction.isEmpty then [] else '.' :: n.fraction.map digitChar) ++
    (n.exponent.map exponentText).getD []

def readDigits (cs : List Char) : List Nat × List Char :=
  ((cs.takeWhile isDecimalDigit).map digitValue, cs.dropWhile isDecimalDigit)

/-- At least one digit, and no zero in front of another digit. -/
def readWhole? (cs : List Char) : Option (List Nat × List Char) :=
  match readDigits cs with
  | ([], _) => none
  | (0 :: _ :: _, _) => none
  | r => some r

def readFraction? : List Char → Option (List Nat × List Char)
  | '.' :: cs =>
    match readDigits cs with
    | ([], _) => none
    | r => some r
  | cs => some ([], cs)

def readMagnitude? (negative : Bool) (cs : List Char) : Option (Option Int × List Char) :=
  match readDigits cs with
  | ([], _) => none
  | (ds, rest) =>
    some (some (if negative then -(ofDigits 10 ds : Int) else ofDigits 10 ds), rest)

def readExponent? : List Char → Option (Option Int × List Char)
  | [] => some (none, [])
  | c :: cs =>
    if c = 'e' ∨ c = 'E' then
      match cs with
      | '-' :: cs => readMagnitude? true cs
      | '+' :: cs => readMagnitude? false cs
      | cs => readMagnitude? false cs
    else some (none, c :: cs)

/-- Reads the longest numeral at the front of the text. -/
def read? (cs : List Char) : Option (Numeral × List Char) := do
  let (negative, cs) := match cs with
    | '-' :: cs => (true, cs)
    | cs => (false, cs)
  let (whole, cs) ← readWhole? cs
  let (fraction, cs) ← readFraction? cs
  let (exponent, cs) ← readExponent? cs
  return (⟨negative, whole, fraction, exponent⟩, cs)

theorem readDigits_length (cs : List Char) :
    (readDigits cs).1.length + (readDigits cs).2.length = cs.length := by
  have h : (cs.takeWhile isDecimalDigit ++ cs.dropWhile isDecimalDigit).length = cs.length := by
    rw [List.takeWhile_append_dropWhile]
  rw [List.length_append] at h
  simpa only [readDigits, List.length_map] using h

theorem readWhole?_length {cs rest : List Char} {ds : List Nat}
    (h : readWhole? cs = some (ds, rest)) : rest.length < cs.length := by
  have hl := readDigits_length cs
  unfold readWhole? at h
  split at h
  · simp at h
  · simp at h
  · rename_i hne _
    rw [Option.some.inj h] at hl hne
    cases ds with
    | nil => exact absurd rfl (hne rest)
    | cons => simp only [List.length_cons] at hl; omega

theorem readFraction?_length {cs rest : List Char} {ds : List Nat}
    (h : readFraction? cs = some (ds, rest)) : rest.length ≤ cs.length := by
  unfold readFraction? at h
  split at h
  · rename_i cs
    have hl := readDigits_length cs
    split at h
    · simp at h
    · simp_all
      omega
  · simp_all

theorem readMagnitude?_length {negative : Bool} {cs rest : List Char} {e : Option Int}
    (h : readMagnitude? negative cs = some (e, rest)) : rest.length ≤ cs.length := by
  have hl := readDigits_length cs
  unfold readMagnitude? at h
  split at h
  · simp at h
  · simp_all
    omega

theorem readExponent?_length {cs rest : List Char} {e : Option Int}
    (h : readExponent? cs = some (e, rest)) : rest.length ≤ cs.length := by
  unfold readExponent? at h
  split at h
  · simp_all
  · split at h
    · split at h <;> have := readMagnitude?_length h <;> simp_all <;> omega
    · simp_all

theorem read?_length {cs rest : List Char} {n : Numeral}
    (h : read? cs = some (n, rest)) : rest.length < cs.length := by
  simp only [read?, Option.bind_eq_bind, Option.bind_eq_some_iff, Option.pure_def,
    Option.some.injEq, Prod.mk.injEq] at h
  obtain ⟨⟨ws, r₁⟩, hw, ⟨fs, r₂⟩, hf, ⟨e, r₃⟩, he, _, rfl⟩ := h
  have h₁ := readWhole?_length hw
  have h₂ := readFraction?_length hf
  have h₃ := readExponent?_length he
  split at h₁ <;> simp_all <;> omega

/-- The integer spelled without point and exponent; minus zero is not an integer. -/
def integer? (n : Numeral) : Option Int :=
  if n.fraction.isEmpty && n.exponent.isNone then
    let m := ofDigits 10 n.whole
    if n.negative then (if m = 0 then none else some (-m)) else some m
  else none

/-- Extends a significand by leading digits as long as it stays below `2 ^ 64`, and counts the
digits that are left. -/
def significand : Nat → List Nat → Nat × Nat
  | s, [] => (s, 0)
  | s, d :: ds =>
    if s * 10 + d < 2 ^ (64 : Nat) then significand (s * 10 + d) ds else (s, ds.length + 1)

/-- The significand and the power of ten by which it is scaled. Digits of the fraction that do not
fit are dropped. -/
def scaled (n : Numeral) : Nat × Int :=
  let (s, omitted) := significand 0 n.whole
  let (s, dropped) := significand s n.fraction
  (s, n.exponent.getD 0 + omitted - (n.fraction.length - dropped : Nat))

end Numeral

structure Double where
  negative : Bool
  magnitude : Binary
  deriving DecidableEq

namespace Double

def powerOfTen (n : Nat) : Binary := (BinaryFormat.double.round (10 ^ n) 1).getD ⟨0, 0⟩

def product? (a b : Binary) : Option Binary :=
  BinaryFormat.double.roundBinary ⟨a.coefficient * b.coefficient, a.exponent + b.exponent⟩

def quotient (a b : Binary) : Binary :=
  (BinaryFormat.double.round (a.ratio.1 * b.ratio.2) (a.ratio.2 * b.ratio.1)).getD ⟨0, 0⟩

/-- Divides by `10 ^ n`, in steps of `10 ^ 308`. -/
def dividedBy (a : Binary) (n : Nat) : Binary :=
  if n ≤ 308 then quotient a (powerOfTen n)
  else if a.coefficient = 0 then a
  else dividedBy (quotient a (powerOfTen 308)) (n - 308)
termination_by n

/-- The significand is rounded first and scaled by a rounded power of ten, with one rounding for
each step. -/
def ofNumeral? (n : Numeral) : Option Double := do
  let (s, e) := n.scaled
  let f ← BinaryFormat.double.round s 1
  if e < 0 then return ⟨n.negative, dividedBy f e.natAbs⟩
  else if f.coefficient = 0 then return ⟨n.negative, f⟩
  else if 308 < e then none
  else return ⟨n.negative, ← product? f (powerOfTen e.natAbs)⟩

def toSingle (x : Double) : Single := Single.ofBinary x.negative x.magnitude

end Double

/-- Integers of 64 bits are converted directly, all other numerals through double precision. -/
def Single.ofNumeral? (n : Numeral) : Option Single :=
  match n.integer? with
  | some i =>
    if -2 ^ (63 : Nat) ≤ i ∧ i < 2 ^ (64 : Nat) then some (ofInt i)
    else (Double.ofNumeral? n).map (·.toSingle)
  | none => (Double.ofNumeral? n).map (·.toSingle)

end Statechart
