/-! Natural numbers as digits, leading digit first. -/

namespace Statechart

def digitsOf (base n : Nat) : List Nat :=
  if 1 < base ∧ base ≤ n then digitsOf base (n / base) ++ [n % base] else [n]
termination_by n
decreasing_by
  rename_i h
  exact Nat.div_lt_self (by omega) h.1

def ofDigits (base : Nat) (ds : List Nat) : Nat := ds.foldl (fun n d => n * base + d) 0

/-- Digits with zeros in front, to a width of at least `width`. -/
def paddedDigits (base width n : Nat) : List Nat :=
  let ds := digitsOf base n
  List.replicate (width - ds.length) 0 ++ ds

def digitChar (d : Nat) : Char := Char.ofNat (if d < 10 then 48 + d else 87 + d)

def isDecimalDigit (c : Char) : Bool := 48 ≤ c.toNat && c.toNat ≤ 57

def digitValue (c : Char) : Nat := c.toNat - 48

/-- The value of a hexadecimal digit in either case. -/
def hexValue? (c : Char) : Option Nat :=
  let n := c.toNat
  if 48 ≤ n ∧ n ≤ 57 then some (n - 48)
  else if 97 ≤ n ∧ n ≤ 102 then some (n - 87)
  else if 65 ≤ n ∧ n ≤ 70 then some (n - 55)
  else none

def decimalText (n : Nat) : List Char := (digitsOf 10 n).map digitChar

end Statechart
