import Statechart.Codec

/-! Identities of controllers: sixteen bytes, and their spellings. -/

namespace Statechart

structure Uuid where
  bytes : List UInt8
  size : bytes.length = 16
  deriving DecidableEq

namespace Uuid

def ofBytes? (bs : List UInt8) : Option Uuid :=
  if h : bs.length = 16 then some ⟨bs, h⟩ else none

def hexText (bs : List UInt8) : List Char :=
  bs.flatMap fun b => (paddedDigits 16 2 b.toNat).map digitChar

def readHex? : List Char → Option (List UInt8)
  | [] => some []
  | [_] => none
  | a :: b :: cs => do
    return UInt8.ofNat (ofDigits 16 [← hexValue? a, ← hexValue? b]) :: (← readHex? cs)

/-- Hyphens part the digits into groups of eight, four, four, four and twelve. -/
def render (u : Uuid) : String :=
  let group (start length : Nat) := hexText ((u.bytes.drop start).take length)
  String.ofList
    (group 0 4 ++ '-' :: group 4 2 ++ '-' :: group 6 2 ++ '-' :: group 8 2 ++ '-' :: group 10 6)

/-- The digits of the hyphenated form. -/
def ungroup? (cs : List Char) : Option (List Char) :=
  if cs.length = 36 ∧ [8, 13, 18, 23].all (fun i => cs[i]? == some '-') then
    some (cs.take 8 ++ (cs.drop 9).take 4 ++ (cs.drop 14).take 4 ++ (cs.drop 19).take 4 ++
      cs.drop 24)
  else none

/-- What stands in front of an identity written as a resource name, in letters of either case. -/
def scheme : List Char := "urn:uuid:".toList

/-- The digits may stand alone, hyphenated, hyphenated in braces, or hyphenated behind the
scheme. -/
def parse? (s : String) : Option Uuid := do
  let cs := s.toList
  let digits ←
    if cs.length = 32 then some cs
    else if cs.length = 36 then ungroup? cs
    else if cs.length = 38 then
      if cs.head? = some '{' ∧ cs.getLast? = some '}' then ungroup? cs.tail.dropLast else none
    else if (cs.take scheme.length).map Char.toLower = scheme then ungroup? (cs.drop scheme.length)
    else none
  ofBytes? (← readHex? digits)

/-- As bytes an identity is counted like a text. -/
def codec : Codec Uuid where
  toJson u := .text (some u.render)
  ofJson j := (Codec.text.ofJson j).bind parse?
  toBytes u := countedBytes u.bytes
  ofBytes bs := do
    let (content, bs) ← readCounted? bs
    return (← ofBytes? content, bs)

end Uuid

end Statechart
