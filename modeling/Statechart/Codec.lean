import Statechart.Json
import Statechart.SingleText

/-! How values are written and read in the two stored forms, as documents and as bytes. One codec
carries both forms, so that a type is described once. -/

namespace Statechart

/-- The `width` lowest bytes of a number, lowest first. -/
def littleEndian : Nat → Nat → List UInt8
  | 0, _ => []
  | width + 1, n => UInt8.ofNat n :: littleEndian width (n / 256)

def ofLittleEndian : List UInt8 → Nat
  | [] => 0
  | b :: bs => b.toNat + 256 * ofLittleEndian bs

def splitBytes? (width : Nat) (bs : List UInt8) : Option (List UInt8 × List UInt8) :=
  if width ≤ bs.length then some (bs.take width, bs.drop width) else none

def readWord? (width : Nat) (bs : List UInt8) : Option (Nat × List UInt8) :=
  (splitBytes? width bs).map fun r => (ofLittleEndian r.1, r.2)

/-- Bytes behind their number, a word of eight bytes. -/
def countedBytes (bs : List UInt8) : List UInt8 := littleEndian 8 bs.length ++ bs

def readCounted? (bs : List UInt8) : Option (List UInt8 × List UInt8) := do
  let (n, bs) ← readWord? 8 bs
  splitBytes? n bs

def textBytes (s : String) : List UInt8 := countedBytes s.toUTF8.data.toList

def readText? (bs : List UInt8) : Option (String × List UInt8) := do
  let (content, bs) ← readCounted? bs
  return (← String.fromUTF8? ⟨content.toArray⟩, bs)

/-- The document and byte forms of a type. Reading bytes leaves those behind the value; `absent` is
the value of a record field that is left out. -/
structure Codec (α : Type) where
  toJson : α → Json
  ofJson : Json → Option α
  toBytes : α → List UInt8
  ofBytes : List UInt8 → Option (α × List UInt8)
  absent : Option α := none

namespace Codec

def bool : Codec Bool where
  toJson := .bool
  ofJson
    | .bool b => some b
    | _ => none
  toBytes b := [if b then 1 else 0]
  ofBytes
    | 0 :: bs => some (false, bs)
    | 1 :: bs => some (true, bs)
    | _ => none

def word : Codec UInt32 where
  toJson n := .number (.ofInt n.toNat)
  ofJson
    | .number n => n.integer?.bind fun i =>
      if 0 ≤ i ∧ i < 2 ^ (32 : Nat) then some (UInt32.ofNat i.toNat) else none
    | _ => none
  toBytes n := littleEndian 4 n.toNat
  ofBytes bs := (readWord? 4 bs).map fun r => (UInt32.ofNat r.1, r.2)

def integer : Codec Int32 where
  toJson n := .number (.ofInt n.toInt)
  ofJson
    | .number n => n.integer?.bind fun i =>
      if -2 ^ (31 : Nat) ≤ i ∧ i < 2 ^ (31 : Nat) then some (Int32.ofInt i) else none
    | _ => none
  toBytes n := littleEndian 4 n.toUInt32.toNat
  ofBytes bs := (readWord? 4 bs).map fun r => ((UInt32.ofNat r.1).toInt32, r.2)

/-- Numbers that are not finite have no numeral; documents hold a null in their place. -/
def single : Codec Single where
  toJson x := if x.isFinite then .number x.toNumeral else .null
  ofJson
    | .number n => Single.ofNumeral? n
    | _ => none
  toBytes x := littleEndian 4 x.bits.toNat
  ofBytes bs := (readWord? 4 bs).map fun r => (⟨UInt32.ofNat r.1⟩, r.2)

def text : Codec String where
  toJson s := .text (some s)
  ofJson
    | .text s => s
    | _ => none
  toBytes := textBytes
  ofBytes := readText?

/-- Values with a spelling of their own, stored as that text. -/
def spelled {α : Type} (render : α → String) (parse? : String → Option α) : Codec α where
  toJson a := .text (some (render a))
  ofJson j := (text.ofJson j).bind parse?
  toBytes a := textBytes (render a)
  ofBytes bs := do
    let (s, bs) ← readText? bs
    return (← parse? s, bs)

def option {α : Type} (c : Codec α) : Codec (Option α) where
  toJson
    | none => .null
    | some a => c.toJson a
  ofJson
    | .null => some none
    | j => (c.ofJson j).map some
  toBytes
    | none => [0]
    | some a => 1 :: c.toBytes a
  ofBytes
    | 0 :: bs => some (none, bs)
    | 1 :: bs => (c.ofBytes bs).map fun r => (some r.1, r.2)
    | _ => none
  absent := some none

def readMany? {α : Type} (c : Codec α) : Nat → List UInt8 → Option (List α × List UInt8)
  | 0, bs => some ([], bs)
  | n + 1, bs => do
    let (a, bs) ← c.ofBytes bs
    let (as, bs) ← readMany? c n bs
    return (a :: as, bs)

def list {α : Type} (c : Codec α) : Codec (List α) where
  toJson as := .array (as.map c.toJson)
  ofJson
    | .array js => js.mapM c.ofJson
    | _ => none
  toBytes as := littleEndian 8 as.length ++ as.flatMap c.toBytes
  ofBytes bs := do
    let (n, bs) ← readWord? 8 bs
    readMany? c n bs

/-- The codec of a type that is another one in different clothes. -/
def along {α β : Type} (c : Codec α) (f : α → β) (g : β → α) : Codec β where
  toJson b := c.toJson (g b)
  ofJson j := (c.ofJson j).map f
  toBytes b := c.toBytes (g b)
  ofBytes bs := (c.ofBytes bs).map fun r => (f r.1, r.2)
  absent := c.absent.map f

def encode {α : Type} (c : Codec α) (a : α) : String := (c.toJson a).compact

def decode? {α : Type} (c : Codec α) (s : String) : Option α := (Json.parse? s).bind c.ofJson

end Codec

end Statechart
