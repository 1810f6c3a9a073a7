import Statechart.Codec

/-! Codecs of types with several cases. A case without content is stored as its name, a case with
content as an object with the name as its only key; in bytes the number of the case comes first. -/

namespace Statechart

/-- One case of `α`. Writing answers `none` for values of other cases; the document form of a case
is its content, if it has any. -/
structure Case (α : Type) where
  name : String
  toContent : α → Option (Option Json)
  ofContent : Option Json → Option α
  toBytes : α → Option (List UInt8)
  ofBytes : List UInt8 → Option (α × List UInt8)

namespace Case

/-- A case without content. A document may spell its missing content as a null. -/
def bare {α : Type} [DecidableEq α] (name : String) (a : α) : Case α where
  name := name
  toContent b := if b = a then some none else none
  ofContent
    | none => some a
    | some .null => some a
    | some _ => none
  toBytes b := if b = a then some [] else none
  ofBytes bs := some (a, bs)

def holding {α β : Type} (name : String) (c : Codec β) (make : β → α)
    (content? : α → Option β) : Case α where
  name := name
  toContent a := (content? a).map fun b => some (c.toJson b)
  ofContent
    | none => none
    | some j => (c.ofJson j).map make
  toBytes a := (content? a).map c.toBytes
  ofBytes bs := (c.ofBytes bs).map fun r => (make r.1, r.2)

def toJson? {α : Type} (k : Case α) (a : α) : Option Json :=
  (k.toContent a).map fun
    | none => .text (some k.name)
    | some j => .object [(some k.name, j)]

/-- The bytes of the first case a value belongs to, behind the number of that case. -/
def firstBytes {α : Type} (a : α) : Nat → List (Case α) → List UInt8
  | _, [] => []
  | n, k :: ks =>
    match k.toBytes a with
    | some bs => littleEndian 4 n ++ bs
    | none => firstBytes a (n + 1) ks

end Case

namespace Codec

def variants {α : Type} (cases : List (Case α)) : Codec α where
  toJson a := (cases.findSome? (·.toJson? a)).getD .null
  ofJson
    | .text (some name) => (cases.find? (·.name == name)).bind (·.ofContent none)
    | .object [(some name, j)] => (cases.find? (·.name == name)).bind (·.ofContent (some j))
    | _ => none
  toBytes a := Case.firstBytes a 0 cases
  ofBytes bs := do
    let (n, bs) ← readWord? 4 bs
    (← cases[n]?).ofBytes bs

def names {α : Type} [DecidableEq α] (entries : List (String × α)) : Codec α :=
  variants (entries.map fun e => .bare e.1 e.2)

end Codec

end Statechart
