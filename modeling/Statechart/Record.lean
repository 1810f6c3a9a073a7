import Statechart.Codec

/-! Codecs of records, from their fields in order. -/

namespace Statechart

/-- A list of named fields with values in `α`. A slot holds what a document says about a field. -/
structure Fields (α : Type) where
  names : List String
  toJsons : α → List Json
  ofSlots : List (Option Json) → Option α
  toBytes : α → List UInt8
  ofBytes : List UInt8 → Option (α × List UInt8)

namespace Fields

def done : Fields Unit where
  names := []
  toJsons _ := []
  ofSlots
    | [] => some ()
    | _ :: _ => none
  toBytes _ := []
  ofBytes bs := some ((), bs)

/-- Adds a field in front; when it is left out it takes the value `missing`, if there is one. -/
def cons {α β : Type} (name : String) (c : Codec α) (missing : Option α) (fs : Fields β) :
    Fields (α × β) where
  names := name :: fs.names
  toJsons r := c.toJson r.1 :: fs.toJsons r.2
  ofSlots
    | [] => none
    | slot :: slots => do
      let a ← match slot with
        | none => missing
        | some j => c.ofJson j
      return (a, ← fs.ofSlots slots)
  toBytes r := c.toBytes r.1 ++ fs.toBytes r.2
  ofBytes bs := do
    let (a, bs) ← c.ofBytes bs
    let (b, bs) ← fs.ofBytes bs
    return ((a, b), bs)

def field {α β : Type} (name : String) (c : Codec α) (fs : Fields β) : Fields (α × β) :=
  cons name c c.absent fs

def fieldOr {α β : Type} (name : String) (c : Codec α) (missing : α) (fs : Fields β) :
    Fields (α × β) :=
  cons name c (some missing) fs

end Fields

namespace Json

/-- The members of an object by the given names. Other members are ignored, but every key has to be
a string and no given name may occur twice. -/
def slots? (names : List String) (members : List (Option String × Json)) :
    Option (List (Option Json)) :=
  if members.any (·.1.isNone) then none
  else names.mapM fun name =>
    match members.filter (·.1 == some name) with
    | [] => some none
    | [m] => some (some m.2)
    | _ => none

end Json

namespace Codec

/-- A record is an object, or an array of its fields in order. Where `short` is set the array may
leave out fields at its end. -/
def record {α : Type} (fs : Fields α) (short : Bool) : Codec α where
  toJson a := .object ((fs.names.map some).zip (fs.toJsons a))
  ofJson
    | .object ms => (Json.slots? fs.names ms).bind fs.ofSlots
    | .array js =>
      if js.length = fs.names.length ∨ short ∧ js.length < fs.names.length then
        fs.ofSlots (js.map some ++ List.replicate (fs.names.length - js.length) none)
      else none
    | _ => none
  toBytes := fs.toBytes
  ofBytes := fs.ofBytes

end Codec

end Statechart
