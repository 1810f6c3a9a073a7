import Statechart.Handle

/-! Objects attached to nodes, at most one of each kind on a node. Every node keeps a list of its
objects in the order of their creation, and an index remembers where an object was found. -/

namespace Statechart

/-- Kinds `κ` of objects with values `V k`, and the value a new object has. -/
structure AttachmentStore (κ : Type) (V : κ → Type) where
  objects : List (NodeHandle × List ((k : κ) × V k))
  index : List ((NodeHandle × κ) × Nat)

namespace AttachmentStore

variable {κ : Type} {V : κ → Type}

def empty : AttachmentStore κ V := ⟨[], []⟩

def onNode (s : AttachmentStore κ V) (node : NodeHandle) : List ((k : κ) × V k) :=
  (s.objects.lookup node).getD []

def kinds (s : AttachmentStore κ V) (node : NodeHandle) : List κ := (s.onNode node).map (·.1)

variable [DecidableEq κ]

/-- The value at a position of a list of objects, if the object there is of the given kind. -/
def valueAt? (os : List ((k : κ) × V k)) (i : Nat) (kind : κ) : Option (V kind) :=
  match os[i]? with
  | some ⟨k, v⟩ => if h : k = kind then some (h ▸ v) else none
  | none => none

/-- Where the object of a kind is: at the remembered position if one of that kind is there, and
otherwise where a search finds it. -/
def find? (s : AttachmentStore κ V) (node : NodeHandle) (kind : κ) : Option Nat :=
  let os := s.onNode node
  match (s.index.lookup (node, kind)).filter fun i => (os[i]?.any (·.1 = kind)) with
  | some i => some i
  | none => os.findIdx? (·.1 = kind)

def value? (s : AttachmentStore κ V) (node : NodeHandle) (kind : κ) : Option (V kind) :=
  (s.find? node kind).bind fun i => valueAt? (s.onNode node) i kind

def setOnNode (s : AttachmentStore κ V) (node : NodeHandle) (os : List ((k : κ) × V k)) :
    AttachmentStore κ V :=
  { s with objects := (node, os) :: s.objects.filter (·.1 ≠ node) }

def remember (s : AttachmentStore κ V) (node : NodeHandle) (kind : κ) (i : Nat) :
    AttachmentStore κ V :=
  { s with index := ((node, kind), i) :: s.index.filter (·.1 ≠ (node, kind)) }

/-- Changes the object of a kind on a node, which is created with the value `new` on first use. -/
def amend (s : AttachmentStore κ V) (node : NodeHandle) (kind : κ) (new : V kind)
    (change : V kind → V kind) : AttachmentStore κ V :=
  let os := s.onNode node
  match s.find? node kind with
  | some i =>
    (s.setOnNode node (os.modify i fun o =>
      if h : o.1 = kind then ⟨kind, change (h ▸ o.2)⟩ else o)).remember node kind i
  | none => (s.setOnNode node (os ++ [⟨kind, change new⟩])).remember node kind os.length

end AttachmentStore

inductive AttachmentKind where
  | text
  | count
  | flags
  deriving DecidableEq

namespace AttachmentKind

def label : AttachmentKind → String
  | text => "Text"
  | count => "Count"
  | flags => "Flags"

abbrev Value : AttachmentKind → Type
  | text => String
  | count => Int64
  | flags => List Bool

def initial : (k : AttachmentKind) → k.Value
  | text => ""
  | count => 0
  | flags => []

/-- Texts and lists of flags grow at their end, counts are added up. -/
def extend : (k : AttachmentKind) → k.Value → k.Value → k.Value
  | text, a, b => a ++ b
  | count, a, b => a + b
  | flags, a, b => a ++ b

end AttachmentKind

abbrev Attachments := AttachmentStore AttachmentKind AttachmentKind.Value

end Statechart
