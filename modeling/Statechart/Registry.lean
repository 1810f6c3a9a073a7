import Statechart.Controller
import Statechart.Reference

/-! Declaring parameters. A name keeps the kind it was first declared with. -/

namespace Statechart.Controller

def conflict? (c : Controller) (kind : ParameterKind) (name : String) : Option Fault :=
  ((c.parameter? name).filter (·.kind ≠ kind)).map fun p => .kindMismatch name p.kind kind

/-- Declares a name unless it is declared already. -/
def declare (c : Controller) (kind : ParameterKind) (name : String) : Controller :=
  if (c.parameter? name).isSome then c
  else { c with parameters := c.parameters ++ [⟨name, kind⟩] }

def register (c : Controller) (kind : ParameterKind) (name : String) :
    Except Fault (Controller × Reference kind) :=
  match c.conflict? kind name with
  | some fault => .error fault
  | none => .ok (c.declare kind name, ⟨name⟩)

/-- Declares all names, or none of them if one has another kind. -/
def registerAll (c : Controller) (kind : ParameterKind) (names : List String) :
    Except Fault (Controller × ReferenceGroup kind) :=
  match names.findSome? (c.conflict? kind) with
  | some fault => .error fault
  | none => .ok (names.foldl (·.declare kind) c, .ofNames names)

end Statechart.Controller
