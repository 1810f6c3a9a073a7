import Statechart.Parameter

/-! Typed references to parameters, and the conditions they make. A reference remembers the name
only; the kind in its type says which conditions it offers. -/

namespace Statechart

structure Reference (kind : ParameterKind) where
  name : String
  deriving DecidableEq

namespace Reference

variable {kind : ParameterKind}

def condition (r : Reference kind) (how : Comparison) (threshold : Single) : Condition :=
  ⟨r.name, how, threshold⟩

/-- Conditions that take no threshold hold zero in its place. -/
def isTrue (r : Reference kind) : Condition := r.condition .isTrue (.zero false)

def isFalse (r : Reference .bool) : Condition := r.condition .isFalse (.zero false)

def equals (r : Reference .bool) (value : Bool) : Condition := if value then r.isTrue else r.isFalse

/-- Integers are compared by the number nearest to them. -/
def equalsInt (r : Reference .int) (value : Int32) : Condition :=
  r.condition .equals (.ofInt value.toInt)

def differsFromInt (r : Reference .int) (value : Int32) : Condition :=
  r.condition .differs (.ofInt value.toInt)

def exceedsInt (r : Reference .int) (value : Int32) : Condition :=
  r.condition .greater (.ofInt value.toInt)

def belowInt (r : Reference .int) (value : Int32) : Condition :=
  r.condition .less (.ofInt value.toInt)

def exceeds (r : Reference .float) (value : Single) : Condition := r.condition .greater value

def below (r : Reference .float) (value : Single) : Condition := r.condition .less value

end Reference

/-- References of one kind that are used together. -/
structure ReferenceGroup (kind : ParameterKind) where
  members : List (Reference kind)
  deriving DecidableEq

namespace ReferenceGroup

variable {kind : ParameterKind}

def ofNames (names : List String) : ReferenceGroup kind := ⟨names.map .mk⟩

def areTrue (g : ReferenceGroup kind) : List Condition := g.members.map (·.isTrue)

def areFalse (g : ReferenceGroup .bool) : List Condition := g.members.map (·.isFalse)

def equalInt (g : ReferenceGroup .int) (value : Int32) : List Condition :=
  g.members.map (·.equalsInt value)

def exceed (g : ReferenceGroup .float) (value : Single) : List Condition :=
  g.members.map (·.exceeds value)

def areBelow (g : ReferenceGroup .float) (value : Single) : List Condition :=
  g.members.map (·.below value)

end ReferenceGroup

end Statechart
