import Statechart.Reference
import Statechart.Supply

/-! Conditions given by the names of stored references. -/

namespace Statechart

/-- A reference of any kind, alone or in a group. -/
inductive AnyReference where
  | one (kind : ParameterKind) (reference : Reference kind)
  | group (kind : ParameterKind) (references : ReferenceGroup kind)

/-- Whether one parameter is compared, every one of a group, or any one of a group. -/
inductive Reach where
  | one
  | every
  | any
  deriving DecidableEq

/-- What a written value may stand for. -/
structure Operand where
  flag : Option Bool
  integer : Option Int32
  number : Option Single

namespace AnyReference

/-- The conditions that a reference offers for a comparison, if its kind allows the comparison and
the operand fits. -/
def conditions? (o : Operand) : AnyReference → Reach → Comparison → Option (List Condition)
  | one .bool r, .one, .isTrue => some [r.isTrue]
  | one .bool r, .one, .isFalse => some [r.isFalse]
  | one .bool r, .one, .equals => o.flag.map fun b => [r.equals b]
  | one .trigger r, .one, .isTrue => some [r.isTrue]
  | one .int r, .one, .equals => o.integer.map fun n => [r.equalsInt n]
  | one .int r, .one, .differs => o.integer.map fun n => [r.differsFromInt n]
  | one .int r, .one, .greater => o.integer.map fun n => [r.exceedsInt n]
  | one .int r, .one, .less => o.integer.map fun n => [r.belowInt n]
  | one .float r, .one, .greater => o.number.map fun x => [r.exceeds x]
  | one .float r, .one, .less => o.number.map fun x => [r.below x]
  | group .bool g, .every, .isTrue => some g.areTrue
  | group .bool g, .every, .isFalse => some g.areFalse
  | group .bool g, .any, .isTrue => some g.areTrue
  | group .bool g, .any, .isFalse => some g.areFalse
  | group .trigger g, .every, .isTrue => some g.areTrue
  | group .int g, .every, .equals => o.integer.map g.equalInt
  | group .float g, .every, .greater => o.number.map g.exceed
  | group .float g, .every, .less => o.number.map g.areBelow
  | _, _, _ => none

end AnyReference

/-- Conditions as they are written down, before stored references are looked up. -/
inductive Source where
  | nothing
  | condition (condition : Condition)
  | both (first second : Source)
  | reference (name : String) (reach : Reach) (how : Comparison) (operand : Operand)
  | unreadable (reason : String)

namespace Source

def ofConditions (cs : List Condition) : Source :=
  cs.foldr (fun c s => both (condition c) s) nothing

def all (sources : List Source) : Source := sources.foldr both nothing

/-- The conditions of a source in order. A reference that is not stored, or does not allow its
comparison, leaves a gap. -/
def supply (table : List (String × AnyReference)) : Source → Supply
  | nothing => .ofConditions []
  | condition c => .ofConditions [c]
  | both a b => a.supply table ++ b.supply table
  | reference name reach how operand =>
    match table.lookup name with
    | none => .ofGap (.reference name)
    | some r =>
      match r.conditions? operand reach how with
      | some cs => .ofConditions cs
      | none => .ofGap (.comparison name)
  | unreadable reason => .ofGap (.unreadable reason)

end Source

end Statechart
