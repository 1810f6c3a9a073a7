import Statechart.Condition

/-! What the calls of a chain are given: conditions, and the gaps where something that is asked for
is not at hand. -/

namespace Statechart

/-- Something a step asks for that is not at hand. -/
inductive Gap where
  | reference (slot : String)
  | comparison (slot : String)
  | token (slot : String)
  | unreadable (reason : String)
  deriving DecidableEq

/-- Conditions for a call. A gap among them only matters if the call is made. -/
structure Supply where
  conditions : List Condition
  gaps : List Gap
  deriving DecidableEq

namespace Supply

def ofConditions (cs : List Condition) : Supply := ⟨cs, []⟩

def ofGap (g : Gap) : Supply := ⟨[], [g]⟩

instance : Append Supply := ⟨fun a b => ⟨a.conditions ++ b.conditions, a.gaps ++ b.gaps⟩⟩

end Supply

end Statechart
