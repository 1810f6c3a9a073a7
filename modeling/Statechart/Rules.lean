import Statechart.Issue

/-! The rules that a controller is checked by. -/

namespace Statechart

abbrev Check := Controller → Verdict

/-- The standard checks, each of which can be left out, and further checks that run after them. -/
structure Rules where
  parameters : Bool
  firing : Bool
  defaultStates : Bool
  required : List Check

namespace Rules

def standard : Rules := ⟨true, true, true, []⟩

def require (r : Rules) (check : Check) : Rules := { r with required := r.required ++ [check] }

/-- Reports a message where a predicate does not hold. -/
def requireThat (r : Rules) (holds : Controller → Bool) (message : String) : Rules :=
  r.require fun c => if holds c then .sound else .flawed (.custom message) []

end Rules

namespace Controller

/-- The parameter of a condition has to be declared with a kind that fits the comparison. -/
def conditionIssue? (c : Controller) (e : EdgeHandle) (x : Condition) : Option Issue :=
  match c.parameter? x.parameter with
  | none => some (.undeclared e x.parameter)
  | some p =>
    if p.kind.accepts x.comparison then none
    else some (.incompatible e x.parameter p.kind x.comparison)

def parameterIssues (c : Controller) : List Issue :=
  c.numberedEdges.flatMap fun e => e.2.conditions.filterMap (c.conditionIssue? e.1)

/-- A timed edge is taken on its conditions or at its exit time. -/
def neverFires (e : Edge) : Bool :=
  e.settings.any (!·.hasExitTime) && e.conditions.isEmpty

def firingIssues (c : Controller) : List Issue :=
  (c.numberedEdges.filter fun e => neverFires e.2).map fun e => .neverFires e.1

/-- A machine with a state among its children has to have a default state. -/
def lacksDefault (c : Controller) (n : Node) : Bool :=
  n.kind.machine?.any fun m =>
    m.defaultState.isNone && m.children.any fun child => c.nodes[child.index]?.any (·.isState)

def defaultStateIssues (c : Controller) : List Issue :=
  (c.numberedNodes.filter fun n => c.lacksDefault n.2).map fun n => .noDefaultState ⟨n.1⟩

/-- Runs every check that the rules ask for, and reports all issues at once. -/
def verdict (c : Controller) (r : Rules) : Verdict :=
  .all
    ([(r.parameters, c.parameterIssues), (r.firing, c.firingIssues),
        (r.defaultStates, c.defaultStateIssues)].map
        (fun s => if s.1 then .ofIssues s.2 else .sound) ++
      r.required.map fun check => check c)

end Controller

end Statechart
