import Statechart.Controller

/-! Problems of a finished controller, and the outcome of checking for them. -/

namespace Statechart

inductive Issue where
  | undeclared (edge : EdgeHandle) (parameter : String)
  | incompatible (edge : EdgeHandle) (parameter : String) (kind : ParameterKind)
      (comparison : Comparison)
  | neverFires (edge : EdgeHandle)
  | noDefaultState (machine : MachineHandle)
  | custom (message : String)
  deriving DecidableEq

def Issue.message : Issue → String
  | undeclared e p => "Condition on " ++ e.label ++ " uses undeclared parameter '" ++ p ++ "'"
  | incompatible e p kind how =>
    "Condition on " ++ e.label ++ " compares " ++ kind.label ++ " parameter '" ++ p ++ "' with '" ++
      how.symbol ++ "'"
  | neverFires e =>
    "Transition " ++ e.label ++ " has no conditions and no exit time, it never fires"
  | noDefaultState m => "Machine " ++ m.label ++ " has states but no default state"
  | custom m => "Custom check failed: " ++ m

/-- The outcome of a check; one that fails has at least one issue. -/
inductive Verdict where
  | sound
  | flawed (first : Issue) (more : List Issue)
  deriving DecidableEq

namespace Verdict

def issues : Verdict → List Issue
  | sound => []
  | flawed i is => i :: is

def ofIssues : List Issue → Verdict
  | [] => sound
  | i :: is => flawed i is

/-- Checks taken together fail with all issues of those that fail, in their order. -/
def all (vs : List Verdict) : Verdict := ofIssues (vs.flatMap issues)

theorem issues_ofIssues (is : List Issue) : (ofIssues is).issues = is := by
  cases is <;> rfl

end Verdict

end Statechart
