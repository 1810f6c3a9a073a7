import Statechart.Parameter
import Statechart.Route

/-! Why an authoring step is refused. -/

namespace Statechart

inductive Fault where
  | topology (cause : TopologyFault)
  | unknownNode (node : NodeHandle)
  | unknownEdge (edge : EdgeHandle)
  | notAState (node : NodeHandle)
  | notAMachine (node : NodeHandle)
  | rootMachine (machine : MachineHandle)
  | kindMismatch (name : String) (declared requested : ParameterKind)
  | foreignClause (edge : EdgeHandle)
  deriving DecidableEq

def Fault.message : Fault → String
  | topology cause => "Invalid transition topology: " ++ cause.reason
  | unknownNode n => "Node " ++ n.label ++ " does not exist in this controller"
  | unknownEdge e => "Edge " ++ e.label ++ " does not exist in this controller"
  | notAState n => "Node " ++ n.label ++ " is not a state"
  | notAMachine n => "Node " ++ n.label ++ " is not a state machine"
  | rootMachine m => "Machine " ++ m.label ++ " is a layer root and has no parent machine"
  | kindMismatch name declared requested =>
    "Parameter '" ++ name ++ "' is already registered as " ++ declared.label ++
      ", cannot use it as " ++ requested.label
  | foreignClause e => "Clause on " ++ e.label ++ " does not belong to this transition"

end Statechart
