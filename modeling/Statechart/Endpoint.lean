import Statechart.Handle
import Statechart.Variant

/-! The two ends of a transition. -/

namespace Statechart

/-- An absent source stands for any state or the entry of a machine, an absent destination for its
exit. -/
inductive Endpoint where
  | state (handle : StateHandle)
  | machine (handle : MachineHandle)
  | absent
  deriving DecidableEq

namespace Endpoint

def state? : Endpoint → Option StateHandle
  | state s => some s
  | _ => none

def machine? : Endpoint → Option MachineHandle
  | machine m => some m
  | _ => none

def isAbsent : Endpoint → Bool
  | absent => true
  | _ => false

def describe : Endpoint → String
  | state s => "State(StateId(NodeId(" ++ toString s.index ++ ")))"
  | machine m => "SubMachine(MachineId(NodeId(" ++ toString m.index ++ ")))"
  | absent => "Absent"

def codec : Codec Endpoint :=
  .variants
    [.holding "State" StateHandle.codec state state?,
      .holding "SubMachine" MachineHandle.codec machine machine?,
      .bare "Absent" absent]

end Endpoint

end Statechart
