import Statechart.Endpoint
import Statechart.Record

/-! Routes: the kinds of edge that a controller can hold, and which pair of endpoints asks for
which. -/

namespace Statechart

/-- Timed edges blend over time and carry settings, untimed ones switch at once. -/
inductive Flavor where
  | timed
  | untimed
  deriving DecidableEq

def Flavor.codec : Codec Flavor := .names [("Timed", .timed), ("Untimed", .untimed)]

/-- Edges that leave a machine are stored on its parent, which the route names. -/
inductive Route where
  | stateTo (source : StateHandle) (target : Endpoint)
  | stateExit (source : StateHandle)
  | anyState (machine : MachineHandle) (target : Endpoint)
  | entry (machine : MachineHandle) (target : Endpoint)
  | machineTo (machine source : MachineHandle) (target : Endpoint)
  | machineExit (machine source : MachineHandle)
  deriving DecidableEq

inductive TopologyFault where
  | noEnds
  | timedFromMachine (machine : MachineHandle)
  | untimedFromState (state : StateHandle)
  | notAChild (state : StateHandle) (machine : MachineHandle)
  | automaticExit (state : StateHandle)
  | otherEnds (template : EdgeHandle) (source target askedSource askedTarget : Endpoint)
  deriving DecidableEq

def TopologyFault.reason : TopologyFault → String
  | noEnds => "transition has no source nor destination"
  | timedFromMachine m => "timed transition cannot start from sub-machine " ++ m.label
  | untimedFromState s => "untimed transition cannot start from state " ++ s.label
  | notAChild s m => s.label ++ " is not a child of " ++ m.label
  | automaticExit s => s.label ++ " cannot automatically move to the exit"
  | otherEnds template source target askedSource askedTarget =>
    template.label ++ " connects " ++ source.describe ++ " to " ++ target.describe ++
      ", a clone cannot connect " ++ askedSource.describe ++ " to " ++ askedTarget.describe

namespace Route

/-- The route for a pair of endpoints, of an edge stored on `machine`. -/
def between (flavor : Flavor) (machine : MachineHandle) (source target : Endpoint) :
    Except TopologyFault Route :=
  match flavor, source, target with
  | _, .absent, .absent => .error .noEnds
  | .timed, .absent, target => .ok (.anyState machine target)
  | .timed, .state s, .absent => .ok (.stateExit s)
  | .timed, .state s, target => .ok (.stateTo s target)
  | .timed, .machine m, _ => .error (.timedFromMachine m)
  | .untimed, .absent, target => .ok (.entry machine target)
  | .untimed, .machine m, .absent => .ok (.machineExit machine m)
  | .untimed, .machine m, target => .ok (.machineTo machine m target)
  | .untimed, .state s, _ => .error (.untimedFromState s)

def source : Route → Endpoint
  | stateTo s _ | stateExit s => .state s
  | anyState _ _ | entry _ _ => .absent
  | machineTo _ m _ | machineExit _ m => .machine m

def target : Route → Endpoint
  | stateTo _ t | anyState _ t | entry _ t | machineTo _ _ t => t
  | stateExit _ | machineExit _ _ => .absent

def flavor : Route → Flavor
  | stateTo _ _ | stateExit _ | anyState _ _ => .timed
  | entry _ _ | machineTo _ _ _ | machineExit _ _ => .untimed

/-- The fields of a route that leads from one handle to an endpoint. -/
def targetFields {α : Type} (name : String) (c : Codec α) : Codec (α × Endpoint × Unit) :=
  .record (.field name c (.field "to" Endpoint.codec .done)) false

def codec : Codec Route :=
  .variants
    [.holding "StateTo" (targetFields "from" StateHandle.codec) (fun r => stateTo r.1 r.2.1) fun
        | stateTo s t => some (s, t, ())
        | _ => none,
      .holding "StateExit" (.record (.field "from" StateHandle.codec .done) false)
        (fun r => stateExit r.1) fun
        | stateExit s => some (s, ())
        | _ => none,
      .holding "AnyState" (targetFields "machine" MachineHandle.codec)
        (fun r => anyState r.1 r.2.1) fun
        | anyState m t => some (m, t, ())
        | _ => none,
      .holding "Entry" (targetFields "machine" MachineHandle.codec) (fun r => entry r.1 r.2.1) fun
        | entry m t => some (m, t, ())
        | _ => none,
      .holding "MachineTo"
        (.record (.field "machine" MachineHandle.codec (.field "from" MachineHandle.codec
          (.field "to" Endpoint.codec .done))) false)
        (fun r => machineTo r.1 r.2.1 r.2.2.1) fun
        | machineTo m s t => some (m, s, t, ())
        | _ => none,
      .holding "MachineExit"
        (.record (.field "machine" MachineHandle.codec (.field "from" MachineHandle.codec .done))
          false)
        (fun r => machineExit r.1 r.2.1) fun
        | machineExit m s => some (m, s, ())
        | _ => none]

end Route

end Statechart
