import Statechart.Condition
import Statechart.Route
import Statechart.TransitionSettings

/-! Edges: guarded transitions whose conditions all have to hold. -/

namespace Statechart

/-- The machine is the one the edge is drawn in. -/
structure Edge where
  machine : MachineHandle
  route : Route
  settings : Option TransitionSettings
  conditions : List Condition
  deriving BEq, DecidableEq

namespace Edge

def source (e : Edge) : Endpoint := e.route.source

def target (e : Edge) : Endpoint := e.route.target

def flavor (e : Edge) : Flavor := e.route.flavor

def codec : Codec Edge :=
  (Codec.record
    (.field "machine" MachineHandle.codec
      (.field "route" Route.codec
        (.field "settings" (.option TransitionSettings.codec)
          (.field "conditions" (.list Condition.codec) .done))))
    false).along
    (fun (a, b, c, d, _) => ⟨a, b, c, d⟩)
    fun e => (e.machine, e.route, e.settings, e.conditions, ())

end Edge

end Statechart
