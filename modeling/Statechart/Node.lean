import Statechart.Endpoint
import Statechart.Position

/-! Nodes: states, and machines that own other nodes. -/

namespace Statechart

/-- A parameter, where one is named, takes the place of the constant beside it. -/
structure StateSettings where
  motion : Option String
  writeDefaults : Bool
  speed : Single
  speedParameter : Option String
  timeParameter : Option String
  cycleOffset : Single
  cycleOffsetParameter : Option String
  deriving BEq, DecidableEq

def StateSettings.codec : Codec StateSettings :=
  (Codec.record
    (.field "motion" (.option .text)
      (.field "write_defaults" .bool
        (.field "speed" .single
          (.field "speed_parameter" (.option .text)
            (.field "time_parameter" (.option .text)
              (.field "cycle_offset" .single
                (.field "cycle_offset_parameter" (.option .text) .done)))))))
    false).along
    (fun (a, b, c, d, e, f, g, _) => ⟨a, b, c, d, e, f, g⟩)
    fun s =>
      (s.motion, s.writeDefaults, s.speed, s.speedParameter, s.timeParameter, s.cycleOffset,
        s.cycleOffsetParameter, ())

structure Anchors where
  entry : Position
  exit : Position
  anyState : Position
  parentMachine : Position
  deriving BEq, DecidableEq

def Anchors.codec : Codec Anchors :=
  (Codec.record
    (.field "entry" Position.codec
      (.field "exit" Position.codec
        (.field "any_state" Position.codec
          (.field "parent_machine" Position.codec .done))))
    false).along
    (fun (a, b, c, d, _) => ⟨a, b, c, d⟩)
    fun a => (a.entry, a.exit, a.anyState, a.parentMachine, ())

structure Machine where
  children : List NodeHandle
  defaultState : Option StateHandle
  anchors : Anchors
  deriving BEq, DecidableEq

def Machine.codec : Codec Machine :=
  (Codec.record
    (.field "children" (.list NodeHandle.codec)
      (.field "default_state" (.option StateHandle.codec)
        (.field "anchors" Anchors.codec .done)))
    false).along
    (fun (a, b, c, _) => ⟨a, b, c⟩) fun m => (m.children, m.defaultState, m.anchors, ())

inductive NodeKind where
  | state (settings : StateSettings)
  | machine (data : Machine)
  deriving BEq, DecidableEq

namespace NodeKind

def settings? : NodeKind → Option StateSettings
  | state s => some s
  | machine _ => none

def machine? : NodeKind → Option Machine
  | state _ => none
  | machine m => some m

def codec : Codec NodeKind :=
  .variants
    [.holding "State" StateSettings.codec state settings?,
      .holding "SubMachine" Machine.codec machine machine?]

end NodeKind

/-- A node of a controller; only the root machine of a layer has no parent. -/
structure Node where
  name : String
  parent : Option MachineHandle
  position : Position
  kind : NodeKind
  deriving BEq, DecidableEq

namespace Node

def isState (n : Node) : Bool := n.kind.settings?.isSome

def codec : Codec Node :=
  (Codec.record
    (.field "name" .text
      (.field "parent" (.option MachineHandle.codec)
        (.field "position" Position.codec (.field "kind" NodeKind.codec .done))))
    false).along
    (fun (a, b, c, d, _) => ⟨a, b, c, d⟩) fun n => (n.name, n.parent, n.position, n.kind, ())

end Node

end Statechart
