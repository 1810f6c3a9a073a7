import Statechart.Placement
import Statechart.Registry
import Statechart.Rules
import Statechart.StateEdit
import Statechart.Transition

/-! What can be done to a controller and asked of it, as data. -/

namespace Statechart

/-- The authoring steps, apart from transitions that are given conditions by a chain. -/
inductive Action where
  | addLayer (name : String)
  | newState (machine : MachineHandle) (name : String)
  | newStateAt (machine : MachineHandle) (name : String) (x y : Int32)
  | newMachine (machine : MachineHandle) (name : String)
  | newMachineAt (machine : MachineHandle) (name : String) (x y : Int32)
  | setDefaultState (machine : MachineHandle) (state : StateHandle)
  | setPosition (node : NodeHandle) (place : Position)
  | moveToCell (node : NodeHandle) (x y : Int32)
  | moveFrom (node : NodeHandle) (origin : Position) (dx dy : Int32)
  | moveBeside (node : NodeHandle) (direction : Direction) (other : NodeHandle)
  | placeAnchor (machine : MachineHandle) (anchor : Anchor) (x y : Int32)
  | editState (state : StateHandle) (edits : List (StateEdit (Reference .float)))
  | attach (node : NodeHandle) (kind : AttachmentKind) (value : kind.Value)
  | register (kind : ParameterKind) (name : String)
  | registerAll (kind : ParameterKind) (names : List String)
  | appendCondition (edge : EdgeHandle) (condition : Condition)
  | restart (machine : MachineHandle)
  | moveAutomatically (source : StateHandle) (target : Endpoint)
  | cloneEdge (edge : EdgeHandle) (source target : Endpoint)

inductive Query where
  | whole
  | defaultState (machine : MachineHandle)
  | children (machine : MachineHandle)
  | parent (node : NodeHandle)
  | findState (machine : MachineHandle) (name : String)
  | node (node : NodeHandle)
  | position (node : NodeHandle)
  | attachmentKinds (node : NodeHandle)
  | parameter (name : String)
  | edge (edge : EdgeHandle)
  | edgesBetween (source target : Endpoint)
  | issues (rules : Rules)

inductive Answer where
  | done
  | machine (handle : MachineHandle)
  | placed (handle : NodeHandle) (place : Position)
  | place (place : Position)
  | node (node : Node)
  | view (node : Node)
  | settings (trail : List StateSettings)
  | object (kind : AttachmentKind) (value : Option kind.Value)
  | kinds (kinds : List AttachmentKind)
  | count (total : Nat)
  | edge (edge : Edge)
  | edgeHandle (handle : EdgeHandle)
  | newEdge (handle : EdgeHandle) (edge : Edge)
  | state? (handle : Option StateHandle)
  | parent? (handle : Option MachineHandle)
  | nodes (handles : List NodeHandle)
  | edges (handles : List EdgeHandle)
  | parameter? (parameter : Option Parameter)
  | issues (issues : List Issue)
  | whole (controller : Controller)

namespace Action

/-- The answer that a moved node gives: where it is now. -/
def andPlace (h : NodeHandle) (moved : Except Fault Controller) :
    Except Fault (Controller × Answer) := do
  let c ← moved
  return (c, .place (← c.position h))

def andPlaced (h : NodeHandle) (c : Controller) : Except Fault (Controller × Answer) := do
  return (c, .placed h (← c.position h))

def andEdge (grown : Controller × EdgeHandle) : Except Fault (Controller × Answer) := do
  return (grown.1, .newEdge grown.2 (← grown.1.edge grown.2))

/-- Performs an action; one that is refused leaves nothing behind. -/
def perform (c : Controller) : Action → Except Fault (Controller × Answer)
  | addLayer name => let (c, m) := c.addLayer name; .ok (c, .machine m)
  | newState m name => do let (c, s) ← c.newState m name; andPlaced s.node c
  | newStateAt m name x y => do let (c, s) ← c.newStateAt m name x y; andPlaced s.node c
  | newMachine m name => do let (c, s) ← c.newMachine m name; andPlaced s.node c
  | newMachineAt m name x y => do let (c, s) ← c.newMachineAt m name x y; andPlaced s.node c
  | setDefaultState m s => return (← c.setDefaultState m s, .done)
  | setPosition h place => andPlace h (c.setPosition h place)
  | moveToCell h x y => andPlace h (c.moveToCell h x y)
  | moveFrom h origin dx dy => andPlace h (c.moveFrom h origin dx dy)
  | moveBeside h d other => andPlace h (c.moveBeside h d other)
  | placeAnchor m a x y => do
    let c ← c.placeAnchor m a x y
    return (c, .node (← c.node m.node))
  | editState s edits => do
    let trail := StateEdit.trail (← c.stateSettings s) edits
    return (← c.editState s edits, .settings trail)
  | attach h kind value => do
    let c ← c.attach h kind fun old => kind.extend old value
    return (c, .object kind (c.attachments.value? h kind))
  | register kind name => do
    let (c, _) ← c.register kind name
    return (c, .count c.parameters.length)
  | registerAll kind names => do
    let (c, _) ← c.registerAll kind names
    return (c, .count c.parameters.length)
  | appendCondition e x => do
    let c ← c.appendCondition e x
    return (c, .edge (← c.edge e))
  | restart m => do
    let (c, e) ← c.restart m
    return (c, .edgeHandle e)
  | moveAutomatically s t => do andEdge (← c.moveAutomatically s t)
  | cloneEdge e s t => do andEdge (← c.cloneEdge e s t)

end Action

def Query.answer (c : Controller) : Query → Except Fault Answer
  | whole => return .whole c
  | defaultState m => return .state? (← c.defaultState m)
  | children m => return .nodes (← c.children m)
  | parent h => return .parent? (← c.parent h)
  | findState m name => return .state? (c.findState m name)
  | node h => return .view (← c.node h)
  | position h => return .place (← c.position h)
  | attachmentKinds h => return .kinds (c.attachmentKinds h)
  | parameter name => return .parameter? (c.parameter? name)
  | edge e => return .edge (← c.edge e)
  | edgesBetween s t => return .edges (c.edgesBetween s t)
  | issues rules => return .issues (c.verdict rules).issues

end Statechart
