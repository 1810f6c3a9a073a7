import Statechart.Controller

/-! Growing the tree of nodes: layers, states and nested machines, and the choice of default
states. -/

namespace Statechart.Controller

def modifyNode (c : Controller) (h : NodeHandle) (f : Node → Node) : Controller :=
  { c with nodes := c.nodes.modify h.index f }

def modifyMachine (c : Controller) (h : MachineHandle) (f : Machine → Machine) : Controller :=
  c.modifyNode h.node fun n =>
    match n.kind with
    | .machine m => { n with kind := .machine (f m) }
    | .state _ => n

def nextNode (c : Controller) : NodeHandle := .ofIndex c.nodes.length

def pushNode (c : Controller) (n : Node) : Controller := { c with nodes := c.nodes ++ [n] }

def newMachineData (c : Controller) : Machine := ⟨[], none, c.defaults.newAnchors⟩

def addLayer (c : Controller) (name : String) : Controller × MachineHandle :=
  let root : MachineHandle := ⟨c.nextNode⟩
  let grown := c.pushNode ⟨name, none, .origin, .machine c.newMachineData⟩
  ({ grown with layers := c.layers ++ [⟨name, root⟩] }, root)

/-- The place of the last child of a machine, or the one above its first child to come. -/
def lastPosition (c : Controller) (h : MachineHandle) : Except Fault Position := do
  match (← c.machine h).children.getLast? with
  | some child => return (← c.node child).position
  | none => return c.defaults.firstChildOrigin

/-- Adds a state to a machine; the first one becomes its default state. -/
def addState (c : Controller) (h : MachineHandle) (name : String) (place : Position) :
    Except Fault (Controller × StateHandle) := do
  let _ ← c.machine h
  let state : StateHandle := ⟨c.nextNode⟩
  let grown := c.pushNode ⟨name, some h, place, .state c.defaults.newState⟩
  return (grown.modifyMachine h fun m =>
    { m with
      children := m.children ++ [state.node]
      defaultState := m.defaultState.or (some state) }, state)

def addMachine (c : Controller) (h : MachineHandle) (name : String) (place : Position) :
    Except Fault (Controller × MachineHandle) := do
  let _ ← c.machine h
  let child : MachineHandle := ⟨c.nextNode⟩
  let grown := c.pushNode ⟨name, some h, place, .machine c.newMachineData⟩
  return (grown.modifyMachine h fun m => { m with children := m.children ++ [child.node] }, child)

def newStateAt (c : Controller) (h : MachineHandle) (name : String) (x y : Int32) :
    Except Fault (Controller × StateHandle) :=
  c.addState h name (c.defaults.cellPosition x y)

def newMachineAt (c : Controller) (h : MachineHandle) (name : String) (x y : Int32) :
    Except Fault (Controller × MachineHandle) :=
  c.addMachine h name (c.defaults.cellPosition x y)

/-- Chooses the state that a machine is entered by, one of its own. -/
def setDefaultState (c : Controller) (h : MachineHandle) (s : StateHandle) :
    Except Fault Controller := do
  if (← c.ownerOfState s) = h then
    return c.modifyMachine h fun m => { m with defaultState := some s }
  else throw (.topology (.notAChild s h))

end Statechart.Controller
