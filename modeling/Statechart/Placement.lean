import Statechart.Hierarchy

/-! Placing nodes and anchors on the grid, new nodes below those that are there already. -/

namespace Statechart

inductive Direction where
  | below
  | above
  | leftOf
  | rightOf
  deriving DecidableEq

/-- The step from a node to its neighbour, in columns and rows. -/
def Direction.step : Direction → Int32 × Int32
  | below => (0, 1)
  | above => (0, -1)
  | leftOf => (-1, 0)
  | rightOf => (1, 0)

inductive Anchor where
  | entry
  | exit
  | anyState
  | parentMachine
  deriving DecidableEq

def Anchors.place (a : Anchors) (place : Position) : Anchor → Anchors
  | .entry => { a with entry := place }
  | .exit => { a with exit := place }
  | .anyState => { a with anyState := place }
  | .parentMachine => { a with parentMachine := place }

namespace Controller

def position (c : Controller) (h : NodeHandle) : Except Fault Position :=
  return (← c.node h).position

def setPosition (c : Controller) (h : NodeHandle) (place : Position) : Except Fault Controller := do
  let _ ← c.node h
  return c.modifyNode h fun n => { n with position := place }

def moveToCell (c : Controller) (h : NodeHandle) (x y : Int32) : Except Fault Controller :=
  c.setPosition h (c.defaults.cellPosition x y)

def moveFrom (c : Controller) (h : NodeHandle) (origin : Position) (dx dy : Int32) :
    Except Fault Controller :=
  c.setPosition h (origin + c.defaults.cellPosition dx dy)

/-- Adds a state and moves it to the cell below the last child of the machine. -/
def newState (c : Controller) (h : MachineHandle) (name : String) :
    Except Fault (Controller × StateHandle) := do
  let last ← c.lastPosition h
  let (c, state) ← c.newStateAt h name 0 0
  return (← c.moveFrom state.node last 0 1, state)

def newMachine (c : Controller) (h : MachineHandle) (name : String) :
    Except Fault (Controller × MachineHandle) := do
  let last ← c.lastPosition h
  let (c, machine) ← c.newMachineAt h name 0 0
  return (← c.moveFrom machine.node last 0 1, machine)

def moveBeside (c : Controller) (h : NodeHandle) (d : Direction) (other : NodeHandle) :
    Except Fault Controller := do
  let _ ← c.node h
  c.moveFrom h (← c.position other) d.step.1 d.step.2

def placeAnchor (c : Controller) (h : MachineHandle) (a : Anchor) (x y : Int32) :
    Except Fault Controller := do
  let _ ← c.machine h
  return c.modifyMachine h fun m =>
    { m with anchors := m.anchors.place (c.defaults.cellPosition x y) a }

end Controller

end Statechart
