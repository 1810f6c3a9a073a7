import Statechart.Controller

/-! Creating edges, and forking an edge for a further alternative. -/

namespace Statechart

inductive Opening where
  | fromState (source : StateHandle) (target : Endpoint)
  | exitState (source : StateHandle)
  | anyToState (state : StateHandle)
  | anyState (machine : MachineHandle) (target : Endpoint)
  | entry (machine : MachineHandle) (target : Endpoint)
  | entryToState (state : StateHandle)
  | entryToMachine (machine : MachineHandle)
  | fromMachine (source : MachineHandle) (target : Endpoint)
  | exitMachine (source : MachineHandle)
  deriving DecidableEq

def Opening.flavor : Opening → Flavor
  | fromState _ _ | exitState _ | anyToState _ | anyState _ _ => .timed
  | entry _ _ | entryToState _ | entryToMachine _ | fromMachine _ _ | exitMachine _ => .untimed

namespace Controller

def nextEdge (c : Controller) : EdgeHandle := .ofIndex c.edges.length

def pushEdge (c : Controller) (e : Edge) : Controller := { c with edges := c.edges ++ [e] }

def modifyEdge (c : Controller) (h : EdgeHandle) (f : Edge → Edge) : Controller :=
  { c with edges := c.edges.modify h.index f }

/-- Timed edges start with the default settings. -/
def createEdge (c : Controller) (machine : MachineHandle) (route : Route) :
    Controller × EdgeHandle :=
  let settings := match route.flavor with
    | .timed => some c.defaults.transition
    | .untimed => none
  (c.pushEdge ⟨machine, route, settings, []⟩, c.nextEdge)

def route (flavor : Flavor) (machine : MachineHandle) (source target : Endpoint) :
    Except Fault Route :=
  (Route.between flavor machine source target).mapError .topology

/-- The machine that the edge of an opening is stored on, and its route. -/
def plan (c : Controller) : Opening → Except Fault (MachineHandle × Route)
  | .fromState source target => do
    let m ← c.ownerOfState source
    c.checkEndpoint target
    return (m, ← route .timed m (.state source) target)
  | .exitState source => do
    let m ← c.ownerOfState source
    return (m, ← route .timed m (.state source) .absent)
  | .anyToState state => do
    let m ← c.ownerOfState state
    let _ ← c.machine m
    return (m, ← route .timed m .absent (.state state))
  | .anyState m target => do
    let _ ← c.machine m
    c.checkEndpoint target
    return (m, ← route .timed m .absent target)
  | .entry m target => do
    let _ ← c.machine m
    c.checkEndpoint target
    return (m, ← route .untimed m .absent target)
  | .entryToState state => do
    let m ← c.ownerOfState state
    let _ ← c.machine m
    return (m, ← route .untimed m .absent (.state state))
  | .entryToMachine machine => do
    let m ← c.ownerOfMachine machine
    let _ ← c.machine m
    return (m, ← route .untimed m .absent (.machine machine))
  | .fromMachine source target => do
    let m ← c.ownerOfMachine source
    c.checkEndpoint target
    return (m, ← route .untimed m (.machine source) target)
  | .exitMachine source => do
    let m ← c.ownerOfMachine source
    return (m, ← route .untimed m (.machine source) .absent)

/-- Starts a transition: its edge is created, and the route is kept for the forks to come. -/
def start (c : Controller) (o : Opening) : Except Fault (Controller × EdgeHandle × Route) := do
  let (m, r) ← c.plan o
  let (c, e) := c.createEdge m r
  return (c, e, r)

/-- An unconditional edge from a machine to itself. -/
def restart (c : Controller) (machine : MachineHandle) :
    Except Fault (Controller × EdgeHandle) := do
  let m ← c.ownerOfMachine machine
  return c.createEdge m (← route .untimed m (.machine machine) (.machine machine))

def modifySettings (c : Controller) (h : EdgeHandle)
    (f : TransitionSettings → TransitionSettings) : Controller :=
  c.modifyEdge h fun e => { e with settings := e.settings.map f }

/-- An edge that is taken when the animation of its source reaches the exit time. -/
def moveAutomatically (c : Controller) (source : StateHandle) (target : Endpoint) :
    Except Fault (Controller × EdgeHandle) :=
  if target.isAbsent then .error (.topology (.automaticExit source))
  else do
    let (c, e, _) ← c.start (.fromState source target)
    return (c.modifySettings e fun s => { s with hasExitTime := true }, e)

/-- The machine that an edge with a given route belongs to. -/
def hostOf (c : Controller) : Route → MachineHandle
  | .stateTo s _ | .stateExit s => (c.nodes[s.index]?.bind (·.parent)).getD ⟨s.node⟩
  | .anyState m _ | .entry m _ | .machineTo m _ _ | .machineExit m _ => m

/-- A new edge with the settings of `template` and no conditions. -/
def fork (c : Controller) (template : EdgeHandle) (route : Route) : Controller × EdgeHandle :=
  let pattern := c.edges[template.index]?
  let settings := match route.flavor with
    | .timed => some ((pattern.bind (·.settings)).getD c.defaults.transition)
    | .untimed => none
  let machine := (pattern.map (·.machine)).getD (c.hostOf route)
  (c.pushEdge ⟨machine, route, settings, []⟩, c.nextEdge)

/-- Forks an edge outside of a chain. The endpoints have to be those of the template. -/
def cloneEdge (c : Controller) (template : EdgeHandle) (source target : Endpoint) :
    Except Fault (Controller × EdgeHandle) := do
  let e ← c.edge template
  let r ← route e.flavor e.machine source target
  if r = e.route then return c.fork template r
  else throw (.topology (.otherEnds template e.source e.target source target))

/-- Adds conditions to an edge; an unknown edge is passed over. -/
def appendConditions (c : Controller) (h : EdgeHandle) (cs : List Condition) : Controller :=
  c.modifyEdge h fun e => { e with conditions := e.conditions ++ cs }

def appendCondition (c : Controller) (h : EdgeHandle) (condition : Condition) :
    Except Fault Controller := do
  let _ ← c.edge h
  return c.appendConditions h [condition]

end Controller

end Statechart
