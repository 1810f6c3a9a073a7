import Statechart.Action

/-! The authoring steps as work that is done on a controller in place. A step makes its changes one
after the other, and where it fails, what it has changed by then stays changed. -/

namespace Statechart

abbrev Work := EStateM Fault Controller

namespace Work

/-- Puts a question to the controller. Where there is no answer the work ends. -/
def ask {α : Type} (question : Controller → Except Fault α) : Work α := fun c =>
  match question c with
  | .ok a => .ok a c
  | .error fault => .error fault c

/-- Makes a change that cannot fail. -/
def grow {α : Type} (change : Controller → Controller × α) : Work α := fun c =>
  let (c, a) := change c
  .ok a c

def pushNode (make : Controller → Node) : Work NodeHandle :=
  grow fun c => (c.pushNode (make c), c.nextNode)

def addLayer (name : String) : Work MachineHandle := do
  let root ← pushNode fun c => ⟨name, none, .origin, .machine c.newMachineData⟩
  modify fun c => { c with layers := c.layers ++ [⟨name, ⟨root⟩⟩] }
  return ⟨root⟩

def newStateAt (h : MachineHandle) (name : String) (x y : Int32) : Work StateHandle := do
  let _ ← ask (·.machine h)
  let state ← pushNode fun c =>
    ⟨name, some h, c.defaults.cellPosition x y, .state c.defaults.newState⟩
  modify (·.modifyMachine h fun m => { m with children := m.children ++ [state] })
  modify (·.modifyMachine h fun m =>
    { m with defaultState := m.defaultState.or (some ⟨state⟩) })
  return ⟨state⟩

def newMachineAt (h : MachineHandle) (name : String) (x y : Int32) : Work MachineHandle := do
  let _ ← ask (·.machine h)
  let machine ← pushNode fun c =>
    ⟨name, some h, c.defaults.cellPosition x y, .machine c.newMachineData⟩
  modify (·.modifyMachine h fun m => { m with children := m.children ++ [machine] })
  return ⟨machine⟩

def setPosition (h : NodeHandle) (place : Position) : Work Unit := do
  let _ ← ask (·.node h)
  modify (·.modifyNode h fun n => { n with position := place })

def moveToCell (h : NodeHandle) (x y : Int32) : Work Unit := do
  setPosition h ((← get).defaults.cellPosition x y)

def moveFrom (h : NodeHandle) (origin : Position) (dx dy : Int32) : Work Unit := do
  setPosition h (origin + (← get).defaults.cellPosition dx dy)

def moveBeside (h : NodeHandle) (d : Direction) (other : NodeHandle) : Work Unit := do
  let _ ← ask (·.node h)
  let origin ← ask (·.position other)
  moveFrom h origin d.step.1 d.step.2

def newState (h : MachineHandle) (name : String) : Work StateHandle := do
  let last ← ask (·.lastPosition h)
  let state ← newStateAt h name 0 0
  moveFrom state.node last 0 1
  return state

def newMachine (h : MachineHandle) (name : String) : Work MachineHandle := do
  let last ← ask (·.lastPosition h)
  let machine ← newMachineAt h name 0 0
  moveFrom machine.node last 0 1
  return machine

def setDefaultState (h : MachineHandle) (s : StateHandle) : Work Unit := do
  let owner ← ask (·.ownerOfState s)
  if owner = h then modify (·.modifyMachine h fun m => { m with defaultState := some s })
  else throw (.topology (.notAChild s h))

def placeAnchor (h : MachineHandle) (a : Anchor) (x y : Int32) : Work Unit := do
  let _ ← ask (·.machine h)
  modify fun c => c.modifyMachine h fun m =>
    { m with anchors := m.anchors.place (c.defaults.cellPosition x y) a }

/-- Makes edits one after the other, and answers the settings behind each of them. -/
def editEach (h : StateHandle) :
    StateSettings → List (StateEdit (Reference .float)) → Work (List StateSettings)
  | _, [] => return []
  | s, e :: es => do
    modify (·.modifyNode h.node fun n => { n with kind := .state (e.apply s) })
    return e.apply s :: (← editEach h (e.apply s) es)

def editState (h : StateHandle) (edits : List (StateEdit (Reference .float))) :
    Work (List StateSettings) := do
  let s ← ask (·.stateSettings h)
  editEach h s edits

def attach (h : NodeHandle) (kind : AttachmentKind) (change : kind.Value → kind.Value) :
    Work Unit := do
  let _ ← ask (·.node h)
  modify fun c => { c with attachments := c.attachments.amend h kind kind.initial change }

def register (kind : ParameterKind) (name : String) : Work (Reference kind) := do
  match (← get).parameter? name with
  | some p => if p.kind = kind then return ⟨name⟩ else throw (.kindMismatch name p.kind kind)
  | none =>
    modify fun c => { c with parameters := c.parameters ++ [⟨name, kind⟩] }
    return ⟨name⟩

/-- Whether a name can be declared, or is declared already, with a kind. -/
def permit (kind : ParameterKind) (name : String) (c : Controller) : Except Fault Unit :=
  match c.conflict? kind name with
  | some fault => .error fault
  | none => .ok ()

/-- Checks all names, and then registers one after the other. -/
def registerAll (kind : ParameterKind) (names : List String) : Work (ReferenceGroup kind) := do
  names.forM fun name => ask (permit kind name)
  names.forM fun name => discard (register kind name)
  return .ofNames names

def start (o : Opening) : Work (EdgeHandle × Route) := do
  let (m, r) ← ask (·.plan o)
  let e ← grow (·.createEdge m r)
  return (e, r)

def restart (machine : MachineHandle) : Work EdgeHandle := do
  let m ← ask (·.ownerOfMachine machine)
  let r ← ask fun _ => Controller.route .untimed m (.machine machine) (.machine machine)
  grow (·.createEdge m r)

def moveAutomatically (source : StateHandle) (target : Endpoint) : Work EdgeHandle := do
  if target.isAbsent then throw (.topology (.automaticExit source))
  else
    let (e, _) ← start (.fromState source target)
    modify (·.modifySettings e fun s => { s with hasExitTime := true })
    return e

def cloneEdge (template : EdgeHandle) (source target : Endpoint) : Work EdgeHandle := do
  let e ← ask (·.edge template)
  let r ← ask fun _ => Controller.route e.flavor e.machine source target
  if r = e.route then grow (·.fork template r)
  else throw (.topology (.otherEnds template e.source e.target source target))

def appendCondition (e : EdgeHandle) (condition : Condition) : Work Unit := do
  let _ ← ask (·.edge e)
  modify (·.appendConditions e [condition])

def andPlace (h : NodeHandle) : Work Answer := return .place (← ask (·.position h))

def andPlaced (h : NodeHandle) : Work Answer := return .placed h (← ask (·.position h))

def andEdge (e : EdgeHandle) : Work Answer := return .newEdge e (← ask (·.edge e))

end Work

/-- An action as work in place, which ends with the question that its answer is about. -/
def Action.work : Action → Work Answer
  | addLayer name => return .machine (← Work.addLayer name)
  | newState m name => do Work.andPlaced (← Work.newState m name).node
  | newStateAt m name x y => do Work.andPlaced (← Work.newStateAt m name x y).node
  | newMachine m name => do Work.andPlaced (← Work.newMachine m name).node
  | newMachineAt m name x y => do Work.andPlaced (← Work.newMachineAt m name x y).node
  | setDefaultState m s => do
    Work.setDefaultState m s
    return .done
  | setPosition h place => do
    Work.setPosition h place
    Work.andPlace h
  | moveToCell h x y => do
    Work.moveToCell h x y
    Work.andPlace h
  | moveFrom h origin dx dy => do
    Work.moveFrom h origin dx dy
    Work.andPlace h
  | moveBeside h d other => do
    Work.moveBeside h d other
    Work.andPlace h
  | placeAnchor m a x y => do
    Work.placeAnchor m a x y
    return .node (← Work.ask (·.node m.node))
  | editState s edits => return .settings (← Work.editState s edits)
  | attach h kind value => do
    Work.attach h kind fun old => kind.extend old value
    return .object kind ((← get).attachments.value? h kind)
  | register kind name => do
    let _ ← Work.register kind name
    return .count (← get).parameters.length
  | registerAll kind names => do
    let _ ← Work.registerAll kind names
    return .count (← get).parameters.length
  | appendCondition e x => do
    Work.appendCondition e x
    return .edge (← Work.ask (·.edge e))
  | restart m => return .edgeHandle (← Work.restart m)
  | moveAutomatically s t => do Work.andEdge (← Work.moveAutomatically s t)
  | cloneEdge e s t => do Work.andEdge (← Work.cloneEdge e s t)

end Statechart
