import Statechart.Snapshot
import Statechart.Transition

/-! Rebuilding a controller from a snapshot, with the checks on its links. -/

namespace Statechart

/-- Links of a snapshot that contradict each other. -/
inductive LinkFault where
  | unlistedChild (node : NodeHandle) (parent : MachineHandle)
  | strangeChild (child : NodeHandle) (machine : MachineHandle)
  | otherHost (edge : EdgeHandle) (machine host : MachineHandle)
  deriving DecidableEq

def LinkFault.reason : LinkFault → String
  | unlistedChild n p =>
    n.label ++ " names " ++ p.label ++ " as parent but is not one of its children"
  | strangeChild n m => n.label ++ " is listed under " ++ m.label ++ " but names another parent"
  | otherHost e m host =>
    e.label ++ " is stored on " ++ m.label ++ " but its route belongs to " ++ host.label

inductive RestoreFault where
  | version (found : UInt32)
  | inconsistent (cause : Fault)
  | brokenLink (cause : LinkFault)
  deriving DecidableEq

def RestoreFault.message : RestoreFault → String
  | version found =>
    "Unsupported snapshot version " ++ toString found.toNat ++ ", supported: " ++
      toString Snapshot.currentVersion.toNat
  | inconsistent cause => "Snapshot is inconsistent: " ++ cause.message
  | brokenLink cause => "Snapshot links disagree: " ++ cause.reason

namespace Controller

/-- Handles have to name nodes of the right kind. -/
def resolved {α : Type} (answer : Except Fault α) : Except RestoreFault α :=
  answer.mapError .inconsistent

def checkLayer (c : Controller) (l : Layer) : Except RestoreFault Unit := do
  let _ ← resolved (c.machine l.machine)

/-- A node has to be among the children of its parent. -/
def checkParent (c : Controller) (h : NodeHandle) (n : Node) : Except RestoreFault Unit :=
  match n.parent with
  | none => return ()
  | some p => do
    if h ∈ (← resolved (c.machine p)).children then return ()
    else throw (.brokenLink (.unlistedChild h p))

def checkChild (c : Controller) (m : MachineHandle) (child : NodeHandle) :
    Except RestoreFault Unit := do
  if (← resolved (c.node child)).parent = some m then return ()
  else throw (.brokenLink (.strangeChild child m))

/-- The children of a machine have to name it as their parent, and a default state has to be a
state that some machine owns. -/
def checkMachine (c : Controller) (h : MachineHandle) (m : Machine) :
    Except RestoreFault Unit := do
  m.children.forM (c.checkChild h)
  match m.defaultState with
  | some s => do let _ ← resolved (c.ownerOfState s)
  | none => return ()

def checkNode (c : Controller) (h : NodeHandle) (n : Node) : Except RestoreFault Unit := do
  c.checkParent h n
  match n.kind with
  | .machine m => c.checkMachine ⟨h⟩ m
  | .state _ => return ()

/-- An edge has to be stored on the machine that its route belongs to. -/
def checkEdge (c : Controller) (h : EdgeHandle) (e : Edge) : Except RestoreFault Unit := do
  let _ ← resolved (c.machine e.machine)
  resolved (c.checkEndpoint e.source)
  resolved (c.checkEndpoint e.target)
  if c.hostOf e.route = e.machine then return ()
  else throw (.brokenLink (.otherHost h e.machine (c.hostOf e.route)))

def checkLinks (c : Controller) : Except RestoreFault Unit := do
  c.layers.forM c.checkLayer
  c.numberedNodes.forM fun n => c.checkNode n.1 n.2
  c.numberedEdges.forM fun e => c.checkEdge e.1 e.2

def ofSnapshot (s : Snapshot) : Controller where
  id := s.id
  name := s.name
  defaults := s.defaults
  parameters := s.parameters
  layers := s.layers
  nodes := s.nodes
  edges := s.edges
  attachments := .empty

def restore (s : Snapshot) : Except RestoreFault Controller := do
  if s.version = Snapshot.currentVersion then
    (ofSnapshot s).checkLinks
    return ofSnapshot s
  else throw (.version s.version)

end Controller

end Statechart
