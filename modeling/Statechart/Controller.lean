import Statechart.Attachment
import Statechart.Defaults
import Statechart.Edge
import Statechart.Fault
import Statechart.Uuid

/-! Controllers: layers, nodes and edges held by position, with the parameters they use and the
objects attached to nodes. Here are the questions one can ask of them. -/

namespace Statechart

structure Layer where
  name : String
  machine : MachineHandle
  deriving BEq, DecidableEq

def Layer.codec : Codec Layer :=
  (Codec.record (.field "name" .text (.field "machine" MachineHandle.codec .done)) false).along
    (fun r => ⟨r.1, r.2.1⟩) fun l => (l.name, l.machine, ())

structure Controller where
  id : Uuid
  name : String
  defaults : Defaults
  parameters : List Parameter
  layers : List Layer
  nodes : List Node
  edges : List Edge
  attachments : Attachments

namespace Controller

def new (id : Uuid) (name : String) (defaults : Defaults) : Controller where
  id := id
  name := name
  defaults := defaults
  parameters := []
  layers := []
  nodes := []
  edges := []
  attachments := .empty

def node (c : Controller) (h : NodeHandle) : Except Fault Node :=
  match c.nodes[h.index]? with
  | some n => .ok n
  | none => .error (.unknownNode h)

def edge (c : Controller) (h : EdgeHandle) : Except Fault Edge :=
  match c.edges[h.index]? with
  | some e => .ok e
  | none => .error (.unknownEdge h)

def machine (c : Controller) (h : MachineHandle) : Except Fault Machine := do
  match (← c.node h.node).kind with
  | .machine m => return m
  | .state _ => throw (.notAMachine h.node)

def stateSettings (c : Controller) (h : StateHandle) : Except Fault StateSettings := do
  match (← c.node h.node).kind with
  | .state s => return s
  | .machine _ => throw (.notAState h.node)

def children (c : Controller) (h : MachineHandle) : Except Fault (List NodeHandle) :=
  return (← c.machine h).children

def defaultState (c : Controller) (h : MachineHandle) : Except Fault (Option StateHandle) :=
  return (← c.machine h).defaultState

def parent (c : Controller) (h : NodeHandle) : Except Fault (Option MachineHandle) :=
  return (← c.node h).parent

/-- The machine that owns a state; a state without an owner does not count as one. -/
def ownerOfState (c : Controller) (h : StateHandle) : Except Fault MachineHandle := do
  let n ← c.node h.node
  match n.isState, n.parent with
  | true, some m => return m
  | _, _ => throw (.notAState h.node)

/-- The machine that owns a machine, which must not be the root of a layer. -/
def ownerOfMachine (c : Controller) (h : MachineHandle) : Except Fault MachineHandle := do
  let _ ← c.machine h
  match (← c.node h.node).parent with
  | some m => return m
  | none => throw (.rootMachine h)

/-- Refuses endpoints that name no node, or a node of the wrong kind. -/
def checkEndpoint (c : Controller) : Endpoint → Except Fault Unit
  | .state s => do let _ ← c.ownerOfState s
  | .machine m => do let _ ← c.machine m
  | .absent => return ()

/-- The first child of a machine that is a state of the given name. -/
def findState (c : Controller) (h : MachineHandle) (name : String) : Option StateHandle :=
  match c.machine h with
  | .error _ => none
  | .ok m =>
    (m.children.find? fun child =>
      c.nodes[child.index]?.any fun n => n.isState && n.name == name).map .mk

def edgesBetween (c : Controller) (source target : Endpoint) : List EdgeHandle :=
  (c.edges.zipIdx.filter fun e => e.1.source = source ∧ e.1.target = target).map (.ofIndex ·.2)

def numberedEdges (c : Controller) : List (EdgeHandle × Edge) :=
  c.edges.zipIdx.map fun e => (.ofIndex e.2, e.1)

def numberedNodes (c : Controller) : List (NodeHandle × Node) :=
  c.nodes.zipIdx.map fun n => (.ofIndex n.2, n.1)

def parameter? (c : Controller) (name : String) : Option Parameter :=
  c.parameters.find? (·.name == name)

def attachmentKinds (c : Controller) (h : NodeHandle) : List AttachmentKind :=
  c.attachments.kinds h

end Controller

end Statechart
