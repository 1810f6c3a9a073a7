import Statechart.Proofs.Authoring
import Statechart.Proofs.Choices

/-! The parts of a controller that authoring steps are about, and what is left of a controller for
each of them. What does not depend on the other parts is the same for what is left. -/

namespace Statechart

/-- Identity, name, defaults and layers are in no part, nor are the tree of nodes and their
names. -/
inductive Part where
  | parameters
  | layout
  | settings
  | entries
  | attachments
  | edges
  deriving DecidableEq

def StateSettings.only : Part → StateSettings → StateSettings
  | .settings, s => s
  | _, _ => ⟨none, false, .zero false, none, none, .zero false, none⟩

def Machine.only (p : Part) (m : Machine) : Machine where
  children := m.children
  defaultState := match p with
    | .entries => m.defaultState
    | _ => none
  anchors := match p with
    | .layout => m.anchors
    | _ => ⟨.origin, .origin, .origin, .origin⟩

def NodeKind.only (p : Part) : NodeKind → NodeKind
  | state s => state (s.only p)
  | machine m => machine (m.only p)

def Node.only (p : Part) (n : Node) : Node where
  name := n.name
  parent := n.parent
  position := match p with
    | .layout => n.position
    | _ => .origin
  kind := n.kind.only p

namespace Controller

/-- A controller with all parts made blank but one. -/
def only (p : Part) (c : Controller) : Controller where
  id := c.id
  name := c.name
  defaults := c.defaults
  parameters := match p with
    | .parameters => c.parameters
    | _ => []
  layers := c.layers
  nodes := c.nodes.map (·.only p)
  edges := match p with
    | .edges => c.edges
    | _ => []
  attachments := match p with
    | .attachments => c.attachments
    | _ => .empty

end Controller

section Equality

/-! A whole is told by what is left of it for each part. -/

theorem Machine.eq_of_only {m k : Machine} (h : ∀ p, m.only p = k.only p) : m = k :=
  calc
    m = ⟨(m.only .layout).children, (m.only .entries).defaultState, (m.only .layout).anchors⟩ := rfl
    _ = ⟨(k.only .layout).children, (k.only .entries).defaultState, (k.only .layout).anchors⟩ := by
      rw [h .layout, h .entries]
    _ = k := rfl

theorem NodeKind.eq_of_only {a b : NodeKind} (h : ∀ p, a.only p = b.only p) : a = b := by
  cases a with
  | state s =>
    cases b with
    | state t => exact congrArg state (NodeKind.state.inj (h .settings))
    | machine k => exact nomatch h .settings
  | machine m =>
    cases b with
    | state t => exact nomatch h .settings
    | machine k => exact congrArg machine (Machine.eq_of_only fun p => NodeKind.machine.inj (h p))

theorem Node.eq_of_only {n k : Node} (h : ∀ p, n.only p = k.only p) : n = k := by
  have hkind : n.kind = k.kind := NodeKind.eq_of_only fun p => congrArg (·.kind) (h p)
  calc
    n = { n.only .layout with kind := n.kind } := rfl
    _ = { k.only .layout with kind := k.kind } := by rw [h .layout, hkind]
    _ = k := rfl

theorem Controller.eq_of_only {c d : Controller} (h : ∀ p, c.only p = d.only p) : c = d := by
  have hi (i : Nat) (p : Part) : c.nodes[i]?.map (·.only p) = d.nodes[i]?.map (·.only p) := by
    rw [← List.getElem?_map, ← List.getElem?_map]
    exact congrArg (·.nodes[i]?) (h p)
  have hnodes : c.nodes = d.nodes := by
    refine List.ext_getElem? fun i => ?_
    cases hc : c.nodes[i]? with
    | none =>
      have hd := hi i .layout
      rw [hc] at hd
      exact (Option.map_eq_none_iff.mp hd.symm).symm
    | some n =>
      cases hd : d.nodes[i]? with
      | none =>
        have hn := hi i .layout
        simp [hc, hd] at hn
      | some k =>
        refine congrArg some (Node.eq_of_only fun p => ?_)
        simpa [hc, hd] using hi i p
  calc
    c = { c.only .layout with
          parameters := (c.only .parameters).parameters
          nodes := c.nodes
          edges := (c.only .edges).edges
          attachments := (c.only .attachments).attachments } := rfl
    _ = { d.only .layout with
          parameters := (d.only .parameters).parameters
          nodes := d.nodes
          edges := (d.only .edges).edges
          attachments := (d.only .attachments).attachments } := by
      rw [h .layout, h .parameters, h .edges, h .attachments, hnodes]
    _ = d := rfl

end Equality

namespace Controller

variable {c : Controller} {p : Part}

theorem getElem?_only (i : Nat) : (c.only p).nodes[i]? = c.nodes[i]?.map (·.only p) :=
  List.getElem?_map ..

theorem node_only (h : NodeHandle) : (c.only p).node h = (c.node h).map (·.only p) := by
  rw [node, node, getElem?_only]
  cases c.nodes[h.index]? <;> rfl

theorem machine_only (h : MachineHandle) : (c.only p).machine h = (c.machine h).map (·.only p) := by
  rw [machine, machine, node_only]
  cases c.node h.node with
  | error fault => rfl
  | ok n =>
    obtain ⟨name, parent, position, kind⟩ := n
    cases kind <;> rfl

theorem ownerOfState_only (h : StateHandle) : (c.only p).ownerOfState h = c.ownerOfState h := by
  rw [ownerOfState, ownerOfState, node_only]
  cases c.node h.node with
  | error fault => rfl
  | ok n =>
    obtain ⟨name, parent, position, kind⟩ := n
    cases kind <;> rfl

theorem machine_only_bind {α : Type} (h : MachineHandle) (x : Except Fault α) :
    ((c.only p).machine h >>= fun _ => x) = c.machine h >>= fun _ => x := by
  rw [machine_only]
  cases c.machine h <;> rfl

theorem ownerOfMachine_only (h : MachineHandle) :
    (c.only p).ownerOfMachine h = c.ownerOfMachine h := by
  rw [ownerOfMachine, ownerOfMachine, machine_only_bind, node_only]
  cases c.node h.node <;> rfl

theorem checkEndpoint_only (t : Endpoint) : (c.only p).checkEndpoint t = c.checkEndpoint t := by
  cases t with
  | state s => rw [checkEndpoint, ownerOfState_only]; rfl
  | machine m => exact machine_only_bind m _
  | absent => rfl

theorem host_only (o : Opening) : o.host (c.only p) = o.host c := by
  cases o <;> simp only [Opening.host, ownerOfState_only, ownerOfMachine_only]

theorem plan_only (o : Opening) : (c.only p).plan o = c.plan o := by
  simp only [plan_eq, host_only, checkEndpoint_only, machine_only_bind]

theorem hostOf_only (r : Route) : (c.only p).hostOf r = c.hostOf r := by
  cases r with
  | stateTo s t | stateExit s =>
    rw [hostOf, hostOf, getElem?_only]
    cases c.nodes[s.index]? <;> rfl
  | _ => rfl

theorem stateSettings_only (h : StateHandle) :
    (c.only .settings).stateSettings h = c.stateSettings h := by
  rw [stateSettings, stateSettings, node_only]
  cases c.node h.node with
  | error fault => rfl
  | ok n =>
    obtain ⟨name, parent, position, kind⟩ := n
    cases kind <;> rfl

theorem position_only (h : NodeHandle) : (c.only .layout).position h = c.position h := by
  rw [position, position, node_only]
  cases c.node h <;> rfl

theorem fork_only (e : EdgeHandle) (route : Route) :
    (c.only .edges).fork e route = ((c.fork e route).1.only .edges, (c.fork e route).2) := by
  simp only [fork, hostOf_only]
  rfl

theorem forkEach_only (route : Route) (e : EdgeHandle) (cs : List Condition) :
    (c.only .edges).forkEach route e cs =
      ((c.forkEach route e cs).1.only .edges, (c.forkEach route e cs).2) := by
  induction cs generalizing c e with
  | nil => rfl
  | cons x cs ih =>
    cases cs with
    | nil => rfl
    | cons y ys =>
      have hfork : ((c.only .edges).appendConditions e [x]).fork e route = _ :=
        fork_only (c := c.appendConditions e [x]) e route
      simp only [forkEach, hfork, ih]

theorem claim_only (m : Mark) (route : Route) (ts : List Clause) (found : List EdgeHandle) :
    (c.only .edges).claim m route ts found = c.claim m route ts found := by
  induction ts generalizing found with
  | nil => rfl
  | cons t ts ih =>
    have howns : (c.only .edges).owns m route t = c.owns m route t := rfl
    simp only [claim, howns, ih]

theorem only_withEdges {q : Part} (hq : q ≠ .edges) (c : Controller) (es : List Edge) :
    (c.withEdges es).only q = c.only q := by
  cases q with
  | edges => exact absurd rfl hq
  | _ => rfl

theorem only_modifyNode {h : NodeHandle} {f g : Node → Node}
    (hf : ∀ n, (f n).only p = g (n.only p)) :
    (c.modifyNode h f).only p = (c.only p).modifyNode h g :=
  congrArg (fun nodes => { c.only p with nodes }) (map_modify fun n _ => hf n)

theorem only_onMachine {f g : Machine → Machine} (hf : ∀ m, (f m).only p = g (m.only p))
    (n : Node) : (onMachine f n).only p = onMachine g (n.only p) := by
  obtain ⟨name, parent, position, kind⟩ := n
  cases kind with
  | state s => rfl
  | machine m =>
    exact congrArg (fun x => { Node.only p ⟨name, parent, position, .machine m⟩ with
      kind := .machine x }) (hf m)

theorem onMachine_id (n : Node) : onMachine (fun m => m) n = n := by
  obtain ⟨name, parent, position, kind⟩ := n
  cases kind <;> rfl

theorem modifyNode_id (h : NodeHandle) : (c.modifyNode h fun n => n) = c :=
  congrArg (fun nodes => { c with nodes }) (List.modify_id ..)

theorem modifyNode_congr {h : NodeHandle} {f g : Node → Node}
    (hfg : ∀ n, c.nodes[h.index]? = some n → f n = g n) : c.modifyNode h f = c.modifyNode h g := by
  have hnodes := map_modify (g := fun n => n) hfg
  rw [List.map_id', List.map_id'] at hnodes
  exact congrArg (fun nodes => { c with nodes }) hnodes

end Controller

end Statechart
