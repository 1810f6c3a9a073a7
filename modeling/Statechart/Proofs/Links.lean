import Statechart.Restore
import Statechart.Proofs.Arena

/-! The links that a snapshot is checked for, as a property of controllers. -/

namespace Statechart

theorem bind_eq_ok {ε α β : Type} {x : Except ε α} {f : α → Except ε β} {b : β} :
    (x >>= f) = .ok b ↔ ∃ a, x = .ok a ∧ f a = .ok b := by
  cases x with
  | error e => simp [bind, Except.bind]
  | ok a => simp [bind, Except.bind]

theorem pure_eq_ok {ε α : Type} {a b : α} : (pure a : Except ε α) = .ok b ↔ a = b := by
  simp [pure, Except.pure]

theorem then_eq_ok {ε β : Type} {x : Except ε Unit} {y : Except ε β} {b : β} :
    (x >>= fun _ => y) = .ok b ↔ x = .ok () ∧ y = .ok b := by
  cases x with
  | error e => simp [bind, Except.bind]
  | ok a => simp [bind, Except.bind]

theorem guard_eq_ok {ε : Type} {p : Prop} [Decidable p] {e : ε} :
    (if p then pure () else throw e : Except ε Unit) = .ok () ↔ p := by
  split <;> simp_all [pure, Except.pure, throw, throwThe, MonadExceptOf.throw]

theorem forM_eq_ok {ε α : Type} {f : α → Except ε Unit} (l : List α) :
    l.forM f = .ok () ↔ ∀ x ∈ l, f x = .ok () := by
  rw [List.forM_eq_forM]
  induction l with
  | nil => simp [pure_eq_ok]
  | cons x l ih => rw [List.forM_cons, then_eq_ok, ih, List.forall_mem_cons]

theorem NodeHandle.index_ofIndex {i : Nat} (h : i < 2 ^ 32) : (NodeHandle.ofIndex i).index = i :=
  UInt32.toNat_ofNat_of_lt' h

theorem NodeHandle.ofIndex_index (h : NodeHandle) : NodeHandle.ofIndex h.index = h := by
  cases h
  simp [NodeHandle.ofIndex, NodeHandle.index]

namespace Node

def children (n : Node) : List NodeHandle := (n.kind.machine?.map (·.children)).getD []

def initial? (n : Node) : Option StateHandle := n.kind.machine?.bind (·.defaultState)

variable {n : Node} {m : Machine} {s : StateSettings}

theorem children_of_machine (h : n.kind = .machine m) : n.children = m.children := by
  simp [children, h, NodeKind.machine?]

theorem children_of_state (h : n.kind = .state s) : n.children = [] := by
  simp [children, h, NodeKind.machine?]

theorem initial?_of_machine (h : n.kind = .machine m) : n.initial? = m.defaultState := by
  simp [initial?, h, NodeKind.machine?]

theorem initial?_of_state (h : n.kind = .state s) : n.initial? = none := by
  simp [initial?, h, NodeKind.machine?]

theorem isState_eq_false : n.isState = false ↔ ∃ m, n.kind = .machine m := by
  cases h : n.kind <;> simp [isState, h, NodeKind.settings?]

end Node

namespace Controller

variable {c : Controller}

theorem node_eq_ok {h : NodeHandle} {n : Node} : c.node h = .ok n ↔ c.nodes[h.index]? = some n := by
  unfold node
  split <;> simp_all

theorem edge_eq_ok {e : EdgeHandle} {x : Edge} : c.edge e = .ok x ↔ c.edges[e.index]? = some x := by
  unfold edge
  split <;> simp_all

theorem machine_eq_ok {h : MachineHandle} {m : Machine} :
    c.machine h = .ok m ↔ ∃ n, c.nodes[h.index]? = some n ∧ n.kind = .machine m := by
  simp only [machine, bind_eq_ok, node_eq_ok]
  refine exists_congr fun n => and_congr_right fun _ => ?_
  cases n.kind <;> simp [pure, Except.pure, throw, throwThe, MonadExceptOf.throw]

theorem ownerOfState_eq_ok {s : StateHandle} {p : MachineHandle} :
    c.ownerOfState s = .ok p ↔
      ∃ n, c.nodes[s.index]? = some n ∧ n.isState = true ∧ n.parent = some p := by
  simp only [ownerOfState, bind_eq_ok, node_eq_ok]
  refine exists_congr fun n => and_congr_right fun _ => ?_
  cases n.isState <;> cases n.parent <;>
    simp [pure, Except.pure, throw, throwThe, MonadExceptOf.throw]

theorem checkEndpoint_eq_ok {t : Endpoint} :
    c.checkEndpoint t = .ok () ↔
      (∀ s, t = .state s → ∃ p, c.ownerOfState s = .ok p) ∧
      ∀ h, t = .machine h → ∃ m, c.machine h = .ok m := by
  cases t <;> simp [checkEndpoint, bind_eq_ok, pure, Except.pure]

/-- The links of a node: its parent lists it, its children name it, and the state it is entered by
has an owner. -/
structure NodeLinked (c : Controller) (h : NodeHandle) (n : Node) : Prop where
  listed : ∀ p, n.parent = some p → ∃ q, c.nodes[p.index]? = some q ∧ h ∈ q.children
  named : ∀ child ∈ n.children, ∃ k, c.nodes[child.index]? = some k ∧ k.parent = some ⟨h⟩
  entered : ∀ s, n.initial? = some s → ∃ p, c.ownerOfState s = .ok p

/-- The links of an edge: it is stored on a machine, the one that its route belongs to, and its ends
are there. -/
structure EdgeLinked (c : Controller) (x : Edge) : Prop where
  stored : ∃ m, c.machine x.machine = .ok m
  source : c.checkEndpoint x.source = .ok ()
  target : c.checkEndpoint x.target = .ok ()
  host : c.hostOf x.route = x.machine

structure Linked (c : Controller) : Prop where
  layers : ∀ l ∈ c.layers, ∃ m, c.machine l.machine = .ok m
  nodes : ∀ i n, c.nodes[i]? = some n → c.NodeLinked (.ofIndex i) n
  edges : ∀ x ∈ c.edges, c.EdgeLinked x

section SameNodes

variable {d : Controller}

theorem machine_congr (hn : d.nodes = c.nodes) (h : MachineHandle) : d.machine h = c.machine h := by
  simp [machine, node, hn]

theorem ownerOfState_congr (hn : d.nodes = c.nodes) (s : StateHandle) :
    d.ownerOfState s = c.ownerOfState s := by
  simp [ownerOfState, node, hn]

theorem checkEndpoint_congr (hn : d.nodes = c.nodes) (t : Endpoint) :
    d.checkEndpoint t = c.checkEndpoint t := by
  cases t <;> simp [checkEndpoint, machine_congr hn, ownerOfState_congr hn]

theorem hostOf_congr (hn : d.nodes = c.nodes) (r : Route) : d.hostOf r = c.hostOf r := by
  cases r <;> simp [hostOf, hn]

theorem EdgeLinked.of_nodes_eq {x y : Edge} (h : c.EdgeLinked y) (hn : d.nodes = c.nodes)
    (hm : x.machine = y.machine) (hr : x.route = y.route) : d.EdgeLinked x where
  stored := by simpa only [hm, machine_congr hn] using h.stored
  source := by simpa only [Edge.source, hr, checkEndpoint_congr hn] using h.source
  target := by simpa only [Edge.target, hr, checkEndpoint_congr hn] using h.target
  host := by simpa only [hm, hr, hostOf_congr hn] using h.host

/-- Links are about layers, nodes, and of edges about machine and route. -/
theorem Linked.of_nodes_eq (h : c.Linked) (hl : d.layers = c.layers) (hn : d.nodes = c.nodes)
    (he : ∀ x ∈ d.edges, ∃ y, c.EdgeLinked y ∧ x.machine = y.machine ∧ x.route = y.route) :
    d.Linked where
  layers l hmem := by simpa only [machine_congr hn] using h.layers l (hl ▸ hmem)
  nodes i n hi := by
    have hh := h.nodes i n (hn ▸ hi)
    exact ⟨by simpa only [hn] using hh.listed, by simpa only [hn] using hh.named,
      by simpa only [ownerOfState_congr hn] using hh.entered⟩
  edges x hx := by
    obtain ⟨y, hy, hm, hr⟩ := he x hx
    exact hy.of_nodes_eq hn hm hr

end SameNodes

theorem resolved_eq_ok {α : Type} {answer : Except Fault α} {a : α} :
    resolved answer = .ok a ↔ answer = .ok a := by
  cases answer with
  | ok b =>
    have hb : resolved (.ok b) = .ok b := rfl
    rw [hb, Except.ok.injEq, Except.ok.injEq]
  | error f => exact iff_of_false nofun nofun

theorem checkLayer_eq_ok {l : Layer} :
    c.checkLayer l = .ok () ↔ ∃ m, c.machine l.machine = .ok m := by
  simp [checkLayer, bind_eq_ok, resolved_eq_ok, pure, Except.pure]

theorem checkParent_eq_ok {h : NodeHandle} {n : Node} :
    c.checkParent h n = .ok () ↔
      ∀ p, n.parent = some p → ∃ q, c.nodes[p.index]? = some q ∧ h ∈ q.children := by
  cases hp : n.parent with
  | none => simp [checkParent, hp, pure_eq_ok]
  | some p =>
    simp only [checkParent, hp, bind_eq_ok, resolved_eq_ok, guard_eq_ok, machine_eq_ok,
      Option.some.injEq, forall_eq']
    constructor
    · rintro ⟨m, ⟨q, hq, hm⟩, hmem⟩
      exact ⟨q, hq, by rwa [Node.children_of_machine hm]⟩
    · rintro ⟨q, hq, hmem⟩
      cases hk : q.kind with
      | machine m => exact ⟨m, ⟨q, hq, hk⟩, by rwa [Node.children_of_machine hk] at hmem⟩
      | state s => simp [Node.children_of_state hk] at hmem

theorem checkChild_eq_ok {h : MachineHandle} {child : NodeHandle} :
    c.checkChild h child = .ok () ↔
      ∃ k, c.nodes[child.index]? = some k ∧ k.parent = some h := by
  simp only [checkChild, bind_eq_ok, resolved_eq_ok, node_eq_ok, guard_eq_ok]

theorem checkMachine_eq_ok {h : MachineHandle} {m : Machine} :
    c.checkMachine h m = .ok () ↔
      (∀ child ∈ m.children, ∃ k, c.nodes[child.index]? = some k ∧ k.parent = some h) ∧
        ∀ s, m.defaultState = some s → ∃ p, c.ownerOfState s = .ok p := by
  simp only [checkMachine, then_eq_ok, forM_eq_ok, checkChild_eq_ok]
  refine and_congr_right fun _ => ?_
  cases m.defaultState <;> simp [bind_eq_ok, resolved_eq_ok, pure, Except.pure]

theorem checkNode_eq_ok {h : NodeHandle} {n : Node} :
    c.checkNode h n = .ok () ↔ c.NodeLinked h n := by
  simp only [checkNode, then_eq_ok, checkParent_eq_ok]
  cases hk : n.kind with
  | state s =>
    refine ⟨fun h => ⟨h.1, ?_, ?_⟩, fun h => ⟨h.listed, rfl⟩⟩
    · simp [Node.children_of_state hk]
    · simp [Node.initial?_of_state hk]
  | machine m =>
    rw [checkMachine_eq_ok, ← Node.children_of_machine hk, ← Node.initial?_of_machine hk]
    exact ⟨fun h => ⟨h.1, h.2.1, h.2.2⟩, fun h => ⟨h.listed, h.named, h.entered⟩⟩

theorem checkEdge_eq_ok {h : EdgeHandle} {x : Edge} :
    c.checkEdge h x = .ok () ↔ c.EdgeLinked x := by
  rw [checkEdge, bind_eq_ok]
  simp only [then_eq_ok, resolved_eq_ok, guard_eq_ok]
  constructor
  · rintro ⟨m, hm, hsource, htarget, hhost⟩
    exact ⟨⟨m, hm⟩, hsource, htarget, hhost⟩
  · rintro ⟨⟨m, hm⟩, hsource, htarget, hhost⟩
    exact ⟨m, hm, hsource, htarget, hhost⟩

theorem mem_numberedNodes {h : NodeHandle} {n : Node} :
    (h, n) ∈ c.numberedNodes ↔ ∃ i, c.nodes[i]? = some n ∧ h = .ofIndex i := by
  simp only [numberedNodes, List.mem_map, Prod.exists, List.mem_zipIdx_iff_getElem?, Prod.mk.injEq]
  constructor
  · rintro ⟨n, i, hn, rfl, rfl⟩
    exact ⟨i, hn, rfl⟩
  · rintro ⟨i, hn, rfl⟩
    exact ⟨n, i, hn, rfl, rfl⟩

theorem mem_of_mem_numberedEdges {x : Edge} : (∃ h, (h, x) ∈ c.numberedEdges) ↔ x ∈ c.edges := by
  simp only [numberedEdges, List.mem_map, Prod.exists, List.mem_zipIdx_iff_getElem?, Prod.mk.injEq]
  constructor
  · rintro ⟨_, x, i, hx, rfl, rfl⟩
    exact List.mem_of_getElem? hx
  · intro hx
    obtain ⟨i, hi⟩ := List.getElem?_of_mem hx
    exact ⟨_, x, i, hi, rfl, rfl⟩

/-- The checks of a snapshot ask for exactly these links. -/
theorem checkLinks_eq_ok : c.checkLinks = .ok () ↔ c.Linked := by
  simp only [checkLinks, then_eq_ok, forM_eq_ok, checkLayer_eq_ok, checkNode_eq_ok,
    checkEdge_eq_ok]
  constructor
  · rintro ⟨hlayers, hnodes, hedges⟩
    refine ⟨hlayers, fun i n hn => ?_, fun x hx => ?_⟩
    · exact hnodes (.ofIndex i, n) (mem_numberedNodes.mpr ⟨i, hn, rfl⟩)
    · obtain ⟨h, hh⟩ := mem_of_mem_numberedEdges.mpr hx
      exact hedges (h, x) hh
  · rintro ⟨hlayers, hnodes, hedges⟩
    refine ⟨hlayers, fun ⟨h, n⟩ hn => ?_, fun ⟨h, x⟩ hx => ?_⟩
    · obtain ⟨i, hi, rfl⟩ := mem_numberedNodes.mp hn
      exact hnodes i n hi
    · exact hedges x (mem_of_mem_numberedEdges.mp ⟨h, hx⟩)

/-- A linked controller is restored from its snapshot, without its attachments. -/
theorem restore_snapshot (h : c.Linked) (time : Timestamp) :
    restore (c.snapshot time) = .ok { c with attachments := .empty } := by
  have hlinks : (ofSnapshot (c.snapshot time)).checkLinks = .ok () :=
    checkLinks_eq_ok.mpr (h.of_nodes_eq rfl rfl fun x hx => ⟨x, h.edges x hx, rfl, rfl⟩)
  have hversion : (c.snapshot time).version = Snapshot.currentVersion := rfl
  rw [restore, if_pos hversion, hlinks]
  rfl

theorem linked_of_restore {s : Snapshot} (h : restore s = .ok c) : c.Linked := by
  simp only [restore] at h
  split at h
  · obtain ⟨u, hlinks, hc⟩ := bind_eq_ok.mp h
    obtain rfl : ofSnapshot s = c := by simpa [pure_eq_ok] using hc
    exact checkLinks_eq_ok.mp hlinks
  · cases h

end Controller

end Statechart
