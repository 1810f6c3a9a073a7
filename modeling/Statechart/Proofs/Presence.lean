import Statechart.Proofs.Actions

/-! The node or edge that an authoring step has made or changed is there afterwards, so that it can
be asked for. This needs no bound on their number: a handle that is too small for its index still
names one of those there are. -/

namespace Statechart

namespace Controller

variable {c d : Controller}

theorem exists_node_iff {h : NodeHandle} :
    (∃ n, c.node h = .ok n) ↔ h.index < c.nodes.length := by
  simp only [node_eq_ok, List.getElem?_eq_some_iff]
  exact ⟨fun ⟨_, hlt, _⟩ => hlt, fun hlt => ⟨_, hlt, rfl⟩⟩

theorem exists_edge_iff {e : EdgeHandle} :
    (∃ x, c.edge e = .ok x) ↔ e.index < c.edges.length := by
  simp only [edge_eq_ok, List.getElem?_eq_some_iff]
  exact ⟨fun ⟨_, hlt, _⟩ => hlt, fun hlt => ⟨_, hlt, rfl⟩⟩

theorem Builds.exists_node (hb : c.Builds d) {h : NodeHandle} (hn : ∃ n, c.node h = .ok n) :
    ∃ n, d.node h = .ok n :=
  exists_node_iff.mpr (Nat.lt_of_lt_of_le (exists_node_iff.mp hn) hb.length_nodes_le)

theorem exists_position {h : NodeHandle} (hn : ∃ n, c.node h = .ok n) :
    ∃ place, c.position h = .ok place := by
  obtain ⟨n, hn⟩ := hn
  exact ⟨n.position, by rw [position, hn]; rfl⟩

/-- The handle of the next node names one of those there are then, also where it is too small to
tell its place. -/
theorem exists_node_nextNode (hlt : c.nodes.length < d.nodes.length) :
    ∃ n, d.node c.nextNode = .ok n := by
  have hle : c.nextNode.index ≤ c.nodes.length := Nat.mod_le ..
  exact exists_node_iff.mpr (by omega)

theorem exists_edge_nextEdge (hlt : c.edges.length < d.edges.length) :
    ∃ x, d.edge c.nextEdge = .ok x := by
  have hle : c.nextEdge.index ≤ c.edges.length := Nat.mod_le ..
  exact exists_edge_iff.mpr (by omega)

theorem length_nodes_modifyMachine (h : MachineHandle) (f : Machine → Machine) :
    (c.modifyMachine h f).nodes.length = c.nodes.length := List.length_modify ..

theorem exists_node_of_addState {h : MachineHandle} {name : String} {place : Position}
    {s : StateHandle} (hd : c.addState h name place = .ok (d, s)) :
    ∃ n, d.node s.node = .ok n := by
  simp only [addState, bind_eq_ok, pure_eq_ok, Prod.mk.injEq] at hd
  obtain ⟨m, -, rfl, rfl⟩ := hd
  refine exists_node_nextNode ?_
  rw [length_nodes_modifyMachine, pushNode, List.length_append]
  exact Nat.lt_succ_self _

theorem exists_node_of_addMachine {h : MachineHandle} {name : String} {place : Position}
    {s : MachineHandle} (hd : c.addMachine h name place = .ok (d, s)) :
    ∃ n, d.node s.node = .ok n := by
  simp only [addMachine, bind_eq_ok, pure_eq_ok, Prod.mk.injEq] at hd
  obtain ⟨m, -, rfl, rfl⟩ := hd
  refine exists_node_nextNode ?_
  rw [length_nodes_modifyMachine, pushNode, List.length_append]
  exact Nat.lt_succ_self _

theorem exists_setPosition {h : NodeHandle} (hn : ∃ n, c.node h = .ok n) (place : Position) :
    ∃ d, c.setPosition h place = .ok d := by
  obtain ⟨n, hn⟩ := hn
  exact ⟨_, by rw [setPosition, hn]; rfl⟩

theorem exists_node_of_setPosition {h : NodeHandle} {place : Position}
    (hd : c.setPosition h place = .ok d) : ∃ n, d.node h = .ok n := by
  refine (builds_setPosition hd).exists_node ?_
  obtain ⟨n, hn, -⟩ := bind_eq_ok.mp hd
  exact ⟨n, hn⟩

theorem exists_node_of_newState {h : MachineHandle} {name : String} {s : StateHandle}
    (hd : c.newState h name = .ok (d, s)) : ∃ n, d.node s.node = .ok n := by
  simp only [newState, bind_eq_ok, pure_eq_ok, Prod.mk.injEq] at hd
  obtain ⟨_, -, ⟨added, t⟩, hadded, _, hmoved, rfl, rfl⟩ := hd
  exact exists_node_of_setPosition hmoved

theorem exists_node_of_newMachine {h : MachineHandle} {name : String} {s : MachineHandle}
    (hd : c.newMachine h name = .ok (d, s)) : ∃ n, d.node s.node = .ok n := by
  simp only [newMachine, bind_eq_ok, pure_eq_ok, Prod.mk.injEq] at hd
  obtain ⟨_, -, ⟨added, t⟩, hadded, _, hmoved, rfl, rfl⟩ := hd
  exact exists_node_of_setPosition hmoved

theorem exists_node_of_moveBeside {h other : NodeHandle} {direction : Direction}
    (hd : c.moveBeside h direction other = .ok d) : ∃ n, d.node h = .ok n := by
  simp only [moveBeside, bind_eq_ok] at hd
  obtain ⟨_, -, _, -, hd⟩ := hd
  exact exists_node_of_setPosition hd

theorem exists_node_of_placeAnchor {h : MachineHandle} {a : Anchor} {x y : Int32}
    (hd : c.placeAnchor h a x y = .ok d) : ∃ n, d.node h.node = .ok n := by
  refine (builds_placeAnchor hd).exists_node ?_
  obtain ⟨m, hm, -⟩ := bind_eq_ok.mp hd
  obtain ⟨n, hn, -⟩ := machine_eq_ok.mp hm
  exact ⟨n, node_eq_ok.mpr hn⟩

theorem exists_edge_of_appendCondition {e : EdgeHandle} {x : Condition}
    (hd : c.appendCondition e x = .ok d) : ∃ x, d.edge e = .ok x := by
  simp only [appendCondition, bind_eq_ok, pure_eq_ok] at hd
  obtain ⟨y, hy, rfl⟩ := hd
  rw [exists_edge_iff, edges_appendConditions, List.length_modify]
  exact exists_edge_iff.mp ⟨y, hy⟩

theorem exists_edge_of_moveAutomatically {source : StateHandle} {target : Endpoint}
    {e : EdgeHandle} (hd : c.moveAutomatically source target = .ok (d, e)) :
    ∃ x, d.edge e = .ok x := by
  simp only [moveAutomatically] at hd
  split at hd
  · cases hd
  · simp only [bind_eq_ok, pure_eq_ok, Prod.mk.injEq] at hd
    obtain ⟨⟨started, f, r⟩, hs, rfl, rfl⟩ := hd
    obtain ⟨m, -, rfl, rfl⟩ := start_eq_ok c f r hs
    refine exists_edge_nextEdge ?_
    simp

theorem exists_edge_of_cloneEdge {template e : EdgeHandle} {source target : Endpoint}
    (hd : c.cloneEdge template source target = .ok (d, e)) : ∃ x, d.edge e = .ok x := by
  simp only [cloneEdge, bind_eq_ok] at hd
  obtain ⟨x, -, r, -, hd⟩ := hd
  split at hd
  · obtain rfl : (c.fork template r).1 = d := congrArg Prod.fst (Except.ok.inj hd)
    obtain rfl : c.nextEdge = e := congrArg Prod.snd (Except.ok.inj hd)
    exact exists_edge_nextEdge (by simp)
  · cases hd

end Controller

end Statechart
