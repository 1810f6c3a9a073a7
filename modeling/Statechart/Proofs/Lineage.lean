import Statechart.Proofs.Ownership
import Statechart.Proofs.Tree

/-! Who owns whom in an authored controller. Its nodes are a forest with the machines of the layers
for its roots, and every node is older than those below it. -/

namespace Statechart

namespace Controller

variable {c d : Controller}

def tree (c : Controller) : Tree := ⟨c.layers.map (·.machine), c.nodes.map (·.spot)⟩

theorem next_tree : c.tree.next = c.nextNode := by
  rw [Tree.next, tree, List.length_map]
  rfl

theorem getElem?_tree {i : Nat} {n : Node} (hn : c.nodes[i]? = some n) :
    c.tree.spots[i]? = some n.spot := by
  rw [tree, List.getElem?_map, hn, Option.map_some]

theorem getElem?_tree_eq_some {i : Nat} {s : Spot} :
    c.tree.spots[i]? = some s ↔ ∃ n, c.nodes[i]? = some n ∧ n.spot = s := by
  rw [tree, List.getElem?_map, Option.map_eq_some_iff]

theorem Relabels.spot {h : NodeHandle} {n n' : Node} (hr : c.Relabels h n n') :
    n'.spot = n.spot := by
  rw [Node.spot, Node.spot, hr.parent, hr.isState, hr.children]

theorem tree_modifyNode {h : NodeHandle} {f : Node → Node}
    (hf : ∀ n, c.nodes[h.index]? = some n → (f n).spot = n.spot) :
    (c.modifyNode h f).tree = c.tree :=
  congrArg (Tree.mk _) ((map_modify (k := fun s => s) hf).trans (List.modify_id ..))

theorem tree_addLayer (name : String) : (c.addLayer name).1.tree = c.tree.plant := by
  simp only [tree, addLayer, pushNode, Tree.plant, List.map_append, Tree.next, List.length_map]
  rfl

theorem tree_adopt {h : MachineHandle} {x : Node} {g : Machine → Machine} (ha : c.Adopts h x g) :
    ((c.pushNode x).modifyMachine h g).tree = c.tree.adopt h x.isState := by
  obtain ⟨n, m, hn, hk⟩ := ha.exists_node
  have hx : x.spot = ⟨some h, x.isState, []⟩ := by rw [Node.spot, ha.parent, ha.childless]
  let f (s : Spot) : Spot := { s with children := s.children ++ [c.tree.next] }
  have hspot (k : Node) (hk' : (c.nodes ++ [x])[h.index]? = some k) :
      (onMachine g k).spot = f k.spot := by
    rw [List.getElem?_append_left ha.lt, hn] at hk'
    obtain rfl := Option.some.inj hk'
    rw [Node.spot, parent_onMachine, isState_onMachine, children_onMachine hk, ha.listed,
      ← Node.children_of_machine hk, ← next_tree]
    rfl
  refine congrArg (Tree.mk _) ((map_modify (f := onMachine g) (k := f) hspot).trans ?_)
  rw [List.map_append, List.map_singleton, hx]
  rfl

theorem Change.grows (h : c.Change d) : c.tree.Grows d.tree := by
  cases h with
  | aside hid hl hn he hp =>
    have htree : d.tree = c.tree := by rw [tree, tree, hl, hn]
    exact htree ▸ .same
  | relabel hf =>
    rw [tree_modifyNode fun n hn => (hf n hn).spot]
    exact .same
  | layer name =>
    rw [tree_addLayer]
    exact .plant
  | adopt ha =>
    obtain ⟨n, m, hn, hk⟩ := ha.exists_node
    rw [tree_adopt ha]
    exact .adopt (getElem?_tree hn) (Node.isState_eq_false.mpr ⟨m, hk⟩) _
  | extend hes | guard e cs => exact .same

theorem Builds.grows (h : c.Builds d) : Relation.ReflTransGen Tree.Grows c.tree d.tree :=
  h.lift tree fun _ _ => Change.grows

end Controller

/-- An operation builds on a controller or only changes its edges, whatever becomes of them. -/
theorem Operation.builds_or_withEdges (op : Operation) (c : Controller) :
    c.Builds (op.apply c) ∨ ∃ es, op.apply c = c.withEdges es := by
  cases op with
  | act a =>
    simp only [apply]
    split
    · rename_i d answer h
      exact .inl (Action.builds_perform h)
    · exact .inl .refl
  | change n kind f =>
    simp only [apply]
    split
    · rename_i d h
      exact .inl (Controller.builds_attach h)
    · exact .inl .refl
  | travel o chain tokens =>
    simp only [apply]
    split
    · rename_i started e route h
      obtain ⟨m, -, hstarted, -⟩ := Controller.start_eq_ok c e route h
      have hrest := (chain.follows_run route (.fresh e) ⟨started, tokens, [], []⟩).rest
      generalize (chain.run route (.fresh e) ⟨started, tokens, [], []⟩).controller = d at hrest ⊢
      exact .inr ⟨d.edges, congrArg (·.withEdges d.edges) (hrest.trans hstarted)⟩
    · exact .inl .refl

/-- Whatever becomes of its edges, an operation makes the tree grow. -/
theorem Operation.grows_apply (op : Operation) (c : Controller) :
    Relation.ReflTransGen Tree.Grows c.tree (op.apply c).tree := by
  rcases op.builds_or_withEdges c with h | ⟨es, h⟩
  · exact h.grows
  · rw [h]
    exact .refl

/-- What operations make of a new controller. -/
inductive Authored : Controller → Prop
  | new (id : Uuid) (name : String) (defaults : Defaults) : Authored (.new id name defaults)
  | operate {c : Controller} (h : Authored c) (op : Operation) : Authored (op.apply c)

theorem Authored.foldl {c : Controller} (h : Authored c) (ops : List Operation) :
    Authored (ops.foldl (fun c op => op.apply c) c) := by
  induction ops generalizing c with
  | nil => exact h
  | cons op ops ih => exact ih (h.operate op)

theorem Authored.grows {c : Controller} (h : Authored c) :
    Relation.ReflTransGen Tree.Grows .empty c.tree := by
  induction h with
  | new id name defaults => exact .refl
  | operate h op ih => exact ih.trans (op.grows_apply _)

namespace Controller

/-- The nodes are a forest, and handles grow from parents to children and along each list of
children. -/
structure Lineage (c : Controller) : Prop extends Forest c where
  machines : ∀ l ∈ c.layers, ∃ m, c.machine l.machine = .ok m
  named : ∀ (h : NodeHandle) (n : Node), c.nodes[h.index]? = some n → ∀ child ∈ n.children,
    ∃ k, c.nodes[child.index]? = some k ∧ k.parent = some ⟨h⟩
  older : ∀ (h : NodeHandle) (n : Node) (p : MachineHandle), c.nodes[h.index]? = some n →
    n.parent = some p → p.index < h.index ∧ ∃ m, c.machine p = .ok m
  sorted : ∀ (h : NodeHandle) (n : Node), c.nodes[h.index]? = some n →
    n.children.Pairwise (·.index < ·.index)
  above : ∀ (h g : NodeHandle) (k : Nat), c.ancestor? (k + 1) h = some g → g.index < h.index

end Controller

namespace Tree.Ordered

open Controller

variable {c : Controller} {g : NodeHandle} {n : Node}

theorem isRoot_iff (h : c.tree.Ordered) (hn : c.nodes[g.index]? = some n) :
    n.parent = none ↔ c.IsRoot g := by
  constructor
  · intro hp
    obtain ⟨l, hl, hroot⟩ := List.mem_map.mp (h.rooted _ _ (getElem?_tree hn) hp)
    exact ⟨l, hl, by rw [hroot, NodeHandle.ofIndex_index]⟩
  · rintro ⟨l, hl, rfl⟩
    obtain ⟨s, hs, -, hp⟩ := h.planted _ (List.mem_map_of_mem hl)
    obtain rfl := Option.some.inj ((getElem?_tree hn).symm.trans hs)
    exact hp

theorem exists_older (h : c.tree.Ordered) {p : MachineHandle} (hn : c.nodes[g.index]? = some n)
    (hp : n.parent = some p) : p.index < g.index ∧
      ∃ x, c.nodes[p.index]? = some x ∧ x.isState = false ∧ g ∈ x.children := by
  obtain ⟨hlt, q, hq, hmachine, hmem⟩ := h.owned _ _ p (getElem?_tree hn) hp
  obtain ⟨x, hx, rfl⟩ := getElem?_tree_eq_some.mp hq
  rw [NodeHandle.ofIndex_index] at hmem
  exact ⟨hlt, x, hx, hmachine, hmem⟩

theorem parent_of_mem_children (h : c.tree.Ordered) {child : NodeHandle}
    (hn : c.nodes[g.index]? = some n) (hmem : child ∈ n.children) :
    ∃ k, c.nodes[child.index]? = some k ∧ k.parent = some ⟨g⟩ := by
  obtain ⟨s, hs, hparent⟩ := h.named _ _ child (getElem?_tree hn) hmem
  obtain ⟨k, hk, rfl⟩ := getElem?_tree_eq_some.mp hs
  rw [NodeHandle.ofIndex_index] at hparent
  exact ⟨k, hk, hparent⟩

/-- The way up goes to older nodes, so that it ends at a root. -/
theorem exists_root (h : c.tree.Ordered) (hn : c.nodes[g.index]? = some n) :
    ∃ k root, c.ancestor? k g = some root ∧ c.IsRoot root := by
  induction hi : g.index using Nat.strong_induction_on generalizing g n with
  | _ i ih =>
    subst hi
    cases hp : n.parent with
    | none => exact ⟨0, g, rfl, (h.isRoot_iff hn).mp hp⟩
    | some p =>
      obtain ⟨hlt, x, hx, -⟩ := h.exists_older hn hp
      obtain ⟨k, root, hk, hroot⟩ := ih p.index hlt (g := p.node) hx rfl
      exact ⟨k + 1, root, by rwa [ancestor?, owner?_eq_some hn hp, Option.bind_some], hroot⟩

theorem owner_lt (h : c.tree.Ordered) {q : NodeHandle} (hq : c.owner? g = some q) :
    q.index < g.index := by
  obtain ⟨n, hn, hparent⟩ := Option.bind_eq_some_iff.mp hq
  obtain ⟨p, hp, rfl⟩ := Option.map_eq_some_iff.mp hparent
  exact (h.exists_older hn hp).1

theorem toForest (h : c.tree.Ordered) : c.Forest where
  distinct := h.distinct
  roots g n hn := h.isRoot_iff hn
  owned g n p hn hp := by
    obtain ⟨-, x, hx, -, hmem⟩ := h.exists_older hn hp
    have hnodup : x.children.Nodup := (h.sorted _ _ (getElem?_tree hx)).imp
      fun {a b} (hlt : a.index < b.index) heq => Nat.lt_irrefl _ (heq ▸ hlt)
    refine ⟨⟨x, hx, List.count_eq_one_of_mem hnodup hmem⟩, fun r y hy hmem => ?_⟩
    obtain ⟨k, hk, hparent⟩ := h.parent_of_mem_children hy hmem
    obtain rfl := Option.some.inj (hn.symm.trans hk)
    exact (congrArg (·.node) (Option.some.inj (hp.symm.trans hparent))).symm
  rooted g n hn := h.exists_root hn

theorem toLineage (h : c.tree.Ordered) : c.Lineage where
  toForest := h.toForest
  machines l hl := by
    obtain ⟨s, hs, hmachine, -⟩ := h.planted _ (List.mem_map_of_mem hl)
    obtain ⟨n, hn, rfl⟩ := getElem?_tree_eq_some.mp hs
    obtain ⟨m, hm⟩ := Node.isState_eq_false.mp hmachine
    exact ⟨m, machine_eq_ok.mpr ⟨n, hn, hm⟩⟩
  named g n hn child hmem := h.parent_of_mem_children hn hmem
  older g n p hn hp := by
    obtain ⟨hlt, x, hx, hmachine, -⟩ := h.exists_older hn hp
    obtain ⟨m, hm⟩ := Node.isState_eq_false.mp hmachine
    exact ⟨hlt, m, machine_eq_ok.mpr ⟨x, hx, hm⟩⟩
  sorted g n hn := h.sorted _ _ (getElem?_tree hn)
  above g r k hr := index_lt_of_ancestor? (fun _ _ => h.owner_lt) hr

end Tree.Ordered

namespace Authored

variable {c : Controller}

/-- The nodes of an authored controller are a forest in the order of their handles. -/
theorem lineage (h : Authored c) (hb : c.nodes.length < 2 ^ 32) : c.Lineage := by
  have hlen : c.tree.spots.length = c.nodes.length := List.length_map ..
  exact (Tree.ordered_of_grows h.grows (by omega)).toLineage

/-- A state behind a machine, one that is refused below that state, and a second layer. -/
theorem lineage_nested :
    let sub : MachineHandle := ⟨.ofIndex 1⟩
    let ops : List Operation := [.act (.newMachine Controller.bareRoot "Sub"),
      .act (.newState sub "A"), .act (.newState ⟨.ofIndex 2⟩ "lost"), .act (.addLayer "Second"),
      .act (.newStateAt Controller.bareRoot "B" 1 0)]
    let c := ops.foldl (fun c op => op.apply c) Controller.bare
    c.nodes.map (·.parent) =
      [none, some Controller.bareRoot, some sub, none, some Controller.bareRoot] ∧
      c.nodes.length < 2 ^ 32 ∧ c.Lineage := by
  intro sub ops c
  have hparents : c.nodes.map (·.parent) =
      [none, some Controller.bareRoot, some sub, none, some Controller.bareRoot] := rfl
  have hlen : c.nodes.length = 5 := rfl
  have hb : c.nodes.length < 2 ^ 32 := by omega
  have hbare : Authored Controller.bare := .operate (.new _ "" .standard) (.act (.addLayer ""))
  exact ⟨hparents, hb, (hbare.foldl ops).lineage hb⟩

end Authored

end Statechart
