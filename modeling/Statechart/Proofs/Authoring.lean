import Mathlib.Logic.Relation
import Statechart.Action
import Statechart.Proofs.Topology

/-! The changes that authoring steps are made of. They keep what is there, and keep it linked as
long as handles can name every node. A machine that they have entered by another state is the owner
of that state, and an edge that they add is stored on the owner of its source. -/

namespace Statechart

namespace Controller

/-- A step that keeps what is there, and whose results are linked if what it began with is. What is
new in it is an entry by an own state, or an edge that is drawn on the owner of its source. -/
structure Sound (c d : Controller) : Prop where
  keeps : c.Keeps d
  entered : d.nodes.length < 2 ^ 32 → ∀ (i : Nat) (n' : Node) (s : StateHandle),
    d.nodes[i]? = some n' → n'.initial? = some s →
    (∃ n, c.nodes[i]? = some n ∧ n.initial? = some s) ∨ d.ownerOfState s = .ok ⟨.ofIndex i⟩
  drawn : d.nodes.length < 2 ^ 32 → c.Linked → ∀ x ∈ d.edges,
    (∃ y ∈ c.edges, x.machine = y.machine ∧ x.route = y.route) ∨ d.EdgeDrawn x
  linked : d.nodes.length < 2 ^ 32 → c.Linked → d.Linked

namespace Sound

variable {a b c d : Controller}

theorem refl (c : Controller) : c.Sound c where
  keeps := .refl c
  entered _ _ n _ hn hs := .inl ⟨n, hn, hs⟩
  drawn _ _ x hx := .inl ⟨x, hx, rfl, rfl⟩
  linked _ h := h

theorem trans (first : a.Sound b) (second : b.Sound c) : a.Sound c where
  keeps := first.keeps.trans second.keeps
  entered hb i n s hn hs := by
    have hle := second.keeps.length_nodes_le
    rcases second.entered hb i n s hn hs with ⟨n', hn', hs'⟩ | howner
    · rcases first.entered (by omega) i n' s hn' hs' with hold | howner
      · exact .inl hold
      · exact .inr (second.keeps.ownerOfState howner)
    · exact .inr howner
  drawn hb h x hx := by
    have hle := second.keeps.length_nodes_le
    rcases second.drawn hb (first.linked (by omega) h) x hx with ⟨y, hy, hm, hr⟩ | hnew
    · rcases first.drawn (by omega) h y hy with ⟨z, hz, hm', hr'⟩ | hnew
      · exact .inl ⟨z, hz, hm.trans hm', hr.trans hr'⟩
      · exact .inr ((hnew.keep second.keeps).of_eq hm hr)
    · exact .inr hnew
  linked hb h := by
    have hle := second.keeps.length_nodes_le
    exact second.linked hb (first.linked (by omega) h)

end Sound

variable {c : Controller}

theorem sound_of_eq {d : Controller} (hid : d.id = c.id) (hl : d.layers = c.layers)
    (hn : d.nodes = c.nodes) (he : d.edges = c.edges) (hp : c.parameters <+: d.parameters) :
    c.Sound d := by
  have hkeeps : c.Keeps d :=
    ⟨hid, hl ▸ List.prefix_rfl, hp, fun i n hi => ⟨n, by rw [hn, hi], .refl n⟩,
      fun i x hi => ⟨x, by rw [he, hi], .refl x⟩⟩
  refine ⟨hkeeps, fun _ i n s hi hs => .inl ⟨n, hn ▸ hi, hs⟩,
    fun _ _ x hx => .inl ⟨x, he ▸ hx, rfl, rfl⟩, fun _ h => ?_⟩
  exact h.of_nodes_eq hl hn fun x hx => ⟨x, h.edges x (he ▸ hx), rfl, rfl⟩

/-- A change of the node `h` that leaves its place in the tree alone, and only has it entered by
another state if it owns that state. -/
structure Relabels (c : Controller) (h : NodeHandle) (n n' : Node) : Prop where
  name : n'.name = n.name
  parent : n'.parent = n.parent
  isState : n'.isState = n.isState
  children : n'.children = n.children
  entry : ∀ s, n'.initial? = some s → n.initial? = some s ∨ c.ownerOfState s = .ok ⟨h⟩

theorem Relabels.refl (h : NodeHandle) (n : Node) : c.Relabels h n n :=
  ⟨rfl, rfl, rfl, rfl, fun _ hs => .inl hs⟩

theorem Relabels.continues {h : NodeHandle} {n n' : Node} (hr : c.Relabels h n n') :
    n.Continues n' :=
  ⟨hr.name, hr.parent, hr.isState, hr.children ▸ List.prefix_rfl⟩

theorem getElem?_modifyNode {h : NodeHandle} {f : Node → Node} {i : Nat} {n' : Node} :
    (c.modifyNode h f).nodes[i]? = some n' ↔
      ∃ n, c.nodes[i]? = some n ∧ n' = if h.index = i then f n else n := by
  simp only [modifyNode, List.getElem?_modify, Option.map_eq_map, Option.map_eq_some_iff,
    eq_comm (b := n')]

theorem sound_modifyNode {h : NodeHandle} {f : Node → Node}
    (hf : ∀ n, c.nodes[h.index]? = some n → c.Relabels h n (f n)) : c.Sound (c.modifyNode h f) := by
  have hrelabels (i : Nat) (n : Node) (hn : c.nodes[i]? = some n) :
      c.Relabels (.ofIndex i) n (if h.index = i then f n else n) := by
    split
    · rename_i hi
      subst hi
      rw [NodeHandle.ofIndex_index]
      exact hf n hn
    · exact .refl _ n
  have hkeeps : c.Keeps (c.modifyNode h f) :=
    ⟨rfl, List.prefix_rfl, List.prefix_rfl,
      fun i n hn => ⟨_, getElem?_modifyNode.mpr ⟨n, hn, rfl⟩, (hrelabels i n hn).continues⟩,
      fun i x hx => ⟨x, hx, .refl x⟩⟩
  have hentered (i : Nat) (n' : Node) (s : StateHandle)
      (hn' : (c.modifyNode h f).nodes[i]? = some n') (hs : n'.initial? = some s) :
      (∃ n, c.nodes[i]? = some n ∧ n.initial? = some s) ∨
        (c.modifyNode h f).ownerOfState s = .ok ⟨.ofIndex i⟩ := by
    obtain ⟨n, hn, rfl⟩ := getElem?_modifyNode.mp hn'
    rcases (hrelabels i n hn).entry s hs with hold | hp
    · exact .inl ⟨n, hn, hold⟩
    · exact .inr (hkeeps.ownerOfState hp)
  have hedges (x : Edge) (hx : x ∈ (c.modifyNode h f).edges) :
      ∃ y ∈ c.edges, x.machine = y.machine ∧ x.route = y.route := ⟨x, hx, rfl, rfl⟩
  refine ⟨hkeeps, fun _ => hentered, fun _ _ x hx => .inl (hedges x hx), fun _ hlinked =>
    hlinked.grow hkeeps ?_ ?_ ?_ (fun i n' s hn' hs => (hentered i n' s hn' hs).imp_right ?_)
      fun x hx => .inl (hedges x hx)⟩
  · exact fun l hl => .inl hl
  · intro i n' p hn' _
    obtain ⟨n, hn, -⟩ := getElem?_modifyNode.mp hn'
    exact .inl ⟨n, hn⟩
  · intro i n' child hn' hchild
    obtain ⟨n, hn, rfl⟩ := getElem?_modifyNode.mp hn'
    exact .inl ⟨n, hn, (hrelabels i n hn).children ▸ hchild⟩
  · exact fun hp => ⟨_, hp⟩

def onMachine (g : Machine → Machine) (n : Node) : Node :=
  match n.kind with
  | .machine m => { n with kind := .machine (g m) }
  | .state _ => n

section OnMachine

variable {g : Machine → Machine} {n : Node} {m : Machine}

theorem onMachine_of_state {x : StateSettings} (hk : n.kind = .state x) : onMachine g n = n := by
  simp [onMachine, hk]

theorem onMachine_of_machine (hk : n.kind = .machine m) :
    onMachine g n = { n with kind := .machine (g m) } := by
  simp [onMachine, hk]

theorem children_onMachine (hk : n.kind = .machine m) :
    (onMachine g n).children = (g m).children := by
  rw [onMachine_of_machine hk]
  rfl

theorem initial?_onMachine (hk : n.kind = .machine m) :
    (onMachine g n).initial? = (g m).defaultState := by
  rw [onMachine_of_machine hk]
  rfl

theorem isState_onMachine : (onMachine g n).isState = n.isState := by
  cases hk : n.kind with
  | state x => rw [onMachine_of_state hk]
  | machine m => simp [onMachine_of_machine hk, Node.isState, hk, NodeKind.settings?]

theorem name_onMachine : (onMachine g n).name = n.name := by
  unfold onMachine
  split <;> rfl

theorem parent_onMachine : (onMachine g n).parent = n.parent := by
  unfold onMachine
  split <;> rfl

theorem relabels_onMachine {h : NodeHandle}
    (hchildren : ∀ m, n.kind = .machine m → (g m).children = m.children)
    (hentry : ∀ m, n.kind = .machine m → ∀ s, (g m).defaultState = some s →
      m.defaultState = some s ∨ c.ownerOfState s = .ok ⟨h⟩) :
    c.Relabels h n (onMachine g n) := by
  refine ⟨name_onMachine, parent_onMachine, isState_onMachine, ?_, ?_⟩
  · cases hk : n.kind with
    | state x => rw [onMachine_of_state hk]
    | machine m => rw [children_onMachine hk, Node.children_of_machine hk, hchildren m hk]
  · cases hk : n.kind with
    | state x =>
      rw [onMachine_of_state hk]
      exact fun s hs => .inl hs
    | machine m =>
      rw [initial?_onMachine hk, Node.initial?_of_machine hk]
      exact hentry m hk

theorem continues_onMachine (hchildren : ∀ m, m.children <+: (g m).children) :
    n.Continues (onMachine g n) := by
  refine ⟨name_onMachine, parent_onMachine, isState_onMachine, ?_⟩
  cases hk : n.kind with
  | state x => simpa only [onMachine_of_state hk] using List.prefix_rfl
  | machine m => rw [children_onMachine hk, Node.children_of_machine hk]; exact hchildren m

end OnMachine

theorem getElem?_pushNode {x : Node} {i : Nat} {n : Node} :
    (c.pushNode x).nodes[i]? = some n ↔
      c.nodes[i]? = some n ∨ i = c.nodes.length ∧ n = x :=
  getElem?_concat_eq_some

theorem machine_pushNode {m : MachineHandle} {x : Machine} (hx : c.machine m = .ok x) (n : Node) :
    (c.pushNode n).machine m = .ok x := by
  obtain ⟨k, hk, hkind⟩ := machine_eq_ok.mp hx
  exact machine_eq_ok.mpr ⟨k, getElem?_pushNode.mpr (.inl hk), hkind⟩

theorem keeps_pushNode (x : Node) : c.Keeps (c.pushNode x) where
  id_eq := rfl
  layers := List.prefix_rfl
  parameters := List.prefix_rfl
  nodes _ n hn := ⟨n, getElem?_pushNode.mpr (.inl hn), .refl n⟩
  edges _ x hx := ⟨x, hx, .refl x⟩

theorem sound_addLayer (name : String) : c.Sound (c.addLayer name).1 := by
  let root : Node := ⟨name, none, .origin, .machine c.newMachineData⟩
  have hcases (i : Nat) (n : Node) (hn : (c.addLayer name).1.nodes[i]? = some n) :
      c.nodes[i]? = some n ∨ i = c.nodes.length ∧ n = root := getElem?_pushNode.mp hn
  have hkeeps : c.Keeps (c.addLayer name).1 :=
    ⟨rfl, List.prefix_append .., List.prefix_rfl, (keeps_pushNode (c := c) root).nodes,
      (keeps_pushNode (c := c) root).edges⟩
  have hentered (i : Nat) (n : Node) (s : StateHandle)
      (hn : (c.addLayer name).1.nodes[i]? = some n) (hs : n.initial? = some s) :
      ∃ n, c.nodes[i]? = some n ∧ n.initial? = some s := by
    rcases hcases i n hn with hold | ⟨-, rfl⟩
    · exact ⟨n, hold, hs⟩
    · cases hs
  refine ⟨hkeeps, fun _ i n s hn hs => .inl (hentered i n s hn hs),
    fun _ _ x hx => .inl ⟨x, hx, rfl, rfl⟩, fun hb h => h.grow hkeeps ?_ ?_ ?_
      (fun i n s hn hs => .inl (hentered i n s hn hs)) fun x hx => .inl ⟨x, hx, rfl, rfl⟩⟩
  · intro l hl
    rcases List.mem_append.mp hl with hl | hl
    · exact .inl hl
    · have hindex : c.nextNode.index = c.nodes.length := by
        refine NodeHandle.index_ofIndex ?_
        simp only [addLayer, pushNode, List.length_append, List.length_singleton] at hb
        omega
      refine .inr ⟨c.newMachineData, machine_eq_ok.mpr ⟨root, ?_, rfl⟩⟩
      rw [List.mem_singleton.mp hl]
      exact getElem?_pushNode.mpr (.inr ⟨hindex, rfl⟩)
  · intro i n p hn hparent
    rcases hcases i n hn with hold | ⟨-, rfl⟩
    · exact .inl ⟨n, hold⟩
    · cases hparent
  · intro i n child hn hchild
    rcases hcases i n hn with hold | ⟨-, rfl⟩
    · exact .inl ⟨n, hold, hchild⟩
    · simp [root, newMachineData, Node.children, NodeKind.machine?] at hchild

/-- A machine gets a further child, a new node without children, which it may also be entered by
if that is a state. -/
structure Adopts (c : Controller) (h : MachineHandle) (x : Node) (g : Machine → Machine) :
    Prop where
  machine : ∃ m, c.machine h = .ok m
  parent : x.parent = some h
  childless : x.children = []
  unentered : x.initial? = none
  listed : ∀ m, (g m).children = m.children ++ [c.nextNode]
  entry : ∀ m s, (g m).defaultState = some s →
    m.defaultState = some s ∨ x.isState = true ∧ s = ⟨c.nextNode⟩

namespace Adopts

variable {h : MachineHandle} {x n : Node} {g : Machine → Machine} {i : Nat} {s : StateHandle}

theorem exists_node (ha : c.Adopts h x g) :
    ∃ n m, c.nodes[h.index]? = some n ∧ n.kind = .machine m := by
  obtain ⟨m, hm⟩ := ha.machine
  obtain ⟨n, hn, hk⟩ := machine_eq_ok.mp hm
  exact ⟨n, m, hn, hk⟩

theorem lt (ha : c.Adopts h x g) : h.index < c.nodes.length := by
  obtain ⟨n, m, hn, -⟩ := ha.exists_node
  exact (List.getElem?_eq_some_iff.mp hn).1

theorem getElem?_of_getElem? (hn : c.nodes[i]? = some n) :
    ((c.pushNode x).modifyMachine h g).nodes[i]? =
      some (if h.index = i then onMachine g n else n) :=
  getElem?_modifyNode.mpr ⟨n, getElem?_pushNode.mpr (.inl hn), rfl⟩

theorem getElem?_cases (ha : c.Adopts h x g)
    (hn : ((c.pushNode x).modifyMachine h g).nodes[i]? = some n) :
    (∃ k, c.nodes[i]? = some k ∧ n = if h.index = i then onMachine g k else k) ∨
      i = c.nodes.length ∧ n = x := by
  obtain ⟨k, hk, rfl⟩ := getElem?_modifyNode.mp hn
  rcases getElem?_pushNode.mp hk with hk | ⟨rfl, rfl⟩
  · exact .inl ⟨k, hk, rfl⟩
  · exact .inr ⟨rfl, if_neg (by exact Nat.ne_of_lt ha.lt)⟩

/-- The handle of the new node is its index only as long as it does not wrap. -/
theorem getElem?_nextNode (ha : c.Adopts h x g)
    (hb : ((c.pushNode x).modifyMachine h g).nodes.length < 2 ^ 32) :
    ((c.pushNode x).modifyMachine h g).nodes[c.nextNode.index]? = some x := by
  have hlen : ((c.pushNode x).modifyMachine h g).nodes.length = c.nodes.length + 1 := by
    simp [modifyMachine, modifyNode, pushNode]
  have hindex : c.nextNode.index = c.nodes.length := NodeHandle.index_ofIndex (by omega)
  refine getElem?_modifyNode.mpr ⟨x, getElem?_pushNode.mpr (.inr ⟨hindex, rfl⟩), ?_⟩
  rw [if_neg]
  rw [hindex]
  exact Nat.ne_of_lt ha.lt

theorem keeps (ha : c.Adopts h x g) : c.Keeps ((c.pushNode x).modifyMachine h g) := by
  refine ⟨rfl, List.prefix_rfl, List.prefix_rfl,
    fun i n hn => ⟨_, getElem?_of_getElem? hn, ?_⟩, fun i x hx => ⟨x, hx, .refl x⟩⟩
  split
  · exact continues_onMachine fun m => ha.listed m ▸ List.prefix_append ..
  · exact .refl n

/-- What a machine is entered by was so before, or is the new node, which it owns. -/
theorem entered (ha : c.Adopts h x g)
    (hb : ((c.pushNode x).modifyMachine h g).nodes.length < 2 ^ 32)
    (hn : ((c.pushNode x).modifyMachine h g).nodes[i]? = some n) (hs : n.initial? = some s) :
    (∃ k, c.nodes[i]? = some k ∧ k.initial? = some s) ∨
      ((c.pushNode x).modifyMachine h g).ownerOfState s = .ok ⟨.ofIndex i⟩ := by
  rcases ha.getElem?_cases hn with ⟨k, hk, rfl⟩ | ⟨rfl, rfl⟩
  · by_cases hi : h.index = i
    · subst hi
      obtain ⟨q, m, hq, hkind⟩ := ha.exists_node
      obtain rfl := Option.some.inj (hq.symm.trans hk)
      rw [if_pos rfl, initial?_onMachine hkind] at hs
      rcases ha.entry m s hs with hs | ⟨hstate, rfl⟩
      · exact .inl ⟨q, hk, by rwa [Node.initial?_of_machine hkind]⟩
      · rw [MachineHandle.index, NodeHandle.ofIndex_index]
        exact .inr (ownerOfState_eq_ok.mpr ⟨x, ha.getElem?_nextNode hb, hstate, ha.parent⟩)
    · exact .inl ⟨k, hk, by rwa [if_neg hi] at hs⟩
  · simp [ha.unentered] at hs

/-- A node was there before, or its parent lists it. -/
theorem listed_of_parent (ha : c.Adopts h x g) {p : MachineHandle}
    (hn : ((c.pushNode x).modifyMachine h g).nodes[i]? = some n) (hp : n.parent = some p) :
    (∃ k, c.nodes[i]? = some k) ∨
      ∃ q, ((c.pushNode x).modifyMachine h g).nodes[p.index]? = some q ∧
        .ofIndex i ∈ q.children := by
  rcases ha.getElem?_cases hn with ⟨k, hk, -⟩ | ⟨rfl, rfl⟩
  · exact .inl ⟨k, hk⟩
  · obtain rfl : h = p := Option.some.inj (ha.parent.symm.trans hp)
    obtain ⟨q, m, hq, hkind⟩ := ha.exists_node
    refine .inr ⟨_, getElem?_of_getElem? hq, ?_⟩
    rw [if_pos rfl, children_onMachine hkind, ha.listed]
    exact List.mem_append_right _ (List.mem_singleton_self _)

/-- A child was listed before, or it is the new node. -/
theorem parent_of_mem_children (ha : c.Adopts h x g)
    (hb : ((c.pushNode x).modifyMachine h g).nodes.length < 2 ^ 32) {child : NodeHandle}
    (hn : ((c.pushNode x).modifyMachine h g).nodes[i]? = some n) (hmem : child ∈ n.children) :
    (∃ k, c.nodes[i]? = some k ∧ child ∈ k.children) ∨
      ∃ k, ((c.pushNode x).modifyMachine h g).nodes[child.index]? = some k ∧
        k.parent = some ⟨.ofIndex i⟩ := by
  rcases ha.getElem?_cases hn with ⟨k, hk, rfl⟩ | ⟨rfl, rfl⟩
  · by_cases hi : h.index = i
    · subst hi
      obtain ⟨q, m, hq, hkind⟩ := ha.exists_node
      obtain rfl := Option.some.inj (hq.symm.trans hk)
      rw [if_pos rfl, children_onMachine hkind, ha.listed, ← Node.children_of_machine hkind] at hmem
      rcases List.mem_append.mp hmem with hmem | hmem
      · exact .inl ⟨q, hk, hmem⟩
      · refine .inr ⟨x, List.mem_singleton.mp hmem ▸ ha.getElem?_nextNode hb, ?_⟩
        rw [ha.parent, MachineHandle.index, NodeHandle.ofIndex_index]
    · exact .inl ⟨k, hk, by rwa [if_neg hi] at hmem⟩
  · simp [ha.childless] at hmem

end Adopts

theorem sound_adopt {h : MachineHandle} {x : Node} {g : Machine → Machine}
    (ha : c.Adopts h x g) : c.Sound ((c.pushNode x).modifyMachine h g) where
  keeps := ha.keeps
  entered hb _ _ _ hn hs := ha.entered hb hn hs
  drawn _ _ x hx := .inl ⟨x, hx, rfl, rfl⟩
  linked hb hl :=
    hl.grow ha.keeps (fun _ hmem => .inl hmem) (fun _ _ _ => ha.listed_of_parent)
      (fun _ _ _ => ha.parent_of_mem_children hb)
      (fun _ _ _ hn hs => (ha.entered hb hn hs).imp_right fun howner => ⟨_, howner⟩)
      fun x hx => .inl ⟨x, hx, rfl, rfl⟩

theorem sound_appendEdges {new : List Edge}
    (h : c.Linked → ∀ x ∈ new,
      (∃ y ∈ c.edges, x.machine = y.machine ∧ x.route = y.route) ∨ c.EdgeDrawn x) :
    c.Sound (c.withEdges (c.edges ++ new)) := by
  have hkeeps : c.Keeps (c.withEdges (c.edges ++ new)) := by
    refine ⟨rfl, List.prefix_rfl, List.prefix_rfl, fun i n hn => ⟨n, hn, .refl n⟩, fun i x hx =>
      ⟨x, ?_, .refl x⟩⟩
    have hlt := (List.getElem?_eq_some_iff.mp hx).1
    rw [edges_withEdges, List.getElem?_append_left hlt, hx]
  have hedges (hlinked : c.Linked) (x : Edge) (hx : x ∈ c.edges ++ new) :
      (∃ y ∈ c.edges, x.machine = y.machine ∧ x.route = y.route) ∨ c.EdgeDrawn x := by
    rcases List.mem_append.mp hx with hx | hx
    · exact .inl ⟨x, hx, rfl, rfl⟩
    · exact h hlinked x hx
  refine ⟨hkeeps, fun _ i n s hn hs => .inl ⟨n, hn, hs⟩,
    fun _ hlinked x hx => (hedges hlinked x hx).imp_right (·.keep hkeeps), fun _ hlinked => ?_⟩
  refine hlinked.of_nodes_eq rfl rfl fun x hx => ?_
  rcases hedges hlinked x hx with ⟨y, hy, hm, hr⟩ | hnew
  · exact ⟨y, hlinked.edges y hy, hm, hr⟩
  · exact ⟨x, hnew.linked, rfl, rfl⟩

theorem sound_appendConditions (e : EdgeHandle) (cs : List Condition) :
    c.Sound (c.appendConditions e cs) := by
  have hkeeps : c.Keeps (c.appendConditions e cs) := by
    refine ⟨rfl, List.prefix_rfl, List.prefix_rfl, fun i n hn => ⟨n, hn, .refl n⟩,
      fun i x hx => ?_⟩
    rw [edges_appendConditions, List.getElem?_modify, hx]
    refine ⟨_, rfl, ?_⟩
    split
    · exact ⟨rfl, rfl, rfl, List.prefix_append ..⟩
    · exact .refl x
  have hedges (x : Edge) (hx : x ∈ (c.appendConditions e cs).edges) :
      ∃ y ∈ c.edges, x.machine = y.machine ∧ x.route = y.route := by
    obtain ⟨i, hi⟩ := List.getElem?_of_mem hx
    rw [edges_appendConditions, List.getElem?_modify] at hi
    obtain ⟨y, hy, rfl⟩ := Option.map_eq_some_iff.mp hi
    refine ⟨y, List.mem_of_getElem? hy, ?_⟩
    split <;> exact ⟨rfl, rfl⟩
  refine ⟨hkeeps, fun _ i n s hn hs => .inl ⟨n, hn, hs⟩, fun _ _ x hx => .inl (hedges x hx),
    fun _ hlinked => hlinked.of_nodes_eq rfl rfl fun x hx => ?_⟩
  obtain ⟨y, hy, hm, hr⟩ := hedges x hx
  exact ⟨y, hlinked.edges y hy, hm, hr⟩

/-- An edge as authoring makes it: it has settings exactly if it is timed, and is planned for an
opening or lies along an edge that is there. -/
structure Drafted (c : Controller) (x : Edge) : Prop where
  settled : x.Settled
  origin : (∃ o, c.plan o = .ok (x.machine, x.route)) ∨
    ∃ y ∈ c.edges, x.machine = y.machine ∧ x.route = y.route

/-- What an authoring step changes at a time. New edges are told apart from those that are there
only as long as handles can name them all. -/
inductive Change (c : Controller) : Controller → Prop
  | aside {d : Controller} (hid : d.id = c.id) (hl : d.layers = c.layers) (hn : d.nodes = c.nodes)
      (he : d.edges = c.edges) (hp : c.parameters <+: d.parameters) : Change c d
  | relabel {h : NodeHandle} {f : Node → Node}
      (hf : ∀ n, c.nodes[h.index]? = some n → c.Relabels h n (f n)) : Change c (c.modifyNode h f)
  | layer (name : String) : Change c (c.addLayer name).1
  | adopt {h : MachineHandle} {x : Node} {g : Machine → Machine} (ha : c.Adopts h x g) :
      Change c ((c.pushNode x).modifyMachine h g)
  | extend {es : List Edge} (hes : es.length < 2 ^ 32 →
      ∃ new, es = c.edges ++ new ∧ ∀ x ∈ new, c.Drafted x) : Change c (c.withEdges es)
  | guard (e : EdgeHandle) (cs : List Condition) : Change c (c.appendConditions e cs)

abbrev Builds : Controller → Controller → Prop := Relation.ReflTransGen Change

variable {d : Controller}

theorem Change.sound (h : c.Change d) (hb : d.edges.length < 2 ^ 32) : c.Sound d := by
  cases h with
  | aside hid hl hn he hp => exact sound_of_eq hid hl hn he hp
  | relabel hf => exact sound_modifyNode hf
  | layer name => exact sound_addLayer name
  | adopt ha => exact sound_adopt ha
  | guard e cs => exact sound_appendConditions e cs
  | extend hes =>
    obtain ⟨new, rfl, hnew⟩ := hes hb
    refine sound_appendEdges fun hlinked x hx => ?_
    rcases (hnew x hx).origin with ⟨o, hplan⟩ | hold
    · exact .inr (edgeDrawn_of_plan hlinked hplan rfl rfl)
    · exact .inl hold

theorem Change.length_nodes_le (h : c.Change d) : c.nodes.length ≤ d.nodes.length := by
  cases h with
  | aside hid hl hn he hp => exact Nat.le_of_eq (by rw [hn])
  | relabel hf => exact Nat.le_of_eq (List.length_modify ..).symm
  | layer name =>
    rw [addLayer, pushNode, List.length_append]
    exact Nat.le_add_right ..
  | adopt ha =>
    rw [modifyMachine, modifyNode, List.length_modify, pushNode, List.length_append]
    exact Nat.le_add_right ..
  | extend hes | guard e cs => exact Nat.le_refl _

theorem Builds.length_nodes_le (h : c.Builds d) : c.nodes.length ≤ d.nodes.length := by
  induction h with
  | refl => exact Nat.le_refl _
  | tail _ hlast ih => exact Nat.le_trans ih hlast.length_nodes_le

theorem Builds.sound (h : c.Builds d) (hb : d.edges.length < 2 ^ 32) : c.Sound d := by
  induction h with
  | refl => exact .refl c
  | tail _ hlast ih =>
    have hsound := hlast.sound hb
    have hle := hsound.keeps.length_edges_le
    exact (ih (by omega)).trans hsound

end Controller

end Statechart
