import Statechart.Proofs.Links

/-! Growth of a controller: what was there stays there, with more behind it. A controller that grows
stays linked if what is new is linked. -/

namespace Statechart

/-- A node later on: it may have been moved and edited, and have got further children. -/
structure Node.Continues (n n' : Node) : Prop where
  name : n'.name = n.name
  parent : n'.parent = n.parent
  isState : n'.isState = n.isState
  children : n.children <+: n'.children

/-- An edge later on: it may have got further conditions. -/
structure Edge.Continues (x x' : Edge) : Prop where
  machine : x'.machine = x.machine
  route : x'.route = x.route
  settings : x'.settings = x.settings
  conditions : x.conditions <+: x'.conditions

theorem Node.Continues.refl (n : Node) : n.Continues n := ⟨rfl, rfl, rfl, List.prefix_rfl⟩

theorem Node.Continues.trans {a b c : Node} (first : a.Continues b) (second : b.Continues c) :
    a.Continues c where
  name := second.name.trans first.name
  parent := second.parent.trans first.parent
  isState := second.isState.trans first.isState
  children := first.children.trans second.children

theorem Edge.Continues.refl (x : Edge) : x.Continues x := ⟨rfl, rfl, rfl, List.prefix_rfl⟩

theorem Edge.Continues.trans {a b c : Edge} (first : a.Continues b) (second : b.Continues c) :
    a.Continues c where
  machine := second.machine.trans first.machine
  route := second.route.trans first.route
  settings := second.settings.trans first.settings
  conditions := first.conditions.trans second.conditions

namespace Controller

/-- What was in `c` is in `d` under the same handles. -/
structure Keeps (c d : Controller) : Prop where
  id_eq : d.id = c.id
  layers : c.layers <+: d.layers
  parameters : c.parameters <+: d.parameters
  nodes : ∀ (i : Nat) (n : Node), c.nodes[i]? = some n →
    ∃ n', d.nodes[i]? = some n' ∧ n.Continues n'
  edges : ∀ (i : Nat) (x : Edge), c.edges[i]? = some x →
    ∃ x', d.edges[i]? = some x' ∧ x.Continues x'

namespace Keeps

variable {a b c d : Controller}

theorem refl (c : Controller) : c.Keeps c where
  id_eq := rfl
  layers := List.prefix_rfl
  parameters := List.prefix_rfl
  nodes _ n hn := ⟨n, hn, .refl n⟩
  edges _ x hx := ⟨x, hx, .refl x⟩

theorem trans (first : a.Keeps b) (second : b.Keeps c) : a.Keeps c where
  id_eq := second.id_eq.trans first.id_eq
  layers := first.layers.trans second.layers
  parameters := first.parameters.trans second.parameters
  nodes i n hn := by
    obtain ⟨n', hn', hcont⟩ := first.nodes i n hn
    obtain ⟨n'', hn'', hcont'⟩ := second.nodes i n' hn'
    exact ⟨n'', hn'', hcont.trans hcont'⟩
  edges i x hx := by
    obtain ⟨x', hx', hcont⟩ := first.edges i x hx
    obtain ⟨x'', hx'', hcont'⟩ := second.edges i x' hx'
    exact ⟨x'', hx'', hcont.trans hcont'⟩

theorem length_nodes_le (h : c.Keeps d) : c.nodes.length ≤ d.nodes.length := by
  refine Nat.le_of_not_lt fun hlt => ?_
  obtain ⟨n', hn', -⟩ := h.nodes d.nodes.length _ (List.getElem?_eq_getElem (by omega))
  simp at hn'

theorem length_edges_le (h : c.Keeps d) : c.edges.length ≤ d.edges.length := by
  refine Nat.le_of_not_lt fun hlt => ?_
  obtain ⟨x', hx', -⟩ := h.edges d.edges.length _ (List.getElem?_eq_getElem (by omega))
  simp at hx'

theorem machine (h : c.Keeps d) {m : MachineHandle} (hm : ∃ x, c.machine m = .ok x) :
    ∃ x, d.machine m = .ok x := by
  obtain ⟨x, hx⟩ := hm
  obtain ⟨n, hn, hk⟩ := machine_eq_ok.mp hx
  obtain ⟨n', hn', hcont⟩ := h.nodes _ n hn
  have hstate : n'.isState = false := by
    rw [hcont.isState]
    exact Node.isState_eq_false.mpr ⟨x, hk⟩
  obtain ⟨y, hy⟩ := Node.isState_eq_false.mp hstate
  exact ⟨y, machine_eq_ok.mpr ⟨n', hn', hy⟩⟩

theorem ownerOfState (h : c.Keeps d) {s : StateHandle} {p : MachineHandle}
    (hs : c.ownerOfState s = .ok p) : d.ownerOfState s = .ok p := by
  obtain ⟨n, hn, hstate, hparent⟩ := ownerOfState_eq_ok.mp hs
  obtain ⟨n', hn', hcont⟩ := h.nodes _ n hn
  exact ownerOfState_eq_ok.mpr
    ⟨n', hn', hcont.isState.trans hstate, hcont.parent.trans hparent⟩

theorem checkEndpoint (h : c.Keeps d) {t : Endpoint} (ht : c.checkEndpoint t = .ok ()) :
    d.checkEndpoint t = .ok () := by
  obtain ⟨hstate, hmachine⟩ := checkEndpoint_eq_ok.mp ht
  refine checkEndpoint_eq_ok.mpr ⟨fun s hs => ?_, fun m hm => h.machine (hmachine m hm)⟩
  obtain ⟨p, hp⟩ := hstate s hs
  exact ⟨p, h.ownerOfState hp⟩

end Keeps

theorem hostOf_eq {c : Controller} {r : Route} {s : StateHandle} {p : MachineHandle}
    (hr : r.source = .state s) (hs : c.ownerOfState s = .ok p) : c.hostOf r = p := by
  obtain ⟨n, hn, -, hparent⟩ := ownerOfState_eq_ok.mp hs
  cases r <;> simp_all [Route.source, hostOf]

theorem EdgeLinked.keep {c d : Controller} {x : Edge} (h : c.EdgeLinked x) (hk : c.Keeps d) :
    d.EdgeLinked x where
  stored := hk.machine h.stored
  source := hk.checkEndpoint h.source
  target := hk.checkEndpoint h.target
  host := by
    cases hs : x.route.source with
    | state s =>
      obtain ⟨p, hp⟩ := (checkEndpoint_eq_ok.mp h.source).1 s hs
      rw [hostOf_eq hs (hk.ownerOfState hp), ← h.host, hostOf_eq hs hp]
    | machine m | absent =>
      have hhost := h.host
      cases hr : x.route <;> simp_all [Route.source, hostOf]

/-- A controller that grows stays linked if every new layer, child, entry, node and edge is. -/
theorem Linked.grow {c d : Controller} (h : c.Linked) (hk : c.Keeps d)
    (hlayers : ∀ l ∈ d.layers, l ∈ c.layers ∨ ∃ m, d.machine l.machine = .ok m)
    (hlisted : ∀ (i : Nat) (n' : Node) p, d.nodes[i]? = some n' → n'.parent = some p →
      (∃ n, c.nodes[i]? = some n) ∨ ∃ q, d.nodes[p.index]? = some q ∧ .ofIndex i ∈ q.children)
    (hnamed : ∀ (i : Nat) (n' : Node) child, d.nodes[i]? = some n' → child ∈ n'.children →
      (∃ n, c.nodes[i]? = some n ∧ child ∈ n.children) ∨
        ∃ k, d.nodes[child.index]? = some k ∧ k.parent = some ⟨.ofIndex i⟩)
    (hentered : ∀ (i : Nat) (n' : Node) s, d.nodes[i]? = some n' → n'.initial? = some s →
      (∃ n, c.nodes[i]? = some n ∧ n.initial? = some s) ∨ ∃ p, d.ownerOfState s = .ok p)
    (hedges : ∀ x ∈ d.edges,
      (∃ y ∈ c.edges, x.machine = y.machine ∧ x.route = y.route) ∨ d.EdgeLinked x) :
    d.Linked where
  layers l hl := by
    rcases hlayers l hl with hl | hm
    · exact hk.machine (h.layers l hl)
    · exact hm
  nodes i n' hn' := by
    refine ⟨fun p hp => ?_, fun child hchild => ?_, fun s hs => ?_⟩
    · rcases hlisted i n' p hn' hp with ⟨n, hn⟩ | hnew
      · obtain ⟨_, hsame, hcont⟩ := hk.nodes i n hn
        obtain rfl := Option.some.inj (hsame.symm.trans hn')
        obtain ⟨q, hq, hmem⟩ := (h.nodes i n hn).listed p (hcont.parent ▸ hp)
        obtain ⟨q', hq', hcont'⟩ := hk.nodes _ q hq
        exact ⟨q', hq', hcont'.children.subset hmem⟩
      · exact hnew
    · rcases hnamed i n' child hn' hchild with ⟨n, hn, hmem⟩ | hnew
      · obtain ⟨k, hk', hparent⟩ := (h.nodes i n hn).named child hmem
        obtain ⟨k', hk'', hcont⟩ := hk.nodes _ k hk'
        exact ⟨k', hk'', hcont.parent.trans hparent⟩
      · exact hnew
    · rcases hentered i n' s hn' hs with ⟨n, hn, hentry⟩ | hnew
      · obtain ⟨p, hp⟩ := (h.nodes i n hn).entered s hentry
        exact ⟨p, hk.ownerOfState hp⟩
      · exact hnew
  edges x hx := by
    rcases hedges x hx with ⟨y, hy, hm, hr⟩ | hnew
    · exact ((h.edges y hy).keep hk).of_nodes_eq rfl hm hr
    · exact hnew

end Controller

end Statechart
