import Statechart.Proofs.Reachable

/-! What a snapshot can bring in and no operation makes: a machine that is entered by a state of
another machine, and an edge that leaves a machine from somewhere else than its parent. -/

namespace Statechart

namespace Snapshot

/-- The machine is entered by a state that names another owner, or none. -/
def Borrows (s : Snapshot) (h : MachineHandle) (t : StateHandle) : Prop :=
  ∃ n k, s.nodes[h.index]? = some n ∧ n.initial? = some t ∧
    s.nodes[t.index]? = some k ∧ k.parent ≠ some h

/-- An edge of the snapshot with this route leaves a machine that names another parent than the
machine it is stored on, or none. -/
def Displaces (s : Snapshot) (x : Edge) : Prop :=
  ∃ y ∈ s.edges, y.machine = x.machine ∧ y.route = x.route ∧
    ∃ m n, x.source = .machine m ∧ s.nodes[m.index]? = some n ∧ n.parent ≠ some x.machine

end Snapshot

namespace Controller

variable {s : Snapshot} {c d : Controller} {h m : MachineHandle} {t : StateHandle}

theorem eq_ofSnapshot (hs : restore s = .ok c) : c = ofSnapshot s := by
  simp only [restore] at hs
  split at hs
  · obtain ⟨_, -, hc⟩ := bind_eq_ok.mp hs
    exact (Except.ok.inj hc).symm
  · cases hs

theorem nodes_of_restore (hs : restore s = .ok c) : c.nodes = s.nodes := by
  rw [eq_ofSnapshot hs]
  rfl

theorem edges_of_restore (hs : restore s = .ok c) : c.edges = s.edges := by
  rw [eq_ofSnapshot hs]
  rfl

theorem Linked.mem_children_iff (hd : d.Linked) {x : Machine} (hm : d.machine h = .ok x)
    {n : Node} (hn : d.nodes[t.index]? = some n) :
    t.node ∈ x.children ↔ n.parent = some h := by
  obtain ⟨q, hq, hk⟩ := machine_eq_ok.mp hm
  rw [← Node.children_of_machine hk]
  constructor
  · intro hmem
    obtain ⟨k, hk', hp⟩ := (hd.nodes h.index q hq).named t.node hmem
    obtain rfl := Option.some.inj (hn.symm.trans hk')
    rw [hp, MachineHandle.index, NodeHandle.ofIndex_index]
  · intro hp
    obtain ⟨q', hq', hmem⟩ := (hd.nodes t.index n hn).listed h hp
    obtain rfl := Option.some.inj (hq.symm.trans hq')
    rwa [StateHandle.index, NodeHandle.ofIndex_index] at hmem

/-- In every controller that is reached from a restored one, a machine is entered by a state, and by
one of its own children unless the snapshot already had it entered by that very state of another
machine. -/
theorem entered_by_child_iff (hs : restore s = .ok c) (hr : Reaches c d) {x : Machine}
    (hm : d.machine h = .ok x) (ht : x.defaultState = some t) :
    (∃ n, d.nodes[t.index]? = some n ∧ n.isState = true) ∧
      (t.node ∈ x.children ↔ ¬s.Borrows h t) := by
  have hc : c.Linked := linked_of_restore hs
  have hd : d.Linked := hr.linked hc
  obtain ⟨q, hq, hk⟩ := machine_eq_ok.mp hm
  have hinitial : q.initial? = some t := by rw [Node.initial?_of_machine hk, ht]
  obtain ⟨p, hp⟩ := (hd.nodes h.index q hq).entered t hinitial
  obtain ⟨n, hn, hstate, hparent⟩ := ownerOfState_eq_ok.mp hp
  refine ⟨⟨n, hn, hstate⟩, ?_⟩
  rw [hd.mem_children_iff hm hn]
  constructor
  · rintro hown ⟨-, k, -, -, hk', hforeign⟩
    rw [← nodes_of_restore hs] at hk'
    obtain ⟨n', hn', hcont⟩ := hr.sound.keeps.nodes _ k hk'
    obtain rfl := Option.some.inj (hn.symm.trans hn')
    exact hforeign (hcont.parent.symm.trans hown)
  · intro hnot
    rcases hr.entered hq hinitial with ⟨q₀, hq₀, hinitial₀⟩ | howner
    · -- the state was the default before, so that its owner there decides
      obtain ⟨p₀, hp₀⟩ := (hc.nodes h.index q₀ hq₀).entered t hinitial₀
      obtain ⟨k, hk', -, hparent₀⟩ := ownerOfState_eq_ok.mp hp₀
      obtain ⟨n', hn', hcont⟩ := hr.sound.keeps.nodes _ k hk'
      obtain rfl := Option.some.inj (hn.symm.trans hn')
      rw [nodes_of_restore hs] at hq₀ hk'
      refine Decidable.byContradiction fun hforeign => hnot ⟨q₀, k, hq₀, hinitial₀, hk', ?_⟩
      exact fun hown => hforeign (hcont.parent.trans hown)
    · obtain ⟨n', hn', -, hown⟩ := ownerOfState_eq_ok.mp howner
      obtain rfl := Option.some.inj (hn.symm.trans hn')
      rw [hown, MachineHandle.index, NodeHandle.ofIndex_index]

/-- A root that owns one machine, which in turn owns a state and a machine. -/
def nested (initial : Option StateHandle) (edges : List Edge) : Snapshot :=
  let machine (parent : Option MachineHandle) (children : List NodeHandle)
      (initial : Option StateHandle) : Node :=
    ⟨"machine", parent, .origin, .machine ⟨children, initial, Defaults.standard.newAnchors⟩⟩
  { bare.snapshot ⟨⟨2024, 3, 1, 12, 0, 0, 0⟩, by decide⟩ with
    nodes :=
      [machine none [.ofIndex 1] initial, machine (some bareRoot) [.ofIndex 2, .ofIndex 3] none,
        ⟨"state", some ⟨.ofIndex 1⟩, .origin, .state Defaults.standard.newState⟩,
        machine (some ⟨.ofIndex 1⟩) [] none]
    edges := edges }

/-- Once the machine that owns the state is entered by it, it is entered by a child, and the root
still is not. -/
theorem entered_by_child_chosen :
    let inner : MachineHandle := ⟨.ofIndex 1⟩
    let state : StateHandle := ⟨.ofIndex 2⟩
    let s := nested (some state) []
    let d := (Operation.act (.setDefaultState inner state)).apply (ofSnapshot s)
    restore s = .ok (ofSnapshot s) ∧ Reaches (ofSnapshot s) d ∧
      (∃ x, d.machine inner = .ok x ∧ x.defaultState = some state ∧ state.node ∈ x.children) ∧
      ∃ x, d.machine bareRoot = .ok x ∧ x.defaultState = some state ∧ state.node ∉ x.children := by
  intro inner state s d
  have hs : restore s = .ok (ofSnapshot s) := rfl
  have hr : Reaches (ofSnapshot s) d := .operate .refl _ trivial (by decide) (by decide)
  have hinner : ¬s.Borrows inner state := by
    rintro ⟨n, -, hn, hinitial, -, -⟩
    cases hn
    cases hinitial
  have hroot : s.Borrows bareRoot state := ⟨_, _, rfl, rfl, rfl, by decide⟩
  refine ⟨hs, hr, ⟨_, rfl, rfl, (entered_by_child_iff hs hr rfl rfl).2.mpr hinner⟩,
    ⟨_, rfl, rfl, fun hmem => (entered_by_child_iff hs hr rfl rfl).2.mp hmem hroot⟩⟩

/-- A root that is entered by a state of the machine below it, which cannot be chosen for it. -/
theorem not_child_borrowed :
    let state : StateHandle := ⟨.ofIndex 2⟩
    let s := nested (some state) []
    restore s = .ok (ofSnapshot s) ∧
      (∃ x, (ofSnapshot s).machine bareRoot = .ok x ∧ x.defaultState = some state ∧
        state.node ∉ x.children) ∧
      (ofSnapshot s).setDefaultState bareRoot state =
        .error (.topology (.notAChild state bareRoot)) := by
  intro state s
  exact ⟨rfl, ⟨_, rfl, rfl, by decide⟩, rfl⟩

theorem Linked.machine_of_source (hd : d.Linked) {x : Edge} (hx : x ∈ d.edges)
    (hsource : x.source = .machine m) : ∃ y, d.machine m = .ok y :=
  (checkEndpoint_eq_ok.mp (hd.edges x hx).source).2 m hsource

/-- In every controller that is reached from a restored one, an edge that leaves a machine is stored
on the parent of that machine, unless an edge of the snapshot with its route was not. -/
theorem stored_on_parent_iff (hs : restore s = .ok c) (hr : Reaches c d) {x : Edge}
    (hx : x ∈ d.edges) (hsource : x.source = .machine m) :
    d.ownerOfMachine m = .ok x.machine ↔ ¬s.Displaces x := by
  have hc : c.Linked := linked_of_restore hs
  have hkeeps := hr.sound.keeps
  constructor
  · rintro hown ⟨-, -, -, -, m', k, hsource', hk, hforeign⟩
    obtain rfl : m = m' := Endpoint.machine.inj (hsource.symm.trans hsource')
    rw [← nodes_of_restore hs] at hk
    obtain ⟨n, hn, hcont⟩ := hkeeps.nodes _ k hk
    obtain ⟨-, n', hn', hparent⟩ := ownerOfMachine_eq_ok.mp hown
    obtain rfl := Option.some.inj (hn.symm.trans hn')
    exact hforeign (hcont.parent.symm.trans hparent)
  · intro hnot
    rcases hr.drawn hc hx with ⟨y, hy, hmachine, hroute⟩ | hdrawn
    · have hsource₀ : y.source = .machine m := by rw [Edge.source, ← hroute, ← hsource, Edge.source]
      obtain ⟨z, hz⟩ := hc.machine_of_source hy hsource₀
      obtain ⟨k, hk, -⟩ := machine_eq_ok.mp hz
      have hparent : k.parent = some x.machine := by
        refine Decidable.byContradiction fun hforeign => hnot ?_
        rw [edges_of_restore hs] at hy
        rw [nodes_of_restore hs] at hk
        exact ⟨y, hy, hmachine.symm, hroute.symm, m, k, hsource, hk, hforeign⟩
      exact hkeeps.ownerOfMachine (ownerOfMachine_eq_ok.mpr ⟨⟨z, hz⟩, k, hk, hparent⟩)
    · exact hdrawn.seated m hsource

/-- An edge drawn on the restored controller is stored on the parent of its source, and the one that
the snapshot has on the root still is not. -/
theorem stored_on_parent_drawn :
    let outer : MachineHandle := ⟨.ofIndex 1⟩
    let inner : MachineHandle := ⟨.ofIndex 3⟩
    let stray : Edge := ⟨bareRoot, .machineExit bareRoot inner, none, []⟩
    let s := nested none [stray]
    let d := (Operation.travel (.fromMachine inner (.machine outer)) .stop []).apply (ofSnapshot s)
    restore s = .ok (ofSnapshot s) ∧ Reaches (ofSnapshot s) d ∧
      d.edges = [stray, ⟨outer, .machineTo outer inner (.machine outer), none, []⟩] ∧
      d.ownerOfMachine inner = .ok outer ∧ d.ownerOfMachine inner ≠ .ok stray.machine := by
  intro outer inner stray s d
  have hs : restore s = .ok (ofSnapshot s) := rfl
  have hf : (Operation.travel (.fromMachine inner (.machine outer)) .stop []).Fits
      (ofSnapshot s) := by
    intro started e route h
    cases h
    unfold Chain.Fits
    decide
  have hr : Reaches (ofSnapshot s) d := .operate .refl _ hf (by decide) (by decide)
  have hedges : d.edges = [stray, ⟨outer, .machineTo outer inner (.machine outer), none, []⟩] := rfl
  have hdrawn : ¬s.Displaces ⟨outer, .machineTo outer inner (.machine outer), none, []⟩ := by
    rintro ⟨y, hy, hmachine, -⟩
    obtain rfl : y = stray := List.mem_singleton.mp hy
    exact absurd hmachine (by decide)
  have hstray : s.Displaces stray :=
    ⟨stray, List.mem_singleton_self _, rfl, rfl, inner, _, rfl, rfl, by decide⟩
  refine ⟨hs, hr, hedges, ?_, fun hown => ?_⟩
  · exact (stored_on_parent_iff hs hr (by rw [hedges]; simp) rfl).mpr hdrawn
  · exact (stored_on_parent_iff hs hr (by rw [hedges]; simp) rfl).mp hown hstray

/-- A root that leaves itself, and a machine that leaves from the parent of its parent. Neither can
be drawn there. -/
theorem not_on_parent_displaced :
    let outer : MachineHandle := ⟨.ofIndex 1⟩
    let inner : MachineHandle := ⟨.ofIndex 3⟩
    let x : Edge := ⟨bareRoot, .machineExit bareRoot bareRoot, none, []⟩
    let y : Edge := ⟨bareRoot, .machineTo bareRoot inner (.machine outer), none, []⟩
    let c := ofSnapshot (nested none [x, y])
    restore (nested none [x, y]) = .ok c ∧
      (x ∈ c.edges ∧ x.source = .machine bareRoot ∧
        c.ownerOfMachine bareRoot = .error (.rootMachine bareRoot) ∧
        c.plan (.exitMachine bareRoot) = .error (.rootMachine bareRoot)) ∧
      y ∈ c.edges ∧ y.source = .machine inner ∧ c.ownerOfMachine inner = .ok outer ∧
        y.machine ≠ outer ∧
        c.plan (.fromMachine inner (.machine outer)) =
          .ok (outer, .machineTo outer inner (.machine outer)) := by
  intro outer inner x y c
  have hx : x ∈ c.edges := List.mem_cons_self
  have hy : y ∈ c.edges := List.mem_cons_of_mem _ (List.mem_singleton_self _)
  exact ⟨rfl, ⟨hx, rfl, rfl, rfl⟩, hy, rfl, rfl, by decide, rfl⟩

end Controller

end Statechart
