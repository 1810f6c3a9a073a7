import Statechart.Proofs.EdgeShape

/-! Where the edges of an authored controller are: each is stored on the machine that owns its
source, and leads along the route of its own ends to one that is there. -/

namespace Statechart

theorem Edge.Regular.of_route_eq {x y : Edge} (h : y.Regular) (hm : x.machine = y.machine)
    (hr : x.route = y.route) (hs : x.Settled) : x.Regular where
  route := by simpa only [Edge.flavor, Edge.source, Edge.target, hm, hr] using h.route
  settled := hs

namespace Controller

variable {c d : Controller} {x : Edge}

/-- An edge with the route and settings of its kind, stored on a machine which owns its source, and
with a target that is there. -/
structure Seated (c : Controller) (x : Edge) : Prop where
  regular : x.Regular
  stored : ∃ m, c.machine x.machine = .ok m
  fromState : ∀ s, x.source = .state s → c.ownerOfState s = .ok x.machine
  fromMachine : ∀ m, x.source = .machine m → c.ownerOfMachine m = .ok x.machine
  toState : ∀ s, x.target = .state s → ∃ p, c.ownerOfState s = .ok p
  toMachine : ∀ m, x.target = .machine m → ∃ y, c.machine m = .ok y

theorem EdgeDrawn.toSeated (h : c.EdgeDrawn x) (hx : x.Regular) : c.Seated x := by
  obtain ⟨htoState, htoMachine⟩ := checkEndpoint_eq_ok.mp h.linked.target
  refine ⟨hx, h.linked.stored, fun s hs => ?_, h.seated, htoState, htoMachine⟩
  obtain ⟨p, hp⟩ := (checkEndpoint_eq_ok.mp h.linked.source).1 s hs
  rw [← h.linked.host, hostOf_eq hs hp]
  exact hp

theorem Drafted.regular (h : c.Drafted x) (hc : ∀ y ∈ c.edges, y.Regular) : x.Regular := by
  rcases h.origin with ⟨o, hplan⟩ | ⟨y, hy, hm, hr⟩
  · obtain ⟨-, -, -, hroute⟩ := plan_eq_ok.mp hplan
    obtain ⟨hs, ht, hf⟩ := ends_of_plan hplan
    exact ⟨by rw [Edge.flavor, Edge.source, Edge.target, hs, ht, hf]; exact hroute, h.settled⟩
  · exact (hc y hy).of_route_eq hm hr h.settled

/-- A change leaves the shape of an edge alone, and new edges have the shape of their kind. -/
theorem Change.regular (h : c.Change d) (he : d.edges.length < 2 ^ 32)
    (hc : ∀ y ∈ c.edges, y.Regular) : ∀ x ∈ d.edges, x.Regular := by
  cases h with
  | aside hid hl hn heq hp => rwa [heq]
  | relabel hf => exact hc
  | layer name => exact hc
  | adopt ha => exact hc
  | extend hes =>
    obtain ⟨new, rfl, hnew⟩ := hes he
    intro x hx
    rcases List.mem_append.mp hx with hx | hx
    · exact hc x hx
    · exact (hnew x hx).regular hc
  | guard e cs =>
    intro x hx
    obtain ⟨i, hi⟩ := List.getElem?_of_mem hx
    rw [edges_appendConditions, List.getElem?_modify] at hi
    obtain ⟨y, hy, rfl⟩ := Option.map_eq_some_iff.mp hi
    have hregular := hc y (List.mem_of_getElem? hy)
    split
    · exact hregular.of_route_eq rfl rfl hregular.settled
    · exact hregular

theorem Builds.regular (h : c.Builds d) (he : d.edges.length < 2 ^ 32)
    (hc : ∀ y ∈ c.edges, y.Regular) : ∀ x ∈ d.edges, x.Regular := by
  induction h with
  | refl => exact hc
  | tail hfirst hlast ih =>
    have hedges := (hlast.sound he).keeps.length_edges_le
    exact hlast.regular he (ih (by omega))

end Controller

namespace Reaches

open Controller

theorem regular {c d : Controller} (h : Reaches c d) (hc : ∀ y ∈ c.edges, y.Regular) :
    ∀ x ∈ d.edges, x.Regular := by
  induction h with
  | refl => exact hc
  | operate h op hf hn he ih => exact (Operation.builds_apply hf).regular he ih

/-- Every edge of a controller that was authored from a new one is seated. -/
theorem seated_of_mem {id : Uuid} {name : String} {defaults : Defaults} {c : Controller}
    (h : Reaches (.new id name defaults) c) {x : Edge} (hx : x ∈ c.edges) : c.Seated x := by
  have hnew := linked_new id name defaults
  have hregular := h.regular (fun y hy => absurd hy List.not_mem_nil) x hx
  rcases h.drawn hnew hx with ⟨y, hy, -⟩ | hdrawn
  · exact absurd hy List.not_mem_nil
  · exact hdrawn.toSeated hregular

/-- A forked transition with an or-condition that is taken back, a clone of its second edge, and a
restart. -/
theorem seated_of_mem_forked :
    let first := Controller.new ⟨List.replicate 16 0, rfl⟩ "" .standard
    let sub : MachineHandle := ⟨.ofIndex 1⟩
    let state : StateHandle := ⟨.ofIndex 2⟩
    let supply (name : String) := Supply.ofConditions [⟨name, .isTrue, .zero false⟩]
    let chain : Chain Supply (.fresh true) :=
      .when (supply "a") (.or (.whenAny (.when (supply "b") (.or (.when (supply "c") .stop)))
        ["other"] .stop))
    let forked := Operation.travel (.fromState state (.machine sub)) chain
      [("other", ⟨first.id, .ofIndex 7⟩)]
    let cloned := Operation.act (.cloneEdge (.ofIndex 1) (.state state) (.machine sub))
    let base := (Operation.act (.newStateAt sub "" 0 0)).apply
      ((Operation.act (.newMachine bareRoot "")).apply ((Operation.act (.addLayer "")).apply first))
    let c := (Operation.act (.restart sub)).apply (cloned.apply (forked.apply base))
    let leaving := Route.stateTo state (.machine sub)
    Reaches first c ∧ c.edges.map (·.route) =
      [leaving, leaving, leaving, .machineTo bareRoot sub (.machine sub)] ∧
      ∀ x ∈ c.edges, c.Seated x := by
  intro first sub state supply chain forked cloned base c leaving
  have hlayer : Reaches first _ :=
    .operate .refl (.act (.addLayer "")) trivial (by decide) (by decide)
  have hsub : Reaches first _ :=
    .operate hlayer (.act (.newMachine bareRoot "")) trivial (by decide) (by decide)
  have hbase : Reaches first base :=
    .operate hsub (.act (.newStateAt sub "" 0 0)) trivial (by decide) (by decide)
  have hfits : forked.Fits base := by
    intro started e route h
    cases h
    unfold Chain.Fits
    decide
  have hforked : Reaches first (forked.apply base) :=
    .operate hbase forked hfits (by decide) (by decide)
  have hcloned : Reaches first (cloned.apply (forked.apply base)) :=
    .operate hforked cloned trivial (by decide) (by decide)
  have hc : Reaches first c :=
    .operate hcloned (.act (.restart sub)) trivial (by decide) (by decide)
  have hroutes : c.edges.map (·.route) =
      [leaving, leaving, leaving, .machineTo bareRoot sub (.machine sub)] := by decide
  exact ⟨hc, hroutes, fun x hx => hc.seated_of_mem hx⟩

end Reaches

end Statechart
