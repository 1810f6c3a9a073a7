import Statechart.Proofs.Strays

/-! The shape of edges: the route that their ends ask for, and settings where they are timed. Edges
come out of a snapshot as they were written, and only those of this shape are cloned as they are. -/

namespace Statechart

namespace Route

/-- The machine that a route names as the one its edges are stored on. -/
def machine? : Route → Option MachineHandle
  | stateTo _ _ | stateExit _ => none
  | anyState m _ | entry m _ | machineTo m _ _ | machineExit m _ => some m

/-- A route that should lead to an endpoint, where there is none. -/
def LeadsNowhere : Route → Prop
  | stateTo _ t | anyState _ t | entry _ t | machineTo _ _ t => t = .absent
  | stateExit _ | machineExit _ _ => False

theorem between_ends_iff {r : Route} {m : MachineHandle} (hm : ∀ p, r.machine? = some p → p = m) :
    between r.flavor m r.source r.target = .ok r ↔ ¬r.LeadsNowhere := by
  cases r with
  | stateExit s => exact iff_of_true rfl id
  | machineExit p s =>
    obtain rfl := hm p rfl
    exact iff_of_true rfl id
  | stateTo s t =>
    cases t <;> simp [between, flavor, source, target, LeadsNowhere]
  | anyState p t | entry p t | machineTo p s t =>
    obtain rfl := hm p rfl
    cases t <;> simp [between, flavor, source, target, LeadsNowhere]

end Route

/-- An edge as a transition is started or forked: along the route that its ends ask for, and with
settings exactly if it is timed. -/
structure Edge.Regular (x : Edge) : Prop where
  route : Route.between x.flavor x.machine x.source x.target = .ok x.route
  settled : x.Settled

namespace Controller

variable {s : Snapshot} {c : Controller} {e : EdgeHandle} {x : Edge}

theorem EdgeLinked.machine_of_route (h : c.EdgeLinked x) {p : MachineHandle}
    (hp : x.route.machine? = some p) : p = x.machine := by
  rw [← h.host]
  cases hr : x.route <;> simp_all [Route.machine?, hostOf]

theorem cloneEdge_ends_eq_ok (hx : c.edges[e.index]? = some x) {grown : Controller × EdgeHandle} :
    c.cloneEdge e x.source x.target = .ok grown ↔
      Route.between x.flavor x.machine x.source x.target = .ok x.route ∧
        c.fork e x.route = grown := by
  simp only [cloneEdge, bind_eq_ok, edge_eq_ok, route_eq_ok, hx, Option.some.injEq]
  constructor
  · rintro ⟨y, rfl, r, hr, h⟩
    split at h
    · rename_i heq
      rw [← heq]
      exact ⟨hr, Except.ok.inj h⟩
    · cases h
  · rintro ⟨hr, h⟩
    exact ⟨x, rfl, x.route, hr, by rw [if_pos rfl, ← h]; rfl⟩

theorem fork_eq_pushEdge_iff (hx : c.edges[e.index]? = some x) :
    c.fork e x.route = (c.pushEdge (x.guarded []), c.nextEdge) ↔ x.Settled := by
  constructor
  · intro h
    have hedges : c.edges ++ [c.offshoot e x.route] = c.edges ++ [x.guarded []] :=
      congrArg (·.1.edges) h
    have hoffshoot : c.offshoot e x.route = x.guarded [] := by simpa using hedges
    have hsettled := c.settled_offshoot e x.route
    rwa [hoffshoot] at hsettled
  · intro hsettled
    have hoffshoot := c.offshoot_eq e hx hsettled
    refine Prod.ext ?_ rfl
    rw [fork_eq_withEdges, hoffshoot]
    rfl

/-- An edge of a restored controller is regular exactly if it leads somewhere and has settings as it
should. It can be cloned exactly if it leads somewhere, and the clone is the same but for the
conditions exactly if it is regular. -/
theorem regular_iff (hs : restore s = .ok c) (hx : x ∈ c.edges) :
    (x.Regular ↔ ¬x.route.LeadsNowhere ∧ x.Settled) ∧
      ∀ e : EdgeHandle, c.edges[e.index]? = some x →
        ((∃ grown, c.cloneEdge e x.source x.target = .ok grown) ↔ ¬x.route.LeadsNowhere) ∧
        (c.cloneEdge e x.source x.target = .ok (c.pushEdge (x.guarded []), c.nextEdge) ↔
          x.Regular) := by
  have hlinked := (linked_of_restore hs).edges x hx
  have hroute : Route.between x.flavor x.machine x.source x.target = .ok x.route ↔
      ¬x.route.LeadsNowhere := Route.between_ends_iff fun p hp => hlinked.machine_of_route hp
  have hregular : x.Regular ↔ ¬x.route.LeadsNowhere ∧ x.Settled := by
    rw [← hroute]
    exact ⟨fun h => ⟨h.route, h.settled⟩, fun h => ⟨h.1, h.2⟩⟩
  refine ⟨hregular, fun e he => ⟨?_, ?_⟩⟩
  · simp only [cloneEdge_ends_eq_ok he, hroute, exists_and_left, exists_eq', and_true]
  · rw [cloneEdge_ends_eq_ok he, fork_eq_pushEdge_iff he, hroute, hregular]

theorem regular_iff_exit :
    let state : StateHandle := ⟨.ofIndex 2⟩
    let x : Edge := ⟨⟨.ofIndex 1⟩, .stateExit state, some .initial, [⟨"a", .isTrue, .zero false⟩]⟩
    let c := ofSnapshot (nested none [x])
    restore (nested none [x]) = .ok c ∧ x ∈ c.edges ∧ x.Regular ∧
      c.cloneEdge (.ofIndex 0) (.state state) .absent =
        .ok (c.pushEdge ⟨⟨.ofIndex 1⟩, .stateExit state, some .initial, []⟩, .ofIndex 1) := by
  intro state x c
  have hs : restore (nested none [x]) = .ok c := rfl
  have hx : x ∈ c.edges := List.mem_singleton_self x
  have hregular : x.Regular := (regular_iff hs hx).1.mpr ⟨not_false, iff_of_true rfl rfl⟩
  exact ⟨hs, hx, hregular, (((regular_iff hs hx).2 (.ofIndex 0) rfl).2.mpr hregular)⟩

/-- Routes that lead nowhere, which cannot be cloned, and settings that are missing or too many, and
are not in the clone. -/
theorem not_regular_loose :
    let machine : MachineHandle := ⟨.ofIndex 1⟩
    let inner : MachineHandle := ⟨.ofIndex 3⟩
    let state : StateHandle := ⟨.ofIndex 2⟩
    let loose : List Edge :=
      [⟨machine, .stateTo state .absent, some .initial, []⟩,
        ⟨machine, .anyState machine .absent, some .initial, []⟩,
        ⟨machine, .entry machine .absent, none, []⟩,
        ⟨machine, .machineTo machine inner .absent, none, []⟩]
    let unsettled : List Edge :=
      [⟨machine, .stateExit state, none, []⟩,
        ⟨machine, .machineExit machine inner, some .initial, []⟩]
    let c := ofSnapshot (nested none (loose ++ unsettled))
    restore (nested none (loose ++ unsettled)) = .ok c ∧ (∀ x ∈ loose ++ unsettled, ¬x.Regular) ∧
      c.cloneEdge (.ofIndex 0) (.state state) .absent =
        .error (.topology
          (.otherEnds (.ofIndex 0) (.state state) .absent (.state state) .absent)) ∧
      c.cloneEdge (.ofIndex 1) .absent .absent = .error (.topology .noEnds) ∧
      c.cloneEdge (.ofIndex 4) (.state state) .absent =
        .ok (c.pushEdge ⟨machine, .stateExit state, some c.defaults.transition, []⟩,
          .ofIndex 6) := by
  intro machine inner state loose unsettled c
  have hs : restore (nested none (loose ++ unsettled)) = .ok c := rfl
  refine ⟨hs, fun x hx hregular => ?_, rfl, rfl, rfl⟩
  rcases List.mem_append.mp hx with hx | hx
  · have hroute := hregular.route
    simp only [loose, List.mem_cons, List.not_mem_nil, or_false] at hx
    rcases hx with rfl | rfl | rfl | rfl <;> cases hroute
  · have hsettled := hregular.settled
    simp only [unsettled, List.mem_cons, List.not_mem_nil, or_false] at hx
    rcases hx with rfl | rfl <;> simp [Edge.Settled, Edge.flavor, Route.flavor] at hsettled

end Controller

end Statechart
