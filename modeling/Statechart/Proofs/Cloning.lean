import Statechart.Proofs.InPlace
import Statechart.Proofs.Seats

/-! Cloning an edge. In an authored controller an edge is cloned between its own ends only, and the
clone is the edge without its conditions. -/

namespace Statechart

namespace Controller

variable {c : Controller} {e : EdgeHandle} {x : Edge} {source target : Endpoint}

/-- The ends of a route along which an edge is cloned are those of the edge. -/
theorem cloneEdge_eq_ok_iff (hx : c.edges[e.index]? = some x) (hregular : x.Regular)
    {grown : Controller × EdgeHandle} :
    c.cloneEdge e source target = .ok grown ↔
      (x.source = source ∧ x.target = target) ∧
        grown = (c.pushEdge (x.guarded []), c.nextEdge) := by
  constructor
  · intro h
    have hends : x.source = source ∧ x.target = target := by
      simp only [cloneEdge, bind_eq_ok, edge_eq_ok, route_eq_ok] at h
      obtain ⟨y, hy, r, hr, h⟩ := h
      obtain rfl := Option.some.inj (hx.symm.trans hy)
      obtain ⟨hsource, htarget, -⟩ := Route.ends_of_between hr
      split at h
      · rename_i hroute
        rw [hroute] at hsource htarget
        exact ⟨hsource, htarget⟩
      · cases h
    obtain ⟨rfl, rfl⟩ := hends
    -- between the ends of the edge itself the clone is the fork of a regular edge
    obtain ⟨-, hfork⟩ := (cloneEdge_ends_eq_ok hx).mp h
    rw [(fork_eq_pushEdge_iff hx).mpr hregular.settled] at hfork
    exact ⟨⟨rfl, rfl⟩, hfork.symm⟩
  · rintro ⟨⟨rfl, rfl⟩, rfl⟩
    exact (cloneEdge_ends_eq_ok hx).mpr
      ⟨hregular.route, (fork_eq_pushEdge_iff hx).mpr hregular.settled⟩

theorem cloneEdge_eq_error (hx : c.edges[e.index]? = some x) {fault : Fault}
    (h : c.cloneEdge e source target = .error fault) : ∃ cause, fault = .topology cause := by
  rw [cloneEdge, edge_eq_ok.mpr hx] at h
  change (route x.flavor x.machine source target >>= fun r => _) = _ at h
  rw [route] at h
  cases hr : Route.between x.flavor x.machine source target with
  | error cause =>
    rw [hr] at h
    cases h
    exact ⟨cause, rfl⟩
  | ok r =>
    rw [hr] at h
    change (if r = x.route then _ else _) = _ at h
    split at h
    · cases h
    · cases h
      exact ⟨_, rfl⟩

theorem edge_eq_error {fault : Fault} (h : c.edge e = .error fault) : fault = .unknownEdge e := by
  unfold edge at h
  split at h
  · cases h
  · exact (Except.error.inj h).symm

end Controller

namespace Work

open Controller

variable {c : Controller} {e : EdgeHandle} {x : Edge} {source target : Endpoint}

theorem run_cloneEdge_of_unknown {fault : Fault} (he : c.edge e = .error fault) :
    (cloneEdge e source target).run c = .error (.unknownEdge e) c := by
  rw [cloneEdge, run_ask_bind, he, edge_eq_error he]

theorem run_cloneEdge_of_ends (hx : c.edges[e.index]? = some x) (hregular : x.Regular) :
    (cloneEdge e x.source x.target).run c =
      .ok (.ofIndex c.edges.length) (c.withEdges (c.edges ++ [x.guarded []])) :=
  (performs_cloneEdge e _ _).run_of_eq_ok
    ((cloneEdge_eq_ok_iff hx hregular).mpr ⟨⟨rfl, rfl⟩, rfl⟩)

theorem run_cloneEdge_of_other_ends (hx : c.edges[e.index]? = some x) (hregular : x.Regular)
    (hne : ¬(x.source = source ∧ x.target = target)) :
    ∃ cause, (cloneEdge e source target).run c = .error (.topology cause) c := by
  have hrun := performs_cloneEdge e source target c
  dsimp only at hrun
  cases hclone : c.cloneEdge e source target with
  | ok grown => exact absurd ((cloneEdge_eq_ok_iff hx hregular).mp hclone).1 hne
  | error fault =>
    obtain ⟨cause, rfl⟩ := cloneEdge_eq_error hx hclone
    exact ⟨cause, by rw [hrun, hclone]⟩

end Work

namespace Reaches

open Controller

variable {id : Uuid} {name : String} {defaults : Defaults} {c : Controller}

theorem length_edges_lt (h : Reaches (.new id name defaults) c) : c.edges.length < 2 ^ 32 := by
  cases h with
  | refl => exact Nat.two_pow_pos 32
  | operate h op hf hn he => exact he

theorem regular_of_mem (h : Reaches (.new id name defaults) c) {x : Edge} (hx : x ∈ c.edges) :
    x.Regular :=
  h.regular (fun _ hy => absurd hy List.not_mem_nil) x hx

/-- In an authored controller an edge can be cloned exactly between its own ends. The clone is the
edge without its conditions, which the edge itself keeps, and is found under the handle that is
returned; where there is no clone, nothing has changed. -/
theorem clones_exactly (h : Reaches (.new id name defaults) c) (e : EdgeHandle)
    (source target : Endpoint) :
    ((∃ f d, (Work.cloneEdge e source target).run c = .ok f d) ↔
      ∃ x, c.edge e = .ok x ∧ x.source = source ∧ x.target = target) ∧
    (∀ x, c.edge e = .ok x → x.source = source → x.target = target →
      ∃ d, (Work.cloneEdge e source target).run c = .ok (.ofIndex c.edges.length) d ∧
        d = c.withEdges (c.edges ++ [x.guarded []]) ∧ d.edge e = .ok x ∧
        d.edge (.ofIndex c.edges.length) = .ok (x.guarded []) ∧
        (x.settings.isSome ↔ x.flavor = .timed)) ∧
    (∀ fault, c.edge e = .error fault →
      (Work.cloneEdge e source target).run c = .error (.unknownEdge e) c) ∧
    ∀ x, c.edge e = .ok x → ¬(x.source = source ∧ x.target = target) →
      ∃ cause, (Work.cloneEdge e source target).run c = .error (.topology cause) c := by
  have hregular (x : Edge) (he : c.edge e = .ok x) : x.Regular :=
    h.regular_of_mem (List.mem_of_getElem? (edge_eq_ok.mp he))
  have hunknown (fault : Fault) (he : c.edge e = .error fault) :
      (Work.cloneEdge e source target).run c = .error (.unknownEdge e) c :=
    Work.run_cloneEdge_of_unknown he
  have hother (x : Edge) (he : c.edge e = .ok x)
      (hne : ¬(x.source = source ∧ x.target = target)) :
      ∃ cause, (Work.cloneEdge e source target).run c = .error (.topology cause) c :=
    Work.run_cloneEdge_of_other_ends (edge_eq_ok.mp he) (hregular x he) hne
  refine ⟨⟨fun ⟨f, d, hok⟩ => ?_, ?_⟩, ?_, hunknown, hother⟩
  · cases he : c.edge e with
    | error fault => cases hok.symm.trans (hunknown fault he)
    | ok x =>
      refine ⟨x, rfl, Decidable.byContradiction fun hne => ?_⟩
      obtain ⟨cause, herror⟩ := hother x he hne
      cases hok.symm.trans herror
  · rintro ⟨x, he, rfl, rfl⟩
    exact ⟨_, _, Work.run_cloneEdge_of_ends (edge_eq_ok.mp he) (hregular x he)⟩
  · rintro x he rfl rfl
    have hx := edge_eq_ok.mp he
    refine ⟨_, Work.run_cloneEdge_of_ends hx (hregular x he), rfl, edge_eq_ok.mpr ?_,
      edge_eq_ok.mpr ?_, (hregular x he).settled⟩
    · exact getElem?_concat_eq_some.mpr (.inl hx)
    · rw [EdgeHandle.index_ofIndex h.length_edges_lt]
      exact getElem?_concat_eq_some.mpr (.inr ⟨rfl, rfl⟩)

/-- A guarded edge with an exit time is cloned from the state to the root, and not from the state to
the exit. -/
theorem clones_exactly_guarded :
    let first := Controller.new ⟨List.replicate 16 0, rfl⟩ "" .standard
    let state : StateHandle := ⟨.ofIndex 1⟩
    let based := (Operation.act (.newStateAt bareRoot "" 0 0)).apply
      ((Operation.act (.addLayer "")).apply first)
    let moving := Operation.act (.moveAutomatically state (.machine bareRoot))
    let guarding := Operation.act (.appendCondition (.ofIndex 0) ⟨"a", .isTrue, .zero false⟩)
    let c := guarding.apply (moving.apply based)
    Reaches first c ∧
      (∃ x, c.edge (.ofIndex 0) = .ok x ∧ x.conditions.length = 1 ∧
        (Work.cloneEdge (.ofIndex 0) (.state state) (.machine bareRoot)).run c =
          .ok (.ofIndex 1) (c.withEdges [x, x.guarded []])) ∧
      ∃ cause, (Work.cloneEdge (.ofIndex 0) (.state state) .absent).run c =
        .error (.topology cause) c := by
  intro first state based moving guarding c
  have hlayer : Reaches first _ :=
    .operate .refl (.act (.addLayer "")) trivial (by decide) (by decide)
  have hbased : Reaches first based :=
    .operate hlayer (.act (.newStateAt bareRoot "" 0 0)) trivial (by decide) (by decide)
  have hmoved : Reaches first (moving.apply based) :=
    .operate hbased moving trivial (by decide) (by decide)
  have hc : Reaches first c := .operate hmoved guarding trivial (by decide) (by decide)
  obtain ⟨x, hedges, hguards, hsource, htarget⟩ : ∃ x, c.edges = [x] ∧ x.conditions.length = 1 ∧
      x.source = .state state ∧ x.target = .machine bareRoot := ⟨_, rfl, rfl, rfl, rfl⟩
  have hx : c.edge (.ofIndex 0) = .ok x := edge_eq_ok.mpr (by rw [hedges]; rfl)
  obtain ⟨-, hcloned, -, -⟩ := hc.clones_exactly (.ofIndex 0) (.state state) (.machine bareRoot)
  obtain ⟨d, hok, rfl, -⟩ := hcloned x hx hsource htarget
  rw [hedges] at hok
  obtain ⟨-, -, -, hrefused⟩ := hc.clones_exactly (.ofIndex 0) (.state state) .absent
  refine ⟨hc, ⟨x, hx, hguards, hok⟩, hrefused x hx ?_⟩
  rw [htarget]
  exact nofun

end Reaches

end Statechart
