import Statechart.Proofs.Growth

/-! Starting a transition only makes edges whose links hold, stored on the owner of their source. -/

namespace Statechart

namespace Opening

/-- Where the edge of an opening comes from. -/
def source : Opening → Endpoint
  | fromState s _ | exitState s => .state s
  | fromMachine m _ | exitMachine m => .machine m
  | anyToState _ | anyState _ _ | entry _ _ | entryToState _ | entryToMachine _ => .absent

/-- Where the edge of an opening leads. -/
def target : Opening → Endpoint
  | fromState _ target | anyState _ target | entry _ target | fromMachine _ target => target
  | anyToState s | entryToState s => .state s
  | entryToMachine m => .machine m
  | exitState _ | exitMachine _ => .absent

/-- The machine that an opening names to keep its edge, or else the owner of the node it names. -/
def host (c : Controller) : Opening → Except Fault MachineHandle
  | fromState s _ | exitState s | anyToState s | entryToState s => c.ownerOfState s
  | fromMachine m _ | exitMachine m | entryToMachine m => c.ownerOfMachine m
  | anyState m _ | entry m _ => return m

end Opening

theorem Node.machine_of_mem_children {n : Node} {h : NodeHandle} (hh : h ∈ n.children) :
    ∃ m, n.kind = .machine m := by
  cases hk : n.kind with
  | machine m => exact ⟨m, rfl⟩
  | state s => simp [children_of_state hk] at hh

theorem Route.ends_of_between {flavor : Flavor} {m : MachineHandle} {source target : Endpoint}
    {r : Route} (h : Route.between flavor m source target = .ok r) :
    r.source = source ∧ r.target = target ∧ r.flavor = flavor := by
  cases flavor <;> cases source <;> cases target <;>
    simp only [Route.between, Except.ok.injEq, reduceCtorEq] at h <;> subst h <;>
    exact ⟨rfl, rfl, rfl⟩

namespace Controller

variable {c : Controller} {m : MachineHandle} {source target : Endpoint} {r : Route}

theorem machine_of_parent (h : c.Linked) {i : Nat} {n : Node} (hn : c.nodes[i]? = some n)
    (hp : n.parent = some m) : ∃ x, c.machine m = .ok x := by
  obtain ⟨q, hq, hmem⟩ := (h.nodes i n hn).listed m hp
  obtain ⟨x, hx⟩ := Node.machine_of_mem_children hmem
  exact ⟨x, machine_eq_ok.mpr ⟨q, hq, hx⟩⟩

theorem machine_of_ownerOfState (h : c.Linked) {s : StateHandle} (hs : c.ownerOfState s = .ok m) :
    ∃ x, c.machine m = .ok x := by
  obtain ⟨n, hn, -, hp⟩ := ownerOfState_eq_ok.mp hs
  exact machine_of_parent h hn hp

theorem ownerOfMachine_eq_ok {h p : MachineHandle} :
    c.ownerOfMachine h = .ok p ↔
      (∃ x, c.machine h = .ok x) ∧ ∃ n, c.nodes[h.index]? = some n ∧ n.parent = some p := by
  simp only [ownerOfMachine, bind_eq_ok, node_eq_ok]
  constructor
  · rintro ⟨x, hx, n, hn, hp⟩
    refine ⟨⟨x, hx⟩, n, hn, ?_⟩
    split at hp
    · rename_i q hq
      rw [hq, Except.ok.inj hp]
    · cases hp
  · rintro ⟨⟨x, hx⟩, n, hn, hp⟩
    exact ⟨x, hx, n, hn, by rw [hp]; rfl⟩

theorem machine_of_ownerOfMachine (h : c.Linked) {s : MachineHandle}
    (hs : c.ownerOfMachine s = .ok m) : ∃ x, c.machine m = .ok x := by
  obtain ⟨-, n, hn, hp⟩ := ownerOfMachine_eq_ok.mp hs
  exact machine_of_parent h hn hp

theorem checkEndpoint_state {s : StateHandle} (hs : c.ownerOfState s = .ok m) :
    c.checkEndpoint (.state s) = .ok () := by
  simp [checkEndpoint, hs, bind, Except.bind, pure, Except.pure]

theorem checkEndpoint_machine (hm : ∃ x, c.machine m = .ok x) :
    c.checkEndpoint (.machine m) = .ok () := by
  obtain ⟨x, hx⟩ := hm
  simp [checkEndpoint, hx, bind, Except.bind, pure, Except.pure]

theorem route_eq_ok {flavor : Flavor} :
    route flavor m source target = .ok r ↔ Route.between flavor m source target = .ok r := by
  rw [route]
  cases Route.between flavor m source target with
  | ok a =>
    have ha : Except.mapError Fault.topology (.ok a) = .ok a := rfl
    rw [ha, Except.ok.injEq, Except.ok.injEq]
  | error f => exact iff_of_false nofun nofun

/-- All openings are planned alike. Where the host is found by a look-up of the target, the check of
the target has nothing more to find. -/
theorem plan_eq (c : Controller) (o : Opening) : c.plan o = do
    let m ← o.host c
    if o.source = .absent then let _ ← c.machine m
    c.checkEndpoint o.target
    return (m, ← route o.flavor m o.source o.target) := by
  cases o with
  | anyToState s | entryToState s =>
    cases hs : c.ownerOfState s with
    | error fault => simp only [plan, Opening.host, hs]; rfl
    | ok m =>
      simp only [plan, Opening.host, Opening.source, Opening.target, hs, checkEndpoint_state hs]
      rfl
  | entryToMachine q =>
    cases hq : c.ownerOfMachine q with
    | error fault => simp only [plan, Opening.host, hq]; rfl
    | ok m =>
      have hend := checkEndpoint_machine (ownerOfMachine_eq_ok.mp hq).1
      simp only [plan, Opening.host, Opening.source, Opening.target, hq, hend]
      rfl
  | _ => rfl

theorem plan_eq_ok {o : Opening} :
    c.plan o = .ok (m, r) ↔ o.host c = .ok m ∧ (o.source = .absent → ∃ x, c.machine m = .ok x) ∧
      c.checkEndpoint o.target = .ok () ∧ Route.between o.flavor m o.source o.target = .ok r := by
  by_cases hsource : o.source = .absent
  · simp only [plan_eq, hsource, if_true, bind_eq_ok, route_eq_ok, pure_eq_ok, Prod.mk.injEq]
    constructor
    · rintro ⟨_, hhost, x, hx, _, ht, _, hr, rfl, rfl⟩
      exact ⟨hhost, fun _ => ⟨x, hx⟩, ht, hr⟩
    · rintro ⟨hhost, hm, ht, hr⟩
      obtain ⟨x, hx⟩ := hm trivial
      exact ⟨m, hhost, x, hx, (), ht, r, hr, rfl, rfl⟩
  · simp only [plan_eq, hsource, if_false, bind_eq_ok, route_eq_ok, pure_eq_ok, Prod.mk.injEq]
    constructor
    · rintro ⟨_, hhost, _, ht, _, hr, rfl, rfl⟩
      exact ⟨hhost, False.elim, ht, hr⟩
    · rintro ⟨hhost, -, ht, hr⟩
      exact ⟨m, hhost, (), ht, r, hr, rfl, rfl⟩

theorem ends_of_plan {o : Opening} (h : c.plan o = .ok (m, r)) :
    r.source = o.source ∧ r.target = o.target ∧ r.flavor = o.flavor := by
  obtain ⟨-, -, -, hr⟩ := plan_eq_ok.mp h
  exact Route.ends_of_between hr

theorem flavor_of_plan {o : Opening} (h : c.plan o = .ok (m, r)) : r.flavor = o.flavor :=
  (ends_of_plan h).2.2

theorem Keeps.ownerOfMachine {d : Controller} (h : c.Keeps d) {s : MachineHandle}
    (hs : c.ownerOfMachine s = .ok m) : d.ownerOfMachine s = .ok m := by
  obtain ⟨hmachine, n, hn, hp⟩ := ownerOfMachine_eq_ok.mp hs
  obtain ⟨n', hn', hcont⟩ := h.nodes _ n hn
  exact ownerOfMachine_eq_ok.mpr ⟨h.machine hmachine, n', hn', hcont.parent.trans hp⟩

/-- An edge as the authoring steps draw it: one that leaves a machine is stored on its parent. -/
structure EdgeDrawn (c : Controller) (x : Edge) : Prop where
  linked : c.EdgeLinked x
  seated : ∀ s, x.source = .machine s → c.ownerOfMachine s = .ok x.machine

theorem EdgeDrawn.keep {d : Controller} {x : Edge} (h : c.EdgeDrawn x) (hk : c.Keeps d) :
    d.EdgeDrawn x :=
  ⟨h.linked.keep hk, fun s hs => hk.ownerOfMachine (h.seated s hs)⟩

theorem EdgeDrawn.of_eq {x y : Edge} (h : c.EdgeDrawn y) (hm : x.machine = y.machine)
    (hr : x.route = y.route) : c.EdgeDrawn x := by
  refine ⟨h.linked.of_nodes_eq rfl hm hr, fun s hs => ?_⟩
  rw [hm]
  exact h.seated s (by rwa [Edge.source, hr] at hs)

/-- Two ends that are there, for an edge stored on `m`, which owns the source if there is one. -/
structure Spans (c : Controller) (m : MachineHandle) (source target : Endpoint) : Prop where
  stored : ∃ y, c.machine m = .ok y
  leaves : c.checkEndpoint source = .ok ()
  arrives : c.checkEndpoint target = .ok ()
  ofState : ∀ s, source = .state s → c.ownerOfState s = .ok m
  ofMachine : ∀ s, source = .machine s → c.ownerOfMachine s = .ok m

theorem Spans.edgeDrawn (h : c.Spans m source target) {flavor : Flavor}
    (hr : Route.between flavor m source target = .ok r) {x : Edge} (hx : x.machine = m)
    (hxr : x.route = r) : c.EdgeDrawn x := by
  obtain ⟨hs, ht, -⟩ := Route.ends_of_between hr
  have hsource : x.source = source := by rw [Edge.source, hxr, hs]
  have htarget : x.target = target := by rw [Edge.target, hxr, ht]
  refine ⟨⟨hx ▸ h.stored, hsource ▸ h.leaves, htarget ▸ h.arrives, ?_⟩, fun s heq => ?_⟩
  · rw [hx, hxr]
    cases source with
    | state s => exact hostOf_eq hs (h.ofState s rfl)
    | machine s | absent =>
      cases flavor <;> cases target <;>
        simp only [Route.between, Except.ok.injEq, reduceCtorEq] at hr <;> subst hr <;> rfl
  · rw [hx]
    exact h.ofMachine s (hsource.symm.trans heq)

theorem spans_of_plan (h : c.Linked) {o : Opening} (hplan : c.plan o = .ok (m, r)) :
    c.Spans m o.source o.target := by
  obtain ⟨hhost, hm, ht, -⟩ := plan_eq_ok.mp hplan
  cases o with
  | fromState s target | exitState s =>
    exact ⟨machine_of_ownerOfState h hhost, checkEndpoint_state hhost, ht,
      fun _ heq => by cases heq; exact hhost, nofun⟩
  | fromMachine s target | exitMachine s =>
    exact ⟨machine_of_ownerOfMachine h hhost,
      checkEndpoint_machine (ownerOfMachine_eq_ok.mp hhost).1, ht, nofun,
      fun _ heq => by cases heq; exact hhost⟩
  | anyToState _ | anyState _ _ | entry _ _ | entryToState _ | entryToMachine _ =>
    exact ⟨hm rfl, rfl, ht, nofun, nofun⟩

theorem edgeDrawn_of_plan (h : c.Linked) {o : Opening} (hplan : c.plan o = .ok (m, r)) {x : Edge}
    (hx : x.machine = m) (hxr : x.route = r) : c.EdgeDrawn x :=
  (spans_of_plan h hplan).edgeDrawn (plan_eq_ok.mp hplan).2.2.2 hx hxr

end Controller

end Statechart
