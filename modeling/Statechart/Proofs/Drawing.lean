import Statechart.Proofs.InPlace
import Statechart.Proofs.Strays

/-! Which pairs of ends an edge can be made between. Every call that makes an edge accepts exactly
the ends of its kind that are there, and makes one edge from them. -/

namespace Statechart

namespace Controller

variable (c : Controller)

/-- A state with a parent. -/
def StateUnder (s : StateHandle) (p : MachineHandle) : Prop :=
  ∃ n, c.nodes[s.index]? = some n ∧ n.isState = true ∧ n.parent = some p

def IsMachine (m : MachineHandle) : Prop := ∃ n, c.nodes[m.index]? = some n ∧ n.isState = false

/-- A machine with a parent, which is not the root of a layer. -/
def MachineUnder (m p : MachineHandle) : Prop :=
  ∃ n, c.nodes[m.index]? = some n ∧ n.isState = false ∧ n.parent = some p

/-- An end that an edge can lead to, apart from the exit of a machine. -/
def Present : Endpoint → Prop
  | .state s => ∃ p, c.StateUnder s p
  | .machine m => c.IsMachine m
  | .absent => False

end Controller

/-- A call that makes one edge; what a chain gives to the edge afterwards is left out. -/
inductive Drawing where
  | opening (o : Opening)
  | restart (machine : MachineHandle)
  | automatic (source : StateHandle) (target : Endpoint)

/-- The call that an opening abbreviates, if it is not one in its own right. -/
def Opening.general (c : Controller) : Opening → Except Fault Opening
  | exitState s => return fromState s .absent
  | anyToState s => return anyState (← c.ownerOfState s) (.state s)
  | entryToState s => return entry (← c.ownerOfState s) (.state s)
  | entryToMachine m => return entry (← c.ownerOfMachine m) (.machine m)
  | exitMachine m => return fromMachine m .absent
  | o => return o

namespace Drawing

open Controller

def flavor : Drawing → Flavor
  | opening o => o.flavor
  | restart _ => .untimed
  | automatic _ _ => .timed

def work : Drawing → Work EdgeHandle
  | opening o => return (← Work.start o).1
  | restart m => Work.restart m
  | automatic s target => Work.moveAutomatically s target

/-- The settings of the new edge, where it is timed. -/
def settings (c : Controller) : Drawing → Option TransitionSettings
  | opening o => match o.flavor with
    | .timed => some c.defaults.transition
    | .untimed => none
  | restart _ => none
  | automatic _ _ => some { c.defaults.transition with hasExitTime := true }

/-- The ends that a call is for, and the machine that their edge is stored on. -/
inductive Draws (c : Controller) : Drawing → MachineHandle → Endpoint → Endpoint → Prop
  | fromState {s : StateHandle} {p : MachineHandle} {target : Endpoint} (hs : c.StateUnder s p)
      (ht : target = .absent ∨ c.Present target) :
      Draws c (.opening (.fromState s target)) p (.state s) target
  | exitState {s : StateHandle} {p : MachineHandle} (hs : c.StateUnder s p) :
      Draws c (.opening (.exitState s)) p (.state s) .absent
  | anyToState {s : StateHandle} {p : MachineHandle} (hs : c.StateUnder s p) :
      Draws c (.opening (.anyToState s)) p .absent (.state s)
  | anyState {m : MachineHandle} {target : Endpoint} (hm : c.IsMachine m)
      (ht : c.Present target) : Draws c (.opening (.anyState m target)) m .absent target
  | entry {m : MachineHandle} {target : Endpoint} (hm : c.IsMachine m) (ht : c.Present target) :
      Draws c (.opening (.entry m target)) m .absent target
  | entryToState {s : StateHandle} {p : MachineHandle} (hs : c.StateUnder s p) :
      Draws c (.opening (.entryToState s)) p .absent (.state s)
  | entryToMachine {m p : MachineHandle} (hm : c.MachineUnder m p) :
      Draws c (.opening (.entryToMachine m)) p .absent (.machine m)
  | fromMachine {m p : MachineHandle} {target : Endpoint} (hm : c.MachineUnder m p)
      (ht : target = .absent ∨ c.Present target) :
      Draws c (.opening (.fromMachine m target)) p (.machine m) target
  | exitMachine {m p : MachineHandle} (hm : c.MachineUnder m p) :
      Draws c (.opening (.exitMachine m)) p (.machine m) .absent
  | restart {m p : MachineHandle} (hm : c.MachineUnder m p) :
      Draws c (.restart m) p (.machine m) (.machine m)
  | automatic {s : StateHandle} {p : MachineHandle} {target : Endpoint} (hs : c.StateUnder s p)
      (ht : c.Present target) : Draws c (.automatic s target) p (.state s) target

/-- The edge that a call makes between two ends. -/
structure Makes (c : Controller) (k : Drawing) (p : MachineHandle) (source target : Endpoint)
    (x : Edge) : Prop where
  route : Route.between k.flavor p source target = .ok x.route
  machine : x.machine = p
  source : x.source = source
  target : x.target = target
  settings : x.settings = k.settings c
  conditions : x.conditions = []

end Drawing

namespace Controller

variable {c : Controller} {m p : MachineHandle} {source target : Endpoint} {r : Route}

theorem exists_machine_iff : (∃ x, c.machine m = .ok x) ↔ c.IsMachine m := by
  simp only [machine_eq_ok, IsMachine, Node.isState_eq_false]
  exact ⟨fun ⟨x, n, hn, hx⟩ => ⟨n, hn, x, hx⟩, fun ⟨n, hn, x, hx⟩ => ⟨x, n, hn, hx⟩⟩

theorem ownerOfMachine_eq_ok_iff : c.ownerOfMachine m = .ok p ↔ c.MachineUnder m p := by
  rw [ownerOfMachine_eq_ok, exists_machine_iff]
  constructor
  · rintro ⟨⟨k, hk, hmachine⟩, n, hn, hp⟩
    obtain rfl := Option.some.inj (hk.symm.trans hn)
    exact ⟨k, hk, hmachine, hp⟩
  · rintro ⟨n, hn, hmachine, hp⟩
    exact ⟨⟨n, hn, hmachine⟩, n, hn, hp⟩

theorem checkEndpoint_eq_ok_iff :
    c.checkEndpoint target = .ok () ↔ target = .absent ∨ c.Present target := by
  rw [checkEndpoint_eq_ok]
  cases target with
  | state s => simp [Present, StateUnder, ownerOfState_eq_ok]
  | machine m => simp [Present, exists_machine_iff]
  | absent => simp

/-- There is no route from nowhere to nowhere. -/
theorem present_of_between {flavor : Flavor}
    (hr : Route.between flavor m .absent target = .ok r)
    (ht : target = .absent ∨ c.Present target) : c.Present target := by
  rcases ht with rfl | ht
  · cases flavor <;> cases hr
  · exact ht

/-- An opening that abbreviates another is planned as that one. -/
theorem plan_general (o : Opening) : c.plan o = o.general c >>= c.plan := by
  cases o with
  | anyToState s | entryToState s | entryToMachine m =>
    simp only [Opening.general, bind_assoc, pure_bind, plan_eq]
    rfl
  | _ => rfl

/-- An opening has a plan exactly where its ends are there. -/
theorem plan_eq_ok_iff (h : c.Linked) (o : Opening) :
    c.plan o = .ok (m, r) ↔ ∃ source target, Drawing.Draws c (.opening o) m source target ∧
      Route.between o.flavor m source target = .ok r := by
  rw [plan_eq_ok, checkEndpoint_eq_ok_iff]
  constructor
  · rintro ⟨hhost, hm, ht, hr⟩
    refine ⟨o.source, o.target, ?_, hr⟩
    cases o with
    | fromState s target => exact .fromState (ownerOfState_eq_ok.mp hhost) ht
    | exitState s => exact .exitState (ownerOfState_eq_ok.mp hhost)
    | anyToState s => exact .anyToState (ownerOfState_eq_ok.mp hhost)
    | entryToState s => exact .entryToState (ownerOfState_eq_ok.mp hhost)
    | entryToMachine q => exact .entryToMachine (ownerOfMachine_eq_ok_iff.mp hhost)
    | fromMachine q target => exact .fromMachine (ownerOfMachine_eq_ok_iff.mp hhost) ht
    | exitMachine q => exact .exitMachine (ownerOfMachine_eq_ok_iff.mp hhost)
    | anyState q target =>
      obtain rfl : q = m := Except.ok.inj hhost
      exact .anyState (exists_machine_iff.mp (hm rfl)) (present_of_between hr ht)
    | entry q target =>
      obtain rfl : q = m := Except.ok.inj hhost
      exact .entry (exists_machine_iff.mp (hm rfl)) (present_of_between hr ht)
  · rintro ⟨source, target, hdraws, hr⟩
    cases hdraws with
    | fromState hs ht => exact ⟨ownerOfState_eq_ok.mpr hs, nofun, ht, hr⟩
    | exitState hs => exact ⟨ownerOfState_eq_ok.mpr hs, nofun, .inl rfl, hr⟩
    | anyToState hs | entryToState hs =>
      -- the owner is there, as the state is one of its children
      have howner := ownerOfState_eq_ok.mpr hs
      exact ⟨howner, fun _ => machine_of_ownerOfState h howner, .inr ⟨m, hs⟩, hr⟩
    | entryToMachine hq =>
      have howner := ownerOfMachine_eq_ok_iff.mpr hq
      obtain ⟨n, hn, hmachine, -⟩ := hq
      exact ⟨howner, fun _ => machine_of_ownerOfMachine h howner, .inr ⟨n, hn, hmachine⟩, hr⟩
    | anyState hm ht | entry hm ht =>
      exact ⟨rfl, fun _ => exists_machine_iff.mpr hm, .inr ht, hr⟩
    | fromMachine hq ht => exact ⟨ownerOfMachine_eq_ok_iff.mpr hq, nofun, ht, hr⟩
    | exitMachine hq => exact ⟨ownerOfMachine_eq_ok_iff.mpr hq, nofun, .inl rfl, hr⟩

end Controller

namespace Drawing

open Controller

variable {c : Controller} {k : Drawing} {p : MachineHandle} {source target : Endpoint} {r : Route}

/-- The machine that the new edge is stored on, and its route. -/
def plan (c : Controller) : Drawing → Except Fault (MachineHandle × Route)
  | opening o => c.plan o
  | restart m => do
    let p ← c.ownerOfMachine m
    return (p, ← route .untimed p (.machine m) (.machine m))
  | automatic s target =>
    if target.isAbsent then throw (.topology (.automaticExit s))
    else c.plan (.fromState s target)

theorem plan_restart_eq_ok {m : MachineHandle} : (restart m).plan c = .ok (p, r) ↔
    c.ownerOfMachine m = .ok p ∧ Route.between .untimed p (.machine m) (.machine m) = .ok r := by
  simp only [plan, bind_eq_ok, route_eq_ok, pure_eq_ok, Prod.mk.injEq]
  constructor
  · rintro ⟨_, hm, _, hr, rfl, rfl⟩
    exact ⟨hm, hr⟩
  · rintro ⟨hm, hr⟩
    exact ⟨p, hm, r, hr, rfl, rfl⟩

theorem plan_eq_ok_iff (h : c.Linked) : k.plan c = .ok (p, r) ↔
    ∃ source target, k.Draws c p source target ∧
      Route.between k.flavor p source target = .ok r := by
  cases k with
  | opening o => exact Controller.plan_eq_ok_iff h o
  | restart m =>
    rw [plan_restart_eq_ok, ownerOfMachine_eq_ok_iff]
    constructor
    · rintro ⟨hm, hr⟩
      exact ⟨_, _, .restart hm, hr⟩
    · rintro ⟨source, target, hdraws, hr⟩
      cases hdraws with | restart hm =>
      exact ⟨hm, hr⟩
  | automatic s target =>
    rw [plan]
    split
    · rename_i habsent
      refine iff_of_false nofun ?_
      rintro ⟨source, _, hdraws, -⟩
      cases hdraws with | automatic hs ht =>
      cases target with
      | absent => exact ht
      | _ => cases habsent
    · rename_i habsent
      rw [Controller.plan_eq_ok_iff h]
      constructor
      · rintro ⟨source, _, hdraws, hr⟩
        cases hdraws with | fromState hs ht =>
        have hpresent : c.Present target := ht.resolve_left fun heq => habsent (heq ▸ rfl)
        exact ⟨_, _, .automatic hs hpresent, hr⟩
      · rintro ⟨source, _, hdraws, hr⟩
        cases hdraws with | automatic hs ht =>
        exact ⟨_, _, .fromState hs (.inr ht), hr⟩

theorem flavor_of_plan (hplan : k.plan c = .ok (p, r)) : r.flavor = k.flavor := by
  cases k with
  | opening o => exact Controller.flavor_of_plan hplan
  | restart m => exact (Route.ends_of_between (plan_restart_eq_ok.mp hplan).2).2.2
  | automatic s target =>
    rw [plan] at hplan
    split at hplan
    · cases hplan
    · exact Controller.flavor_of_plan hplan

/-- Ends that are there always have a route between them. -/
theorem Draws.exists_route (h : k.Draws c p source target) :
    ∃ r, Route.between k.flavor p source target = .ok r := by
  cases h with
  | fromState hs ht => cases target <;> exact ⟨_, rfl⟩
  | anyState hm ht | entry hm ht =>
    cases target with
    | absent => exact ht.elim
    | _ => exact ⟨_, rfl⟩
  | fromMachine hm ht => cases target <;> exact ⟨_, rfl⟩
  | automatic hs ht => cases target <;> exact ⟨_, rfl⟩
  | _ => exact ⟨_, rfl⟩

def edge (c : Controller) (k : Drawing) (p : MachineHandle) (r : Route) : Edge :=
  ⟨p, r, k.settings c, []⟩

theorem run_start (o : Opening) (c : Controller) :
    (Work.start o).run c = match c.plan o with
      | .ok (m, r) => .ok (c.nextEdge, r) (c.withEdges (c.edges ++ [c.blankEdge r m]))
      | .error fault => .error fault c := by
  rw [Work.start, Work.run_ask_bind]
  cases c.plan o <;> rfl

theorem run_restart (m : MachineHandle) (c : Controller) :
    (Work.restart m).run c = match (restart m).plan c with
      | .ok (p, r) => .ok c.nextEdge (c.withEdges (c.edges ++ [c.blankEdge r p]))
      | .error fault => .error fault c := by
  rw [Work.performs_restart, plan]
  dsimp only [Controller.restart]
  cases c.ownerOfMachine m <;> rfl

theorem blankEdge_opening {o : Opening} (hr : r.flavor = o.flavor) :
    c.blankEdge r p = (opening o).edge c p r := by
  cases ho : o.flavor <;> rw [blankEdge, edge, settings, hr, ho]

theorem blankEdge_restart (hr : r.flavor = .untimed) (m : MachineHandle) :
    c.blankEdge r p = (restart m).edge c p r := by
  rw [blankEdge, edge, settings, hr]

/-- The edge of an automatic move is the edge from its state with the exit time switched on. -/
theorem blankEdge_automatic (hr : r.flavor = .timed) (s : StateHandle) (target : Endpoint) :
    { c.blankEdge r p with
      settings := (c.blankEdge r p).settings.map fun s => { s with hasExitTime := true } } =
      (automatic s target).edge c p r := by
  rw [blankEdge, edge, settings, hr, Option.map_some]

theorem run_automatic (s : StateHandle) (target : Endpoint) (he : c.edges.length < 2 ^ 32) :
    (Work.moveAutomatically s target).run c = match (automatic s target).plan c with
      | .ok (p, r) =>
        .ok c.nextEdge (c.withEdges (c.edges ++ [(automatic s target).edge c p r]))
      | .error fault => .error fault c := by
  rw [plan, Work.moveAutomatically]
  split
  · rfl
  · rw [Work.run_bind, run_start]
    cases hplan : c.plan (.fromState s target) with
    | error fault => rfl
    | ok planned =>
      have hflavor : planned.2.flavor = .timed := Controller.flavor_of_plan hplan
      have hedge := blankEdge_automatic (c := c) (p := planned.1) hflavor s target
      -- the edge whose exit time is switched on is the last one, which has just been added
      dsimp only
      rw [Work.run_modify_bind, modifySettings_eq_withEdges, edges_withEdges, nextEdge,
        EdgeHandle.index_ofIndex he, modify_length_append, hedge]
      rfl

/-- A call fails where it has no plan, and otherwise adds the edge of its plan. -/
theorem run_work (k : Drawing) (he : c.edges.length < 2 ^ 32) :
    k.work.run c = match k.plan c with
      | .ok (p, r) => .ok c.nextEdge (c.withEdges (c.edges ++ [k.edge c p r]))
      | .error fault => .error fault c := by
  cases k with
  | opening o =>
    rw [work, plan, Work.run_bind, run_start]
    cases hplan : c.plan o with
    | error fault => rfl
    | ok planned =>
      have hedge := blankEdge_opening (c := c) (p := planned.1) (Controller.flavor_of_plan hplan)
      dsimp only
      rw [hedge]
      rfl
  | restart m =>
    rw [work, run_restart]
    cases hplan : (restart m).plan c with
    | error fault => rfl
    | ok planned =>
      have hedge := blankEdge_restart (c := c) (p := planned.1) (flavor_of_plan hplan) m
      dsimp only
      rw [hedge]
  | automatic s target => exact run_automatic s target he

theorem makes_edge (hr : Route.between k.flavor p source target = .ok r) :
    k.Makes c p source target (k.edge c p r) := by
  obtain ⟨hs, ht, -⟩ := Route.ends_of_between hr
  exact ⟨hr, rfl, hs, ht, rfl, rfl⟩

theorem run_of_draws (h : c.Linked) (he : c.edges.length < 2 ^ 32)
    (hd : k.Draws c p source target) :
    ∃ x, k.Makes c p source target x ∧
      k.work.run c = .ok (.ofIndex c.edges.length) (c.withEdges (c.edges ++ [x])) := by
  obtain ⟨r, hr⟩ := hd.exists_route
  have hplan : k.plan c = .ok (p, r) := (plan_eq_ok_iff h).mpr ⟨_, _, hd, hr⟩
  refine ⟨k.edge c p r, makes_edge hr, ?_⟩
  rw [k.run_work he, hplan]
  rfl

theorem run_of_not_draws (h : c.Linked) (he : c.edges.length < 2 ^ 32)
    (hd : ¬∃ p source target, k.Draws c p source target) :
    ∃ fault, k.work.run c = .error fault c := by
  cases hplan : k.plan c with
  | ok planned =>
    obtain ⟨source, target, hdraws, -⟩ := (plan_eq_ok_iff (r := planned.2) h).mp hplan
    exact absurd ⟨_, source, target, hdraws⟩ hd
  | error fault =>
    refine ⟨fault, ?_⟩
    rw [k.run_work he, hplan]

/-- An opening that abbreviates another is started as that one. -/
theorem run_start_general (o : Opening) (c : Controller) :
    (Work.start o).run c =
      (Work.ask o.general >>= Work.start : Work (EdgeHandle × Route)).run c := by
  rw [Work.run_ask_bind, run_start, c.plan_general]
  cases o.general c with
  | error fault => rfl
  | ok g =>
    dsimp only
    rw [run_start]
    rfl

end Drawing

namespace Reachable

open Drawing

variable {c : Controller}

/-- In every controller that can be reached, a call that makes an edge succeeds exactly if the ends
it is for are there, and then adds one edge, which is found under the handle that it returns. A
call that abbreviates another does as that one. -/
theorem draws_exactly (h : Reachable c) (hn : c.nodes.length < 2 ^ 32)
    (he : c.edges.length < 2 ^ 32) :
    (∀ k : Drawing,
      ((∃ e d, k.work.run c = .ok e d) ↔ ∃ p source target, k.Draws c p source target) ∧
      (∀ p source target, k.Draws c p source target → ∃ x, k.Makes c p source target x ∧
        k.work.run c = .ok (.ofIndex c.edges.length) (c.withEdges (c.edges ++ [x])) ∧
        (c.withEdges (c.edges ++ [x])).edge (.ofIndex c.edges.length) = .ok x) ∧
      ∀ fault d, k.work.run c = .error fault d → d = c) ∧
    ∀ o : Opening, (Work.start o).run c =
      (Work.ask o.general >>= Work.start : Work (EdgeHandle × Route)).run c := by
  have hlinked := h.linked hn he
  refine ⟨fun k => ?_, fun o => run_start_general o c⟩
  refine ⟨⟨fun ⟨e, d, hok⟩ => ?_, fun ⟨p, source, target, hd⟩ => ?_⟩, fun p source target hd => ?_,
    fun fault d herror => ?_⟩
  · refine Classical.byContradiction fun hnone => ?_
    obtain ⟨fault, herror⟩ := run_of_not_draws hlinked he hnone
    cases hok.symm.trans herror
  · obtain ⟨x, -, hok⟩ := run_of_draws hlinked he hd
    exact ⟨_, _, hok⟩
  · obtain ⟨x, hx, hok⟩ := run_of_draws hlinked he hd
    refine ⟨x, hx, hok, Controller.edge_eq_ok.mpr ?_⟩
    rw [EdgeHandle.index_ofIndex he, Controller.edges_withEdges]
    exact List.getElem?_concat_length
  · by_cases hd : ∃ p source target, k.Draws c p source target
    · obtain ⟨p, source, target, hd⟩ := hd
      obtain ⟨x, -, hok⟩ := run_of_draws hlinked he hd
      cases hok.symm.trans herror
    · obtain ⟨other, hunchanged⟩ := run_of_not_draws hlinked he hd
      exact (EStateM.Result.error.inj (hunchanged.symm.trans herror)).2.symm

/-- A state moves on to the machine around it, and the root of a layer cannot be restarted. -/
theorem draws_exactly_nested :
    let inner : MachineHandle := ⟨.ofIndex 1⟩
    let state : StateHandle := ⟨.ofIndex 2⟩
    let moving := automatic state (.machine inner)
    let c := Controller.ofSnapshot (Controller.nested none [])
    Reachable c ∧ c.nodes.length < 2 ^ 32 ∧ c.edges.length < 2 ^ 32 ∧
      (∃ x, moving.Makes c inner (.state state) (.machine inner) x ∧
        moving.work.run c = .ok (.ofIndex 0) (c.withEdges [x])) ∧
      ¬∃ e d, (restart Controller.bareRoot).work.run c = .ok e d := by
  intro inner state moving c
  have hc : Reachable c := .restored (s := Controller.nested none []) rfl
  have hn : c.nodes.length < 2 ^ 32 := by decide
  have he : c.edges.length < 2 ^ 32 := by decide
  obtain ⟨hk, -⟩ := draws_exactly hc hn he
  have hstate : c.StateUnder state inner := ⟨_, rfl, rfl, rfl⟩
  have hinner : c.IsMachine inner := ⟨_, rfl, rfl⟩
  obtain ⟨x, hx, hok, -⟩ := (hk moving).2.1 _ _ _ (.automatic hstate hinner)
  refine ⟨hc, hn, he, ⟨x, hx, hok⟩, fun hroot => ?_⟩
  obtain ⟨p, source, target, hd⟩ := (hk (restart Controller.bareRoot)).1.mp hroot
  cases hd with | restart hm =>
  obtain ⟨n, hn, -, hp⟩ := hm
  cases hn
  cases hp

end Reachable

end Statechart
