import Statechart.Proofs.Moments
import Statechart.Proofs.NormalForm

/-! The accesses of a run to the edges of a controller, one after the other. Between two accesses
the roles that are alive can be told, those that wait for a call further in among them. -/

namespace Statechart

/-- What a role asks of a controller. -/
inductive Access where
  | append (edge : EdgeHandle) (conditions : List Condition)
  | edit (edge : EdgeHandle) (edit : SettingsEdit)
  | fork (template : EdgeHandle)
  | mark (start : EdgeHandle)
  | rollback (mark : Mark)

def Access.perform (route : Route) (c : Controller) : Access → Controller
  | append e cs => c.appendConditions e cs
  | edit e x => c.modifySettings e (x.apply ·)
  | fork e => (c.fork e route).1
  | mark _ => c
  | rollback m => c.rollback m

/-- Who is at work: a role, a series on one edge, or a choice that began at one edge and now claims
those of its tokens. Where the tokens are refused, nobody goes on. -/
inductive Holder where
  | role {r : Role} (cursor : Cursor r)
  | series (edge : EdgeHandle)
  | choice (start : EdgeHandle)
  | refused

namespace Holder

def edges : Holder → List EdgeHandle
  | role k => k.edges
  | series e | choice e => [e]
  | refused => []

/-- The edges that are to have no conditions yet. -/
def blank : Holder → List EdgeHandle
  | @role (.fresh _) k => k.edges
  | _ => []

theorem mem_edges_of_mem_blank (h : Holder) {f : EdgeHandle} (hf : f ∈ h.blank) : f ∈ h.edges := by
  cases h with
  | @role r k =>
    cases r with
    | fresh timed => exact hf
    | _ => cases hf
  | _ => cases hf

end Holder

/-- A point of a run, with the edges that the roles further out wait on, and the access that is made
next. -/
structure Point where
  holder : Holder
  waiting : List EdgeHandle
  controller : Controller
  access : Option Access

def Point.after (route : Route) (p : Point) : Controller :=
  match p.access with
  | none => p.controller
  | some access => access.perform route p.controller

/-- A series has a point in front of each call and one behind the last. -/
def Series.points (e : EdgeHandle) : Series Supply → List EdgeHandle → Controller → List Point
  | done, es, c => [⟨.series e, es, c, none⟩]
  | and s next, es, c =>
    ⟨.series e, es, c, some (.append e s.conditions)⟩ ::
      next.points e es (c.appendConditions e s.conditions)
  | nested inner next, es, c =>
    ⟨.series e, es, c, none⟩ :: inner.points e (e :: es) c ++
      next.points e es (c.appendConditions e inner.conditions)

/-- The points of a call which gives the same conditions to some edges, one after the other. -/
def sweep (cs : List Condition) (points : EdgeHandle → Controller → List Point) :
    List EdgeHandle → Controller → List Point
  | [], _ => []
  | f :: fs, c => points f c ++ sweep cs points fs (c.appendConditions f cs)

namespace Choice

/-- The points of giving each condition an edge of its own. -/
def eachPoints (route : Route) (es : List EdgeHandle) :
    EdgeHandle → List Condition → Controller → List Point
  | e, [], c =>
    [⟨@Holder.role (.fresh false) (.fresh e), es, c, none⟩, ⟨.role (.clause e), es, c, none⟩]
  | e, [x], c =>
    [⟨@Holder.role (.fresh false) (.fresh e), es, c, some (.append e [x])⟩,
      ⟨.role (.clause e), es, c.appendConditions e [x], none⟩]
  | e, x :: xs, c =>
    let forked := (c.appendConditions e [x]).fork e route
    ⟨@Holder.role (.fresh false) (.fresh e), es, c, some (.append e [x])⟩ ::
      ⟨.role (.clause e), es, c.appendConditions e [x], some (.fork e)⟩ ::
      eachPoints route es forked.2 xs forked.1

/-- The point where the alternatives are made, and are taken back if a token is foreign. -/
def claimPoint (route : Route) (e : EdgeHandle) (es : List EdgeHandle) (w : Run)
    (choice : Choice) : Point where
  holder := .choice e
  waiting := es
  controller := (choice.make route e w).1.controller
  access := match (choice.run route e w).2 with
    | .ok _ => none
    | .error _ => some (.rollback (w.controller.mark e))

end Choice

namespace Chain

/-- The points of a run: those where it makes an access, those where a role ends, and those where a
role hands its edge on. Unlike its moments, they tell the accesses inside a call apart. -/
def points (route : Route) :
    {r : Role} → Chain Supply r → Cursor r → List EdgeHandle → Run → List Point
  | _, stop, k, es, w | _, unreadable _, k, es, w => [⟨.role k, es, w.controller, none⟩]
  | _, set edit next, k@(.fresh e), es, w =>
    ⟨.role k, es, w.controller, some (.edit e edit)⟩ :: next.points route (.fresh e) es
      ((w.reportRole k).onController (·.modifySettings e (edit.apply ·)))
  | _, settle next, k@(.fresh e), es, w =>
    ⟨.role k, es, w.controller, none⟩ :: next.points route (.fresh e) es (w.reportRole k)
  | _, when s next, k@(.fresh e), es, w =>
    ⟨.role k, es, w.controller, some (.append e s.conditions)⟩ ::
      next.points route (.clause e) es ((w.reportRole k).append e s)
  | _, whenAll s next, k@(.fresh e), es, w =>
    ⟨.role k, es, w.controller, none⟩ :: s.points e (e :: es) w.controller ++
      next.points route (.clause e) es ((w.reportRole k).appendSeries e s)
  | _, whenAlways next, k@(.fresh e), es, w =>
    ⟨.role k, es, w.controller, none⟩ :: next.points route (.clause e) es (w.reportRole k)
  | _, whenWithOr inner next, k@(.fresh e), es, w =>
    ⟨.role k, es, w.controller, none⟩ ::
      inner.points route (.fresh e) (e :: es) (w.reportRole k) ++
      next.points route (.forked e) es (inner.run route (.fresh e) (w.reportRole k))
  | _, whenAnyOf s next, k@(.fresh e), es, w =>
    let choice := Choice.each s
    ⟨.role k, es, w.controller, some (.mark e)⟩ ::
      Choice.eachPoints route (e :: es) e s.conditions w.controller ++
      choice.claimPoint route e es (w.reportRole k) ::
      match choice.run route e (w.reportRole k) with
      | (w, .ok fs) => next.points route (.spread fs) es w
      | (w, .error _) => [⟨.refused, es, w.controller, none⟩]
  | _, whenAny inner slots next, k@(.fresh e), es, w =>
    let choice := Choice.returned inner slots
    ⟨.role k, es, w.controller, some (.mark e)⟩ ::
      inner.points route (.fresh e) (e :: es) (w.reportRole k) ++
      choice.claimPoint route e es (w.reportRole k) ::
      match choice.run route e (w.reportRole k) with
      | (w, .ok fs) => next.points route (.spread fs) es w
      | (w, .error _) => [⟨.refused, es, w.controller, none⟩]
  | _, and s next, k@(.clause e), es, w =>
    ⟨.role k, es, w.controller, some (.append e s.conditions)⟩ ::
      next.points route (.clause e) es ((w.reportRole k).append e s)
  | _, andAll s next, k@(.clause e), es, w =>
    ⟨.role k, es, w.controller, none⟩ :: s.points e (e :: es) w.controller ++
      next.points route (.clause e) es ((w.reportRole k).appendSeries e s)
  | _, keep slot next, k@(.clause e), es, w =>
    ⟨.role k, es, w.controller, none⟩ ::
      next.points route (.clause e) es ((w.reportRole k).keep slot e)
  | _, or next, k@(.clause e), es, w =>
    let forked := (w.reportRole k).fork e route
    ⟨.role k, es, w.controller, some (.fork e)⟩ ::
      next.points route (.fresh forked.2) es forked.1
  | _, orElse next, k@(.forked e), es, w =>
    let forked := (w.reportRole k).fork e route
    ⟨.role k, es, w.controller, some (.fork e)⟩ ::
      next.points route (.fresh forked.2) es forked.1
  | _, andEach s next, k@(.spread fs), es, w =>
    ⟨.role k, es, w.controller, none⟩ ::
      sweep s.conditions (fun f c => [⟨.role k, es, c, some (.append f s.conditions)⟩]) fs
        w.controller ++
      next.points route k es (fs.foldl (·.append · s) (w.reportRole k))
  | _, andAllEach s next, k@(.spread fs), es, w =>
    ⟨.role k, es, w.controller, none⟩ ::
      sweep s.conditions (fun f c => s.points f (fs ++ es) c) fs w.controller ++
      next.points route k es (fs.foldl (·.appendSeries · s) (w.reportRole k))

end Chain

namespace Choice

/-- The points of a choice before its tokens are claimed. -/
def points (route : Route) (e : EdgeHandle) (es : List EdgeHandle) (w : Run) :
    Choice → List Point
  | each s => eachPoints route (e :: es) e s.conditions w.controller
  | returned inner _ => inner.points route (.fresh e) (e :: es) w

theorem points_chain (choice : Choice) (route : Route) {timed : Bool} (next : Chain Supply .spread)
    (e : EdgeHandle) (es : List EdgeHandle) (w : Run) :
    (choice.chain next : Chain Supply (.fresh timed)).points route (.fresh e) es w =
      ⟨@Holder.role (.fresh timed) (.fresh e), es, w.controller, some (.mark e)⟩ ::
        choice.points route e es (w.reportRole (r := .fresh timed) (.fresh e)) ++
        choice.claimPoint route e es (w.reportRole (r := .fresh timed) (.fresh e)) ::
        match choice.run route e (w.reportRole (r := .fresh timed) (.fresh e)) with
        | (w, .ok fs) => next.points route (.spread fs) es w
        | (w, .error _) => [⟨.refused, es, w.controller, none⟩] := by
  cases choice <;> simp [chain, Chain.points, points]

theorem after_claimPoint (choice : Choice) (route : Route) (e : EdgeHandle) (es : List EdgeHandle)
    (w : Run) :
    (choice.claimPoint route e es w).after route = (choice.run route e w).1.controller := by
  cases hc : (choice.make route e w).1.controller.claim (w.controller.mark e) route
      (choice.make route e w).2 [] <;>
    simp [claimPoint, Point.after, run, Run.claim, hc, Access.perform]

end Choice

/-- The accesses of the points, made one after the other, lead from the first controller through
those of the points to the last. -/
def Leads (route : Route) : Controller → List Point → Controller → Prop
  | c, [], d => c = d
  | c, p :: ps, d => p.controller = c ∧ Leads route (p.after route) ps d

theorem Leads.append {route : Route} {c d f : Controller} {ps qs : List Point}
    (first : Leads route c ps d) (second : Leads route d qs f) : Leads route c (ps ++ qs) f := by
  induction ps generalizing c with
  | nil =>
    obtain rfl : c = d := first
    exact second
  | cons p ps ih => exact ⟨first.1, ih first.2⟩

/-- What every access preserves is true at all points and at the end. -/
theorem Leads.preserves {route : Route} {P : Controller → Prop}
    (hstep : ∀ (c : Controller) (access : Access), P c → P (access.perform route c))
    {c d : Controller} {ps : List Point} (h : Leads route c ps d) (hc : P c) :
    (∀ p ∈ ps, P p.controller) ∧ P d := by
  induction ps generalizing c with
  | nil =>
    obtain rfl : c = d := h
    exact ⟨by simp, hc⟩
  | cons p ps ih =>
    obtain ⟨rfl, hrest⟩ := h
    have hafter : P (p.after route) := by
      cases ha : p.access with
      | none => simpa [Point.after, ha] using hc
      | some access => simpa [Point.after, ha] using hstep p.controller access hc
    obtain ⟨hps, hd⟩ := ih hrest hafter
    exact ⟨List.forall_mem_cons.mpr ⟨hc, hps⟩, hd⟩

end Statechart
