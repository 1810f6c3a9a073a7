import Statechart.Chain
import Statechart.Clause
import Statechart.Supply

/-! Running a chain on an edge of a controller. A run reports the roles it passes through, and
keeps the clause tokens that the chain asks for. -/

namespace Statechart

/-- What a role holds: one edge, or several where conditions are spread. -/
inductive Cursor : Role → Type where
  | fresh {timed : Bool} (edge : EdgeHandle) : Cursor (.fresh timed)
  | clause (edge : EdgeHandle) : Cursor .clause
  | forked (edge : EdgeHandle) : Cursor .forked
  | spread (edges : List EdgeHandle) : Cursor .spread

inductive Report where
  | timed (edge : EdgeHandle) (settings : Option TransitionSettings)
  | fresh (edge : EdgeHandle)
  | clause (edge : EdgeHandle)
  | forked (edge : EdgeHandle)
  | spread (edges : List EdgeHandle)
  | series (edge : EdgeHandle)
  | anyOf (conditions : List Condition)
  | refused (fault : Fault)
  deriving DecidableEq

/-- A controller under work, with the tokens kept by name, the reports so far, and the gaps that
were met. -/
structure Run where
  controller : Controller
  tokens : List (String × Clause)
  reports : List Report
  gaps : List Gap

namespace Run

def report (w : Run) (r : Report) : Run := { w with reports := w.reports ++ [r] }

def onController (w : Run) (f : Controller → Controller) : Run :=
  { w with controller := f w.controller }

def meet (w : Run) (gaps : List Gap) : Run := { w with gaps := w.gaps ++ gaps }

def append (w : Run) (e : EdgeHandle) (s : Supply) : Run :=
  (w.onController (·.appendConditions e s.conditions)).meet s.gaps

/-- The calls of a series one after the other; a series inside it goes to the same edge. Every call
reports that edge. -/
def appendSeries (w : Run) (e : EdgeHandle) : Series Supply → Run
  | .done => w
  | .and s next => ((w.report (.series e)).append e s).appendSeries e next
  | .nested inner next => ((w.report (.series e)).appendSeries e inner).appendSeries e next

def fork (w : Run) (e : EdgeHandle) (route : Route) : Run × EdgeHandle :=
  let (c, next) := w.controller.fork e route
  ({ w with controller := c }, next)

/-- Gives each condition an edge of its own, and answers a token for each of those edges. -/
def forkEach (w : Run) (route : Route) (e : EdgeHandle) (cs : List Condition) :
    Run × List Clause :=
  let (c, es) := w.controller.forkEach route e cs
  ({ w with controller := c }, es.map (⟨c.id, ·⟩))

def keep (w : Run) (slot : String) (e : EdgeHandle) : Run :=
  { w with tokens := (slot, ⟨w.controller.id, e⟩) :: w.tokens }

/-- The tokens kept under some names; a name without a token is a gap. -/
def collect (w : Run) (slots : List String) : Run × List Clause :=
  (w.meet ((slots.filter fun s => (w.tokens.lookup s).isNone).map .token),
    slots.filterMap fun s => w.tokens.lookup s)

/-- Claims the edges of the tokens returned; where one is foreign, the edges are put back as they
were at the mark. -/
def claim (w : Run) (m : Mark) (route : Route) (tokens : List Clause) :
    Run × Except Fault (List EdgeHandle) :=
  match w.controller.claim m route tokens [] with
  | .ok es => (w, .ok es)
  | .error f => (w.onController (·.rollback m), .error f)

def reportRole (w : Run) : {r : Role} → Cursor r → Run
  | .fresh true, .fresh e =>
    w.report (.timed e (w.controller.edges[e.index]?.bind (·.settings)))
  | .fresh false, .fresh e => w.report (.fresh e)
  | _, .clause e => w.report (.clause e)
  | _, .forked e => w.report (.forked e)
  | _, .spread es => w.report (.spread es)

end Run

namespace Chain

/-- Every call is reported by the role it leads to, behind what the call reports itself. A chain
ends where its alternatives are refused; the chain around it goes on. Gaps are met only in calls
that are made, and a call on no edge at all makes no use of its conditions. -/
def run (route : Route) : {r : Role} → Chain Supply r → Cursor r → Run → Run
  | _, stop, k, w => w.reportRole k
  | _, unreadable reason, k, w => (w.reportRole k).meet [.unreadable reason]
  | _, set edit next, k@(.fresh e), w =>
    next.run route (.fresh e) ((w.reportRole k).onController (·.modifySettings e (edit.apply ·)))
  | _, settle next, k@(.fresh e), w => next.run route (.fresh e) (w.reportRole k)
  | _, when s next, k@(.fresh e), w =>
    next.run route (.clause e) ((w.reportRole k).append e s)
  | _, whenAll s next, k@(.fresh e), w =>
    next.run route (.clause e) ((w.reportRole k).appendSeries e s)
  | _, whenAlways next, k@(.fresh e), w => next.run route (.clause e) (w.reportRole k)
  | _, whenWithOr inner next, k@(.fresh e), w =>
    next.run route (.forked e) (inner.run route (.fresh e) (w.reportRole k))
  | _, whenAnyOf s next, k@(.fresh e), w =>
    let w := ((w.reportRole k).meet s.gaps).report (.anyOf s.conditions)
    let m := w.controller.mark e
    let (w, tokens) := w.forkEach route e s.conditions
    match w.claim m route tokens with
    | (w, .ok es) => next.run route (.spread es) w
    | (w, .error f) => w.report (.refused f)
  | _, whenAny inner slots next, k@(.fresh e), w =>
    let w := w.reportRole k
    let m := w.controller.mark e
    let (w, tokens) := (inner.run route (.fresh e) w).collect slots
    match w.claim m route tokens with
    | (w, .ok es) => next.run route (.spread es) w
    | (w, .error f) => w.report (.refused f)
  | _, and s next, k@(.clause e), w =>
    next.run route (.clause e) ((w.reportRole k).append e s)
  | _, andAll s next, k@(.clause e), w =>
    next.run route (.clause e) ((w.reportRole k).appendSeries e s)
  | _, keep slot next, k@(.clause e), w =>
    next.run route (.clause e) ((w.reportRole k).keep slot e)
  | _, or next, k@(.clause e), w =>
    let (w, forked) := (w.reportRole k).fork e route
    next.run route (.fresh forked) w
  | _, orElse next, k@(.forked e), w =>
    let (w, forked) := (w.reportRole k).fork e route
    next.run route (.fresh forked) w
  | _, andEach s next, k@(.spread es), w =>
    next.run route k (es.foldl (·.append · s) (w.reportRole k))
  | _, andAllEach s next, k@(.spread es), w =>
    next.run route k (es.foldl (·.appendSeries · s) (w.reportRole k))

end Chain

end Statechart
