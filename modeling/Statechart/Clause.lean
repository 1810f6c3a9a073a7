import Statechart.Transition

/-! Clause tokens, and taking back a transition whose alternatives are not its own. -/

namespace Statechart

/-- A token for one clause of a transition: an edge of a controller. -/
structure Clause where
  controller : Uuid
  edge : EdgeHandle
  deriving DecidableEq

/-- The edges of a controller before a transition is forked. -/
structure Mark where
  start : EdgeHandle
  startConditions : Nat
  next : Nat

namespace Controller

def mark (c : Controller) (start : EdgeHandle) : Mark where
  start := start
  startConditions := (c.edges[start.index]?.map (·.conditions.length)).getD 0
  next := c.edges.length

/-- Drops the edges made since the mark, and the conditions added to the marked edge. -/
def rollback (c : Controller) (m : Mark) : Controller :=
  { c with edges := c.edges.take m.next }.modifyEdge m.start fun e =>
    { e with conditions := e.conditions.take m.startConditions }

/-- Whether a token stands for the marked edge or an edge made since, with the route given. -/
def owns (c : Controller) (m : Mark) (route : Route) (token : Clause) : Bool :=
  token.controller = c.id &&
    (token.edge = m.start || m.next ≤ token.edge.index && token.edge.index < c.edges.length) &&
    c.edges[token.edge.index]?.any (·.route = route)

/-- The edges of tokens that all belong to the transition, each once in order of first mention. -/
def claim (c : Controller) (m : Mark) (route : Route) :
    List Clause → List EdgeHandle → Except Fault (List EdgeHandle)
  | [], found => .ok found
  | t :: ts, found =>
    if c.owns m route t then
      claim c m route ts (if t.edge ∈ found then found else found ++ [t.edge])
    else .error (.foreignClause t.edge)

/-- Gives each condition an edge of its own, beginning with the edge at hand, and answers those
edges. Without a condition the edge at hand is the only one. -/
def forkEach (c : Controller) (route : Route) (e : EdgeHandle) :
    List Condition → Controller × List EdgeHandle
  | [] => (c, [e])
  | [x] => (c.appendConditions e [x], [e])
  | x :: xs =>
    let (c, next) := (c.appendConditions e [x]).fork e route
    let (c, es) := c.forkEach route next xs
    (c, e :: es)

end Controller

end Statechart
