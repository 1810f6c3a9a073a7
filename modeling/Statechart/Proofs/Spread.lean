import Statechart.Proofs.Rollback

/-! A choice that is made. It holds the edges of its tokens, each of them once, and the conditions
that follow go to these edges and to no others. -/

namespace Statechart

/-- The conditions that a chain on spread edges adds to each of them. -/
def Chain.additions : {r : Role} → Chain Supply r → List Condition
  | _, andEach s next => s.conditions ++ next.additions
  | _, andAllEach s next => s.conditions ++ next.additions
  | _, _ => []

namespace Controller

/-- Further conditions for some edges. -/
def spread (c : Controller) (held : List EdgeHandle) (cs : List Condition) : Controller :=
  c.withEdges (c.edges.mapIdx fun i x =>
    if i ∈ held.map (·.index) then x.guarded (x.conditions ++ cs) else x)

variable {c : Controller} {m : Mark} {route : Route} {held : List EdgeHandle}

theorem getElem?_edges_spread (c : Controller) (held : List EdgeHandle) (cs : List Condition)
    (i : Nat) :
    (c.spread held cs).edges[i]? = c.edges[i]?.map fun x =>
      if i ∈ held.map (·.index) then x.guarded (x.conditions ++ cs) else x := by
  rw [spread, edges_withEdges, List.getElem?_mapIdx]

theorem eq_of_getElem?_edges {d : Controller} (hrest : d.withEdges c.edges = c)
    (h : ∀ i : Nat, d.edges[i]? = c.edges[i]?) : d = c := by
  have hedges : d.edges = c.edges := List.ext_getElem? h
  rw [← hrest, ← hedges, withEdges_edges]

theorem spread_nil (c : Controller) (held : List EdgeHandle) : c.spread held [] = c := by
  refine eq_of_getElem?_edges rfl fun i => ?_
  rw [getElem?_edges_spread]
  cases c.edges[i]? <;> simp [Edge.guarded_self]

theorem spread_spread (c : Controller) (held : List EdgeHandle) (cs ds : List Condition) :
    (c.spread held cs).spread held ds = c.spread held (cs ++ ds) := by
  refine eq_of_getElem?_edges rfl fun i => ?_
  rw [getElem?_edges_spread, getElem?_edges_spread, getElem?_edges_spread]
  cases c.edges[i]? with
  | none => rfl
  | some x => by_cases hi : i ∈ held.map (·.index) <;> simp [hi]

theorem spread_cons {e : EdgeHandle} (he : e ∉ held) (c : Controller) (cs : List Condition) :
    (c.appendConditions e cs).spread held cs = c.spread (e :: held) cs := by
  have hindex : e.index ∉ held.map (·.index) := by
    intro hmem
    obtain ⟨f, hf, heq⟩ := List.mem_map.mp hmem
    exact he (EdgeHandle.eq_of_index_eq heq ▸ hf)
  refine eq_of_getElem?_edges rfl fun i => ?_
  rw [getElem?_edges_spread, getElem?_edges_spread, edges_appendConditions, List.getElem?_modify]
  cases c.edges[i]? with
  | none => rfl
  | some x =>
    by_cases hi : e.index = i
    · subst hi
      simp [hindex]
    · have hne : ¬i = e.index := fun h => hi h.symm
      simp [hi, hne]

/-- The edges claimed are those of the tokens in the order of their first mention, behind the ones
found before. -/
theorem claim_eq (ts : List Clause) {found held : List EdgeHandle}
    (h : c.claim m route ts found = .ok held) :
    held = found ++ ((ts.map (·.edge)).removeAll found).eraseDups := by
  induction ts generalizing found with
  | nil =>
    simp only [claim, Except.ok.injEq] at h
    simp [h]
  | cons t ts ih =>
    simp only [claim] at h
    split at h
    · rw [ih h]
      by_cases ht : t.edge ∈ found
      · simp [ht, List.removeAll]
      · have hfilter : (ts.map (·.edge)).removeAll (found ++ [t.edge]) =
            ((ts.map (·.edge)).removeAll found).filter fun f => !f == t.edge := by
          simp only [List.removeAll, List.filter_filter]
          refine List.filter_congr fun f _ => ?_
          by_cases hf : f = t.edge <;> simp [hf]
        have hcons : (t.edge :: ts.map (·.edge)).removeAll found =
            t.edge :: (ts.map (·.edge)).removeAll found := by
          simp [List.removeAll, ht]
        rw [if_neg ht, hfilter, List.map_cons, hcons, List.eraseDups_cons, List.append_assoc,
          List.singleton_append]
    · cases h

theorem nodup_of_claim (ts : List Clause) {found held : List EdgeHandle} (hn : found.Nodup)
    (h : c.claim m route ts found = .ok held) : held.Nodup := by
  induction ts generalizing found with
  | nil =>
    simp only [claim, Except.ok.injEq] at h
    rwa [← h]
  | cons t ts ih =>
    simp only [claim] at h
    split at h
    · refine ih ?_ h
      split
      · exact hn
      · rename_i ht
        exact List.nodup_append.mpr
          ⟨hn, by simp, by simpa using fun f hf => ne_of_mem_of_not_mem hf ht⟩
    · cases h

end Controller

namespace Run

theorem foldl_eq_spread {step : Run → EdgeHandle → Run} {cs : List Condition}
    (hstep : ∀ w e, (step w e).controller = w.controller.appendConditions e cs)
    {held : List EdgeHandle} (hn : held.Nodup) (w : Run) :
    (held.foldl step w).controller = w.controller.spread held cs := by
  induction held generalizing w with
  | nil =>
    refine (Controller.eq_of_getElem?_edges rfl fun i => ?_).symm
    rw [Controller.getElem?_edges_spread]
    simp
  | cons e held ih =>
    have hn' := List.nodup_cons.mp hn
    rw [List.foldl_cons, ih hn'.2, hstep, Controller.spread_cons hn'.1]

end Run

/-- Whatever follows on spread edges adds its conditions once to each of them. -/
theorem Chain.controller_run_spread (route : Route) {held : List EdgeHandle} (hn : held.Nodup) :
    (next : Chain Supply .spread) → (w : Run) →
      (next.run route (.spread held) w).controller = w.controller.spread held next.additions
  | stop, w => by simp [run, additions, Controller.spread_nil]
  | unreadable _, w => by simp [run, additions, Controller.spread_nil]
  | andEach s next, w => by
    have hfold : (held.foldl (·.append · s) (w.reportRole (.spread held))).controller =
        w.controller.spread held s.conditions := by
      rw [Run.foldl_eq_spread (fun w e => w.controller_append e s) hn, Run.controller_reportRole]
    rw [run, controller_run_spread route hn next, hfold, Controller.spread_spread]
    rfl
  | andAllEach s next, w => by
    have hstep (w : Run) (e : EdgeHandle) : (w.appendSeries e s).controller =
        w.controller.appendConditions e s.conditions := by simp
    have hfold : (held.foldl (·.appendSeries · s) (w.reportRole (.spread held))).controller =
        w.controller.spread held s.conditions := by
      rw [Run.foldl_eq_spread hstep hn, Run.controller_reportRole]
    rw [run, controller_run_spread route hn next, hfold, Controller.spread_spread]
    rfl

namespace Choice

variable {route : Route} {e : EdgeHandle} {es : List EdgeHandle} {w : Run}

/-- A choice is made exactly if all tokens that it returns are acceptable. It then holds their
edges, each of them once and in the order of their first mention, and the calls that follow add
their conditions once to each of these edges. All else stays as the alternatives have left it. -/
theorem spread_of_run (choice : Choice) {timed : Bool}
    (hb : choice.Fits route e es (w.reportRole (r := .fresh timed) (.fresh e))) :
    let made := choice.make route e (w.reportRole (r := .fresh timed) (.fresh e))
    let answer := (choice.run route e (w.reportRole (r := .fresh timed) (.fresh e))).2
    ((∃ held, answer = .ok held) ↔
        ∀ t ∈ made.2, t.Acceptable route e w.controller made.1.controller) ∧
      ∀ held, answer = .ok held →
        held = (made.2.map (·.edge)).eraseDups ∧ held.Nodup ∧
        ∀ next : Chain Supply .spread,
          ((choice.chain next : Chain Supply (.fresh timed)).run route (.fresh e) w).controller =
            made.1.controller.spread held next.additions := by
  intro made answer
  have hcontroller := w.controller_reportRole (r := .fresh timed) (.fresh e)
  have hgrown := (choice.effect_make hb).grown (Nat.le_refl _)
  rw [hcontroller] at hgrown
  have hid : made.1.controller.id = w.controller.id := hgrown.id_eq
  have hrun : choice.run route e (w.reportRole (r := .fresh timed) (.fresh e)) =
      made.1.claim (w.controller.mark e) route made.2 := by
    rw [← hcontroller]
    rfl
  have hclaimed (held : List EdgeHandle) : answer = .ok held ↔
      made.1.controller.claim (w.controller.mark e) route made.2 [] = .ok held := by
    simp only [answer, hrun, Run.claim]
    cases made.1.controller.claim (w.controller.mark e) route made.2 [] <;> simp
  refine ⟨?_, fun held hheld => ?_⟩
  · rw [exists_congr hclaimed, Controller.exists_claim_iff]
    exact forall₂_congr fun t _ => Controller.owns_iff_acceptable hid
  · have hclaim := (hclaimed held).mp hheld
    have hn := Controller.nodup_of_claim made.2 List.nodup_nil hclaim
    refine ⟨by simpa using Controller.claim_eq made.2 hclaim, hn, fun next => ?_⟩
    rw [run_chain, hrun]
    simp only [Run.claim, hclaim]
    exact Chain.controller_run_spread route hn next made.1

theorem spread_of_run_repeated :
    let route := Route.anyState Controller.bareRoot (.machine Controller.bareRoot)
    let c := (Controller.bare.createEdge Controller.bareRoot route).1
    let cond (name : String) : Condition := ⟨name, .isTrue, .zero false⟩
    let supply (name : String) := Supply.ofConditions [cond name]
    let inner : Chain Supply (.fresh false) :=
      .when (supply "a") (.keep "first" (.or (.when (supply "b") (.or
        (.when (supply "c") (.keep "third" .stop))))))
    let next : Chain Supply .spread :=
      .andEach (supply "d") (.andAllEach (.nested (.and (supply "e") .done) .done) .stop)
    let choice := returned inner ["third", "first", "third"]
    let w : Run := ⟨c, [], [], []⟩
    choice.Fits route (.ofIndex 0) [] (w.reportRole (r := .fresh true) (.fresh (.ofIndex 0))) ∧
    (((choice.chain next : Chain Supply (.fresh true)).run route (.fresh (.ofIndex 0))
      w).controller.edges.map (·.conditions)) =
        [[cond "a", cond "d", cond "e"], [cond "b"], [cond "c", cond "d", cond "e"]] := by
  intro route c cond supply inner next choice w
  have hb : choice.Fits route (.ofIndex 0) []
      (w.reportRole (r := .fresh true) (.fresh (.ofIndex 0))) := by
    unfold Fits
    decide
  have hmade : (choice.run route (.ofIndex 0)
      (w.reportRole (r := .fresh true) (.fresh (.ofIndex 0)))).2 =
        .ok [.ofIndex 2, .ofIndex 0] := rfl
  refine ⟨hb, ?_⟩
  rw [((spread_of_run choice hb).2 _ hmade).2.2 next]
  rfl

end Choice

end Statechart
