import Statechart.Proofs.Effect

/-! Taking back a choice. What a transition does since it is marked lies behind the edges that
there were, or behind the conditions of the marked edge, so that the mark tells enough to undo
it. -/

namespace Statechart

/-- What there was in `c` is still there in `d`, and of the first `n` edges only `e` has further
conditions. -/
structure Grown (e : EdgeHandle) (n : Nat) (c d : Controller) : Prop where
  rest : d.withEdges c.edges = c
  length_le : c.edges.length ≤ d.edges.length
  kept : ∀ i x, i < n → c.edges[i]? = some x →
    ∃ cs, d.edges[i]? = some (x.guarded (x.conditions ++ cs)) ∧ (i ≠ e.index → cs = [])

namespace Grown

variable {route : Route} {e f : EdgeHandle} {n : Nat} {a b c d : Controller}

theorem refl : Grown e n c c where
  rest := rfl
  length_le := Nat.le_refl _
  kept i x _ hx := ⟨[], by rw [List.append_nil, Edge.guarded_self, hx], fun _ => rfl⟩

theorem trans (first : Grown e n a b) (second : Grown e n b c) : Grown e n a c where
  rest := by
    have hrest : c.withEdges a.edges = (c.withEdges b.edges).withEdges a.edges := rfl
    rw [hrest, second.rest, first.rest]
  length_le := Nat.le_trans first.length_le second.length_le
  kept i x hi hx := by
    obtain ⟨cs, hb, hcs⟩ := first.kept i x hi hx
    obtain ⟨ds, hc, hds⟩ := second.kept i _ hi hb
    refine ⟨cs ++ ds, by simpa using hc, fun hne => ?_⟩
    rw [hcs hne, hds hne, List.append_nil]

theorem append (hf : c.Own e n f) (cs : List Condition) :
    Grown e n c (c.appendConditions f cs) where
  rest := rfl
  length_le := by simp
  kept i x hi hx := by
    by_cases h : i = f.index
    · have hstart : f = e := hf.resolve_right (by omega)
      exact ⟨cs, by simp [← h, hx], fun hne => absurd (hstart ▸ h) hne⟩
    · have hne : ¬f.index = i := fun heq => h heq.symm
      exact ⟨[], by simp [hne, hx, Edge.guarded_self], fun _ => rfl⟩

theorem fork (f : EdgeHandle) : Grown e n c (c.fork f route).1 where
  rest := rfl
  length_le := by simp
  kept i x _ hx := by
    have hlt := (List.getElem?_eq_some_iff.mp hx).1
    exact ⟨[], by simp [List.getElem?_append_left hlt, hx, Edge.guarded_self], fun _ => rfl⟩

/-- A mark tells enough to undo what was done since. -/
theorem rollback_eq (h : Grown e c.edges.length c d) : d.rollback (c.mark e) = c := by
  have hedges : (d.rollback (c.mark e)).edges = c.edges := by
    apply List.ext_getElem?
    intro i
    by_cases hi : i < c.edges.length
    · obtain ⟨x, hx⟩ : ∃ x, c.edges[i]? = some x := ⟨_, List.getElem?_eq_getElem hi⟩
      obtain ⟨cs, hd, hcs⟩ := h.kept i x hi hx
      by_cases he : i = e.index
      · subst he
        simp [Controller.mark, List.getElem?_take_of_lt hi, hd, hx, Edge.guarded_self]
      · have hne : ¬e.index = i := fun heq => he heq.symm
        simp [Controller.mark, List.getElem?_take_of_lt hi, hd, hx, hcs he, hne, Edge.guarded_self]
    · have hle := h.length_le
      have hlen : (d.rollback (c.mark e)).edges.length = c.edges.length := by
        simp [Controller.mark, hle]
      rw [List.getElem?_eq_none (by omega), List.getElem?_eq_none (by omega)]
  have hrest : d.rollback (c.mark e) = d.withEdges (d.rollback (c.mark e)).edges := rfl
  rw [hrest, hedges, h.rest]

end Grown

/-- What a transition may do adds to the controller, and leaves the edges in front of it alone. -/
theorem Effect.grown {route : Route} {e : EdgeHandle} {n : Nat} {c d : Controller}
    (h : Effect route e n c d) (hn : n ≤ c.edges.length) : Grown e n c d := by
  induction h with
  | refl => exact .refl
  | trans first _ ihFirst ihSecond =>
    have hle := first.length_le
    exact (ihFirst hn).trans (ihSecond (by omega))
  | append own cs => exact .append own cs
  | fork own => exact .fork _
  | refuse own inner ih =>
    -- the inner transition began when all of these edges were there, so it is undone exactly
    rw [(ih (Nat.le_refl _)).rollback_eq]
    exact .refl

/-- What the edges of a transition have in common they keep, if neither conditions nor forks take it
away. -/
theorem Effect.common {P : Edge → Prop} {route : Route} {e : EdgeHandle} {n : Nat}
    {c d : Controller} (h : Effect route e n c d) (he : e.index < c.edges.length)
    (hguard : ∀ x cs, P x → P (x.guarded cs))
    (hfork : ∀ (c : Controller) (f : EdgeHandle) (x : Edge), c.edges[f.index]? = some x → P x →
      P (c.offshoot f route))
    (hc : ∀ (i : Nat) (x : Edge), i = e.index ∨ n ≤ i → c.edges[i]? = some x → P x) :
    ∀ (i : Nat) (x : Edge), i = e.index ∨ n ≤ i → d.edges[i]? = some x → P x := by
  induction h with
  | refl => exact hc
  | trans first _ ihFirst ihSecond =>
    have hle := first.length_le
    exact ihSecond (by omega) (ihFirst he hc)
  | append own cs =>
    intro i x hi hx
    rw [Controller.edges_appendConditions, List.getElem?_modify] at hx
    obtain ⟨y, hy, rfl⟩ := Option.map_eq_some_iff.mp hx
    have hold := hc i y hi hy
    split
    · exact hguard y _ hold
    · exact hold
  | @fork e f n c own =>
    intro i x hi hx
    rw [Controller.edges_fork] at hx
    by_cases hlt : i < c.edges.length
    · rw [List.getElem?_append_left hlt] at hx
      exact hc i x hi hx
    · have hf : f.index < c.edges.length ∧ (f.index = e.index ∨ n ≤ f.index) := by
        rcases own with rfl | ⟨hle, hlt⟩
        · exact ⟨he, .inl rfl⟩
        · exact ⟨hlt, .inr hle⟩
      have hy := List.getElem?_eq_getElem hf.1
      rw [List.getElem?_append_right (by omega)] at hx
      rw [List.mem_singleton.mp (List.mem_of_getElem? hx)]
      exact hfork c f _ hy (hc f.index _ hf.2 hy)
  | refuse own inner _ =>
    rw [(inner.grown (Nat.le_refl _)).rollback_eq]
    exact hc

/-- A token is acceptable to a choice made on the edge `e` of the controller `before` if it is for
that controller, and for `e` or an edge that was added while the alternatives were made, where
that edge leads along the same route. -/
def Clause.Acceptable (route : Route) (e : EdgeHandle) (before after : Controller) (t : Clause) :
    Prop :=
  t.controller = before.id ∧ (t.edge = e ∨ before.edges.length ≤ t.edge.index) ∧
    ∃ x, after.edges[t.edge.index]? = some x ∧ x.route = route

theorem Grown.id_eq {e : EdgeHandle} {n : Nat} {c d : Controller} (h : Grown e n c d) :
    d.id = c.id := by
  rw [← d.id_withEdges c.edges, h.rest]

namespace Controller

variable {c d : Controller} {e : EdgeHandle} {route : Route}

theorem owns_iff_acceptable (h : d.id = c.id) {t : Clause} :
    d.owns (c.mark e) route t = true ↔ t.Acceptable route e c d := by
  rw [owns_iff, h]
  constructor
  · rintro ⟨hid, hown, hx⟩
    exact ⟨hid, hown.imp_right And.left, hx⟩
  · rintro ⟨hid, hown, x, hx, hroute⟩
    have hlt := (List.getElem?_eq_some_iff.mp hx).1
    exact ⟨hid, hown.imp_right fun hle => ⟨hle, hlt⟩, x, hx, hroute⟩

theorem exists_claim_iff {m : Mark} (ts : List Clause) (found : List EdgeHandle) :
    (∃ es, c.claim m route ts found = .ok es) ↔ ∀ t ∈ ts, c.owns m route t = true := by
  induction ts generalizing found with
  | nil => simp [claim]
  | cons t ts ih =>
    rw [List.forall_mem_cons, claim]
    split
    · rename_i ht
      rw [ih, and_iff_right ht]
    · rename_i ht
      exact iff_of_false (by simp) fun h => ht h.1

theorem claim_error {m : Mark} {fault : Fault} (ts : List Clause) {found : List EdgeHandle}
    (h : c.claim m route ts found = .error fault) :
    ∃ front t rest, ts = front ++ t :: rest ∧ (∀ u ∈ front, c.owns m route u = true) ∧
      c.owns m route t ≠ true ∧ fault = .foreignClause t.edge := by
  induction ts generalizing found with
  | nil => simp [claim] at h
  | cons t ts ih =>
    simp only [claim] at h
    split at h
    · rename_i ht
      obtain ⟨front, u, rest, rfl, hfront, hu, rfl⟩ := ih h
      refine ⟨t :: front, u, rest, rfl, fun v hv => ?_, hu, rfl⟩
      rcases List.mem_cons.mp hv with rfl | hv
      · exact ht
      · exact hfront v hv
    · rename_i ht
      cases h
      exact ⟨[], t, ts, rfl, by simp, ht, rfl⟩

end Controller

namespace Choice

variable {route : Route} {e : EdgeHandle} {es : List EdgeHandle} {w : Run}

/-- A choice that is refused leaves the whole controller as it was, whatever was done to make the
alternatives, and names the edge of the first token that is not acceptable. -/
theorem controller_of_refused (choice : Choice) (next : Chain Supply .spread) {timed : Bool}
    {fault : Fault} (hb : choice.Fits route e es (w.reportRole (r := .fresh timed) (.fresh e)))
    (hr : (choice.run route e (w.reportRole (r := .fresh timed) (.fresh e))).2 = .error fault) :
    let made := choice.make route e (w.reportRole (r := .fresh timed) (.fresh e))
    ((choice.chain next : Chain Supply (.fresh timed)).run route (.fresh e) w).controller =
        w.controller ∧
      ∃ front t rest, made.2 = front ++ t :: rest ∧
        (∀ u ∈ front, u.Acceptable route e w.controller made.1.controller) ∧
        ¬t.Acceptable route e w.controller made.1.controller ∧ fault = .foreignClause t.edge := by
  intro made
  have hcontroller := w.controller_reportRole (r := .fresh timed) (.fresh e)
  have hgrown := (choice.effect_make hb).grown (Nat.le_refl _)
  rw [hcontroller] at hgrown
  have hid : made.1.controller.id = w.controller.id := hgrown.id_eq
  have hrun : choice.run route e (w.reportRole (r := .fresh timed) (.fresh e)) =
      made.1.claim (w.controller.mark e) route made.2 := by
    rw [← hcontroller]
    rfl
  rw [run_chain]
  rw [hrun] at hr ⊢
  cases hc : made.1.controller.claim (w.controller.mark e) route made.2 [] with
  | ok fs => simp [Run.claim, hc] at hr
  | error cause =>
    obtain ⟨front, t, rest, hsplit, hfront, ht, rfl⟩ := Controller.claim_error made.2 hc
    obtain rfl : .foreignClause t.edge = fault := by simpa [Run.claim, hc] using hr
    refine ⟨?_, front, t, rest, hsplit, fun u hu => ?_, fun hacceptable => ht ?_, rfl⟩
    · simp only [Run.claim, hc, Run.controller_report, Run.controller_onController]
      exact hgrown.rollback_eq
    · exact (Controller.owns_iff_acceptable hid).mp (hfront u hu)
    · exact (Controller.owns_iff_acceptable hid).mpr hacceptable

theorem controller_of_refused_earlier :
    let route := Route.anyState Controller.bareRoot (.machine Controller.bareRoot)
    let c := ((Controller.bare.createEdge Controller.bareRoot route).1.createEdge
      Controller.bareRoot route).1
    let supply (name : String) := Supply.ofConditions [⟨name, .isTrue, .zero false⟩]
    let inner : Chain Supply (.fresh false) :=
      .when (supply "a") (.keep "mine" (.or (.when (supply "b") (.and (supply "c") .stop))))
    let w : Run := ⟨c, [("earlier", ⟨c.id, .ofIndex 0⟩)], [], []⟩
    ((returned inner ["mine", "earlier"]).run route (.ofIndex 1)
        (w.reportRole (r := .fresh true) (.fresh (.ofIndex 1)))).2 =
      .error (.foreignClause (.ofIndex 0)) ∧
    (((returned inner ["mine", "earlier"]).chain .stop : Chain Supply (.fresh true)).run route
      (.fresh (.ofIndex 1)) w).controller = c := by
  intro route c supply inner w
  have hb : (returned inner ["mine", "earlier"]).Fits route (.ofIndex 1) []
      (w.reportRole (r := .fresh true) (.fresh (.ofIndex 1))) := by
    unfold Fits
    decide
  have hr : ((returned inner ["mine", "earlier"]).run route (.ofIndex 1)
      (w.reportRole (r := .fresh true) (.fresh (.ofIndex 1)))).2 =
        .error (.foreignClause (.ofIndex 0)) := rfl
  exact ⟨hr, (controller_of_refused _ .stop hb hr).1⟩

end Choice

end Statechart
