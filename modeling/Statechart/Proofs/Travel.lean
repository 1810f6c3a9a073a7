import Statechart.Proofs.Rollback

/-! What a transition leaves, whatever chain gives it conditions: edges behind those that there
were, alike but for their conditions. -/

namespace Statechart

/-- The edge `e` of a controller, and those from the `n`th on, are alike but for conditions. -/
def Controller.Alike (t : Edge) (e : EdgeHandle) (n : Nat) (c : Controller) : Prop :=
  ∀ (i : Nat) (x : Edge), i = e.index ∨ n ≤ i → c.edges[i]? = some x → x = t.guarded x.conditions

theorem Effect.alike {t : Edge} (ht : t.Settled) {e : EdgeHandle} {n : Nat} {c d : Controller}
    (h : Effect t.route e n c d) (he : e.index < c.edges.length) (hc : c.Alike t e n) :
    d.Alike t e n := by
  refine h.common he (fun x cs hx => ?_) (fun c f x hx halike => ?_) hc
  · rw [Edge.guarded_conditions, hx]
    rfl
  · have hroute : x.route = t.route := by rw [halike]; rfl
    have hsettled : x.Settled := by rw [halike]; exact ht
    have hoff := Controller.offshoot_eq c f hx hsettled
    rw [hroute] at hoff
    rw [hoff, halike]
    rfl

/-- What a transition does that began with the last edge leaves the edges in front of it as they
were, and others behind that are the edge it began with but for their conditions. -/
theorem Effect.eq_withEdges {t : Edge} (ht : t.Settled) {c d : Controller}
    (hlt : c.edges.length < 2 ^ 32)
    (h : Effect t.route (.ofIndex c.edges.length) c.edges.length (c.withEdges (c.edges ++ [t])) d) :
    ∃ ds : List (List Condition), ds ≠ [] ∧ d = c.withEdges (c.edges ++ ds.map t.guarded) := by
  have hindex : (EdgeHandle.ofIndex c.edges.length).index = c.edges.length :=
    EdgeHandle.index_ofIndex hlt
  have hlength := h.length_le
  have hgrown := h.grown (by simp)
  have halike : (c.withEdges (c.edges ++ [t])).Alike t (.ofIndex c.edges.length)
      c.edges.length := by
    intro i x hi hx
    rw [hindex, or_iff_right_of_imp (fun h => by omega)] at hi
    rw [Controller.edges_withEdges, List.getElem?_append_right hi] at hx
    rw [List.mem_singleton.mp (List.mem_of_getElem? hx)]
    rfl
  have hfinal := h.alike ht (by simp [hindex]) halike
  have hfront : d.edges.take c.edges.length = c.edges := by
    apply List.ext_getElem?
    intro i
    by_cases hi : i < c.edges.length
    · obtain ⟨cs, hx, hcs⟩ := hgrown.kept i c.edges[i] hi (by
        rw [Controller.edges_withEdges, List.getElem?_append_left hi, List.getElem?_eq_getElem hi])
      rw [List.getElem?_take_of_lt hi, hx, hcs (by omega), List.append_nil, Edge.guarded_self,
        List.getElem?_eq_getElem hi]
    · rw [List.getElem?_eq_none (by rw [List.length_take]; omega),
        List.getElem?_eq_none (by omega)]
  have hback : d.edges.drop c.edges.length =
      ((d.edges.drop c.edges.length).map (·.conditions)).map t.guarded := by
    rw [List.map_map]
    refine (List.map_id _).symm.trans (List.map_congr_left fun x hx => ?_)
    obtain ⟨i, hi⟩ := List.getElem?_of_mem hx
    rw [List.getElem?_drop] at hi
    exact hfinal _ x (.inr (by omega)) hi
  have hsplit : d.edges = c.edges ++ d.edges.drop c.edges.length := by
    have hh := List.take_append_drop c.edges.length d.edges
    rw [hfront] at hh
    exact hh.symm
  have hrest : d = c.withEdges d.edges := congrArg (·.withEdges d.edges) hgrown.rest
  refine ⟨(d.edges.drop c.edges.length).map (·.conditions), ?_, ?_⟩
  · intro hnil
    have hzero := congrArg List.length hnil
    simp at hzero hlength
    omega
  · rw [← hback, ← hsplit]
    exact hrest

namespace Chain

/-- The settings made in front of a chain on a transition that was just started go to the one edge
there is yet. -/
theorem revise_started {c : Controller} {route : Route} {machine : MachineHandle}
    (hlt : c.edges.length < 2 ^ 32) (edits : List SettingsEdit) :
    (c.withEdges (c.edges ++ [c.blankEdge route machine])).revise (.ofIndex c.edges.length) edits =
      c.withEdges (c.edges ++ [(c.blankEdge route machine).edited edits]) := by
  rw [Controller.revise, Controller.edges_withEdges, EdgeHandle.index_ofIndex hlt,
    modify_length_append]
  rfl

/-- A chain on a transition that was just started leaves the controller as it was, with some edges
more, which are alike but for their conditions. -/
theorem run_start {c started : Controller} {o : Opening} {e : EdgeHandle} {route : Route}
    (hs : c.start o = .ok (started, e, route)) (chain : Chain Supply (.fresh (o.flavor = .timed)))
    {es : List EdgeHandle} {w : Run} (hw : w.controller = started)
    (hb : chain.Fits route (.fresh e) es w) :
    ∃ machine, ∃ ds : List (List Condition), c.plan o = .ok (machine, route) ∧
      (chain.run route (.fresh e) w).controller = c.withEdges (c.edges ++
        ds.map ((c.blankEdge route machine).edited chain.edits).guarded) := by
  obtain ⟨machine, hplan, rfl, rfl⟩ := Controller.start_eq_ok c e route hs
  have hlt := hb.length_lt
  rw [hw, Controller.edges_withEdges, List.length_append, List.length_singleton] at hlt
  have heffect := chain.confined route (n := c.edges.length) (e := .ofIndex c.edges.length)
    (k := .fresh (.ofIndex c.edges.length)) (w := w) (by rw [hw]; simp)
    (by simpa using .start) (fun _ => rfl) hb
  rw [hw, revise_started (by omega)] at heffect
  obtain ⟨ds, -, hd⟩ :=
    heffect.eq_withEdges ((c.settled_blankEdge route machine).edited chain.edits) (by omega)
  exact ⟨machine, ds, hplan, hd⟩

end Chain

end Statechart
