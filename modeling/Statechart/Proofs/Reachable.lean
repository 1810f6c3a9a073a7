import Statechart.Proofs.Actions
import Statechart.Proofs.Travel

/-! The controllers that can be reached by authoring, from a new one or from a snapshot, and that
each of them can be saved and restored. -/

namespace Statechart

/-- What can be done to a controller: an authoring step, a change of an attached object, and a
transition with a chain that gives it conditions. -/
inductive Operation where
  | act (action : Action)
  | change (node : NodeHandle) (kind : AttachmentKind) (f : kind.Value → kind.Value)
  | travel (opening : Opening) (chain : Chain Supply (.fresh (opening.flavor = .timed)))
      (tokens : List (String × Clause))

namespace Operation

/-- The controller behind an operation, which is the one in front of it where it is refused. -/
def apply (c : Controller) : Operation → Controller
  | act a => match a.perform c with
    | .ok (d, _) => d
    | .error _ => c
  | change n kind f => match c.attach n kind f with
    | .ok d => d
    | .error _ => c
  | travel o chain tokens => match c.start o with
    | .ok (started, e, route) => (chain.run route (.fresh e) ⟨started, tokens, [], []⟩).controller
    | .error _ => c

def Fits (c : Controller) : Operation → Prop
  | act _ | change _ _ _ => True
  | travel o chain tokens => ∀ started e route, c.start o = .ok (started, e, route) →
    chain.Fits route (.fresh e) [] ⟨started, tokens, [], []⟩

theorem builds_apply {c : Controller} {op : Operation} (hf : op.Fits c) :
    c.Builds (op.apply c) := by
  cases op with
  | act a =>
    simp only [apply]
    split
    · rename_i d answer h
      exact Action.builds_perform h
    · exact .refl
  | change n kind f =>
    simp only [apply]
    split
    · rename_i d h
      exact Controller.builds_attach h
    · exact .refl
  | travel o chain tokens =>
    simp only [apply]
    split
    · rename_i started e route h
      obtain ⟨m, ds, hplan, hfinal⟩ := chain.run_start h rfl (hf started e route h)
      rw [hfinal]
      refine .single (.extend fun _ => ⟨_, rfl, fun x hx => ?_⟩)
      obtain ⟨d, -, rfl⟩ := List.mem_map.mp hx
      exact ⟨(c.settled_blankEdge route m).edited chain.edits, .inl ⟨o, hplan⟩⟩
    · exact .refl

theorem sound_apply {c : Controller} {op : Operation} (hf : op.Fits c)
    (hb : (op.apply c).edges.length < 2 ^ 32) : c.Sound (op.apply c) :=
  (builds_apply hf).sound hb

end Operation

theorem Controller.linked_new (id : Uuid) (name : String) (defaults : Defaults) :
    (Controller.new id name defaults).Linked where
  layers _ hl := absurd hl List.not_mem_nil
  nodes _ _ hn := nomatch hn
  edges _ hx := absurd hx List.not_mem_nil

inductive Reachable : Controller → Prop
  | new (id : Uuid) (name : String) (defaults : Defaults) : Reachable (.new id name defaults)
  | restored {s : Snapshot} {c : Controller} (h : Controller.restore s = .ok c) : Reachable c
  | operate {c : Controller} (h : Reachable c) (op : Operation) (hf : op.Fits c) :
      Reachable (op.apply c)

namespace Reachable

theorem linked {c : Controller} (h : Reachable c) (hn : c.nodes.length < 2 ^ 32)
    (he : c.edges.length < 2 ^ 32) : c.Linked := by
  induction h with
  | new id name defaults => exact Controller.linked_new id name defaults
  | restored h => exact Controller.linked_of_restore h
  | operate h op hf ih =>
    -- nodes and edges never get fewer, so the bounds hold in front of the operation as well
    have hsound := Operation.sound_apply hf he
    have hnodes := hsound.keeps.length_nodes_le
    have hedges := hsound.keeps.length_edges_le
    exact hsound.linked hn (ih (by omega) (by omega))

/-- Every controller that can be reached passes the checks of a snapshot, and is restored from its
own one with everything but its attachments. -/
theorem restores {c : Controller} (h : Reachable c) (hn : c.nodes.length < 2 ^ 32)
    (he : c.edges.length < 2 ^ 32) (time : Timestamp) :
    c.checkLinks = .ok () ∧
      Controller.restore (c.snapshot time) = .ok { c with attachments := .empty } := by
  have hlinked := h.linked hn he
  exact ⟨Controller.checkLinks_eq_ok.mpr hlinked, Controller.restore_snapshot hlinked time⟩

theorem restores_refused :
    let o := Opening.anyState Controller.bareRoot (.machine Controller.bareRoot)
    let supply (name : String) := Supply.ofConditions [⟨name, .isTrue, .zero false⟩]
    let chain : Chain Supply (.fresh true) :=
      .whenWithOr (.whenAny (.when (supply "a") (.or (.when (supply "b") .stop))) ["other"] .stop)
        (.orElse (.when (supply "c") .stop))
    let c := (Operation.travel o chain [("other", ⟨Controller.bare.id, .ofIndex 7⟩)]).apply
      Controller.bare
    let time : Timestamp := ⟨⟨2024, 2, 29, 12, 0, 0, 0⟩, by decide⟩
    Reachable c ∧ c.edges.length = 2 ∧
      Controller.restore (c.snapshot time) = .ok { c with attachments := .empty } := by
  intro o supply chain c time
  have hbare : Reachable Controller.bare :=
    .operate (.new ⟨List.replicate 16 0, rfl⟩ "" .standard) (.act (.addLayer "")) trivial
  have hf : (Operation.travel o chain [("other", ⟨Controller.bare.id, .ofIndex 7⟩)]).Fits
      Controller.bare := by
    intro started e route h
    cases h
    unfold Chain.Fits
    decide
  have hc : Reachable c := .operate hbare _ hf
  have hnodes : c.nodes.length = 1 := rfl
  have hedges : c.edges.length = 2 := rfl
  exact ⟨hc, hedges, (restores hc (by omega) (by omega) time).2⟩

end Reachable

/-- What operations make of a controller, as long as handles can name its nodes and edges. -/
inductive Reaches (c : Controller) : Controller → Prop
  | refl : Reaches c c
  | operate {d : Controller} (h : Reaches c d) (op : Operation) (hf : op.Fits d)
      (hn : (op.apply d).nodes.length < 2 ^ 32) (he : (op.apply d).edges.length < 2 ^ 32) :
      Reaches c (op.apply d)

namespace Reaches

variable {c d : Controller}

theorem sound (h : Reaches c d) : c.Sound d := by
  induction h with
  | refl => exact .refl c
  | operate h op hf hn he ih => exact ih.trans (Operation.sound_apply hf he)

theorem eq_or_fits (h : Reaches c d) : d = c ∨ d.nodes.length < 2 ^ 32 := by
  cases h with
  | refl => exact .inl rfl
  | operate h op hf hn he => exact .inr hn

theorem linked (h : Reaches c d) (hc : c.Linked) : d.Linked := by
  rcases h.eq_or_fits with rfl | hn
  · exact hc
  · exact h.sound.linked hn hc

theorem entered (h : Reaches c d) {i : Nat} {n' : Node} {s : StateHandle}
    (hn' : d.nodes[i]? = some n') (hs : n'.initial? = some s) :
    (∃ n, c.nodes[i]? = some n ∧ n.initial? = some s) ∨ d.ownerOfState s = .ok ⟨.ofIndex i⟩ := by
  rcases h.eq_or_fits with rfl | hn
  · exact .inl ⟨n', hn', hs⟩
  · exact h.sound.entered hn i n' s hn' hs

theorem drawn (h : Reaches c d) (hc : c.Linked) {x : Edge} (hx : x ∈ d.edges) :
    (∃ y ∈ c.edges, x.machine = y.machine ∧ x.route = y.route) ∨ d.EdgeDrawn x := by
  rcases h.eq_or_fits with rfl | hn
  · exact .inl ⟨x, hx, rfl, rfl⟩
  · exact h.sound.drawn hn hc x hx

/-- Whatever is done to a controller, refused operations and alternatives that are taken back
included, what was there is still there under the same handles. -/
theorem handles_continue (h : Reaches c d) :
    c.layers <+: d.layers ∧ c.parameters <+: d.parameters ∧
      (∀ (k : NodeHandle) (n : Node), c.node k = .ok n →
        ∃ n', d.node k = .ok n' ∧ n.Continues n') ∧
      ∀ (e : EdgeHandle) (x : Edge), c.edge e = .ok x →
        ∃ x', d.edge e = .ok x' ∧ x.Continues x' := by
  have hkeeps := h.sound.keeps
  refine ⟨hkeeps.layers, hkeeps.parameters, fun k n hn => ?_, fun e x hx => ?_⟩
  · obtain ⟨n', hn', hcont⟩ := hkeeps.nodes _ n (Controller.node_eq_ok.mp hn)
    exact ⟨n', Controller.node_eq_ok.mpr hn', hcont⟩
  · obtain ⟨x', hx', hcont⟩ := hkeeps.edges _ x (Controller.edge_eq_ok.mp hx)
    exact ⟨x', Controller.edge_eq_ok.mpr hx', hcont⟩

/-- An edge gets a condition, and then a chain is made beside it whose first or-condition is taken
back and whose settings are changed. -/
theorem handles_continue_refused :
    let looping := Opening.anyState Controller.bareRoot (.machine Controller.bareRoot)
    let supply (name : String) := Supply.ofConditions [⟨name, .isTrue, .zero false⟩]
    let first := (Operation.travel looping (.when (supply "a") .stop) []).apply Controller.bare
    let guarded := (Operation.act (.appendCondition (.ofIndex 0) ⟨"b", .isTrue, .zero false⟩)).apply
      first
    let chain : Chain Supply (.fresh true) :=
      .set (.offset .one) (.whenWithOr
        (.whenAny (.when (supply "c") (.or (.when (supply "d") .stop))) ["other"] .stop)
        (.orElse (.when (supply "e") .stop)))
    let last := (Operation.travel looping chain [("other", ⟨first.id, .ofIndex 0⟩)]).apply guarded
    Reaches first last ∧ last.edges.map (·.conditions.map (·.parameter)) = [["a", "b"], [], ["e"]] ∧
      ∃ x x', first.edge (.ofIndex 0) = .ok x ∧ last.edge (.ofIndex 0) = .ok x' ∧
        x.Continues x' := by
  intro looping supply first guarded chain last
  have hguarded : Reaches first guarded :=
    .operate .refl (.act (.appendCondition (.ofIndex 0) ⟨"b", .isTrue, .zero false⟩)) trivial
      (by decide) (by decide)
  have hfits : (Operation.travel looping chain [("other", ⟨first.id, .ofIndex 0⟩)]).Fits
      guarded := by
    intro started e route h
    cases h
    unfold Chain.Fits
    decide
  have hlast : Reaches first last := .operate hguarded _ hfits (by decide) (by decide)
  obtain ⟨-, -, -, hedges⟩ := hlast.handles_continue
  obtain ⟨x', hx', hcont⟩ := hedges (.ofIndex 0) _ rfl
  exact ⟨hlast, by decide, _, x', rfl, hx', hcont⟩

end Reaches

end Statechart
