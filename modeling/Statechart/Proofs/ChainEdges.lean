import Mathlib.Data.List.Nodup
import Statechart.Proofs.Arena
import Statechart.Proofs.NormalForm

/-! A chain without tokens of its own leaves one edge for each clause of its normal form, at the end
of the edges and in the order of the clauses. -/

namespace Statechart

/-- Where a role stands among edges from `first` on, of which there are `count`. Behind a forked
series only the first one is at hand. -/
def Cursor.At (first count : Nat) : {r : Role} → Cursor r → Prop
  | _, .fresh e | _, .clause e | _, .forked e => e.index = first
  | _, .spread es => es.map (·.index) = List.range' first count

/-- The clauses that the edges of a role may have. A fresh edge has no conditions yet. -/
def Role.Admits (ds : List (List Condition)) : Role → Prop
  | .fresh _ => ds = [[]]
  | .clause => ∃ d, ds = [d]
  | .forked => ds ≠ []
  | .spread => True

theorem length_alternatives (cs : List Condition) :
    (alternatives cs).length = cs.length - 1 + 1 := by
  cases cs <;> simp [alternatives]

namespace Controller

variable {c : Controller} {e : EdgeHandle} {t : Edge} {pre : List Edge}

theorem appendConditions_eq {post : List Edge} {d : List Condition}
    (he : e.index = pre.length) (hc : c.edges = pre ++ t.guarded d :: post)
    (cs : List Condition) :
    c.appendConditions e cs = c.withEdges (pre ++ t.guarded (d ++ cs) :: post) := by
  rw [appendConditions_eq_withEdges, hc, he, modify_length_append]
  rfl

theorem fork_eq (ds : List (List Condition)) (ht : t.Settled) (hd : ds ≠ [])
    (he : e.index = pre.length) (hc : c.edges = pre ++ ds.map t.guarded) :
    (c.fork e t.route).1 = c.withEdges (pre ++ (ds ++ [[]]).map t.guarded) := by
  obtain ⟨d, ds, rfl⟩ := List.exists_cons_of_ne_nil hd
  have hx : c.edges[e.index]? = some (t.guarded d) := by simp [hc, he]
  have ho : c.offshoot e t.route = t.guarded [] := offshoot_eq (x := t.guarded d) c e hx ht
  rw [fork_eq_withEdges, ho, hc]
  simp

/-- Giving each condition an edge of its own makes the alternatives, on edges one behind another. -/
theorem forkEach_eq (ht : t.Settled) (cs : List Condition) (he : e.index = pre.length)
    (hc : c.edges = pre ++ [t.guarded []]) (hb : pre.length + (alternatives cs).length ≤ 2 ^ 32) :
    (c.forkEach t.route e cs).1 = c.withEdges (pre ++ (alternatives cs).map t.guarded) ∧
      (c.forkEach t.route e cs).2.map (·.index) =
        List.range' pre.length (alternatives cs).length := by
  induction cs generalizing c e pre with
  | nil =>
    refine ⟨?_, by simp [forkEach, alternatives, he]⟩
    simp only [forkEach, alternatives, List.map_cons, List.map_nil, ← hc, withEdges_edges]
  | cons x cs ih =>
    have happ := appendConditions_eq he hc [x]
    cases cs with
    | nil =>
      refine ⟨?_, by simp [forkEach, alternatives, he]⟩
      simpa [forkEach, alternatives] using happ
    | cons y ys =>
      let forked := (c.appendConditions e [x]).fork e t.route
      have hcontroller : forked.1 = c.withEdges ((pre ++ [t.guarded [x]]) ++ [t.guarded []]) := by
        rw [fork_eq [[x]] ht (by simp) he (by simp [happ]), happ]
        simp
      have hindex : forked.2.index = (pre ++ [t.guarded [x]]).length := by
        have hn : (c.appendConditions e [x]).edges.length = pre.length + 1 := by simp [hc]
        have hl : (alternatives (x :: y :: ys)).length = ys.length + 2 := by simp [alternatives]
        rw [snd_fork, hn, EdgeHandle.index_ofIndex (by omega)]
        simp
      have hh := ih (c := forked.1) hindex (by rw [hcontroller, edges_withEdges])
        (by simp [alternatives] at hb ⊢; omega)
      simp only [forkEach]
      refine ⟨?_, ?_⟩
      · rw [hh.1, hcontroller]
        simp [alternatives]
      · rw [List.map_cons, hh.2, he]
        simp [alternatives, List.range'_succ]

theorem claim_eq_ok {m : Mark} {route : Route} (ts : List Clause) (found : List EdgeHandle)
    (ho : ∀ t ∈ ts, c.owns m route t = true) (hn : (found ++ ts.map (·.edge)).Nodup) :
    c.claim m route ts found = .ok (found ++ ts.map (·.edge)) := by
  induction ts generalizing found with
  | nil => simp [claim]
  | cons t ts ih =>
    have hnew : t.edge ∉ found := by
      intro hf
      have hd := (List.nodup_append.mp hn).2.2
      exact hd t.edge hf t.edge (by simp) rfl
    simp only [claim, ho t (by simp), if_true, if_neg hnew]
    rw [ih (found ++ [t.edge]) (fun u hu => ho u (List.mem_cons_of_mem t hu)) (by simpa using hn)]
    simp

/-- The edges of the alternatives count as owned, since they begin with the marked edge. -/
theorem owns_forkEach (ht : t.Settled) (cs : List Condition) (he : e.index = pre.length)
    (hc : c.edges = pre ++ [t.guarded []]) (hb : pre.length + (alternatives cs).length ≤ 2 ^ 32)
    {f : EdgeHandle} (hf : f ∈ (c.forkEach t.route e cs).2) :
    (c.forkEach t.route e cs).1.owns (c.mark e) t.route ⟨c.id, f⟩ = true := by
  obtain ⟨hcontroller, hindices⟩ := forkEach_eq ht cs he hc hb
  have hmem : f.index ∈ List.range' pre.length (alternatives cs).length := by
    rw [← hindices]
    exact List.mem_map_of_mem hf
  obtain ⟨hlo, hhi⟩ := List.mem_range'_1.mp hmem
  obtain ⟨x, hx⟩ : ∃ x, (pre ++ (alternatives cs).map t.guarded)[f.index]? = some x :=
    ⟨_, List.getElem?_eq_getElem (by simpa using hhi)⟩
  have hr : x.route = t.route := by
    rw [List.getElem?_append_right hlo] at hx
    obtain ⟨d, -, rfl⟩ := List.mem_map.mp (List.mem_of_getElem? hx)
    rfl
  have hown : (c.forkEach t.route e cs).1.Own e c.edges.length f := by
    by_cases h : f.index = pre.length
    · exact .inl (EdgeHandle.eq_of_index_eq (h.trans he.symm))
    · refine .inr ⟨?_, ?_⟩
      · rw [hc, List.length_append, List.length_singleton]
        omega
      · rw [hcontroller, edges_withEdges]
        exact (List.getElem?_eq_some_iff.mp hx).1
  refine owns_iff.mpr ⟨?_, hown, x, ?_, hr⟩
  · rw [hcontroller, id_withEdges]
  · rw [hcontroller, edges_withEdges, hx]

end Controller

namespace Run

variable {w : Run} {c : Controller} {e : EdgeHandle} {t : Edge} {pre : List Edge}

theorem claim_forkEach (ht : t.Settled) (cs : List Condition) (he : e.index = pre.length)
    (hw : w.controller.edges = pre ++ [t.guarded []])
    (hb : pre.length + (alternatives cs).length ≤ 2 ^ 32) :
    (w.forkEach t.route e cs).1.claim (w.controller.mark e) t.route (w.forkEach t.route e cs).2 =
      ((w.forkEach t.route e cs).1, .ok (w.controller.forkEach t.route e cs).2) := by
  have hid : (w.controller.forkEach t.route e cs).1.id = w.controller.id := by
    rw [(Controller.forkEach_eq ht cs he hw hb).1, Controller.id_withEdges]
  have hedges : (w.forkEach t.route e cs).2.map (·.edge) =
      (w.controller.forkEach t.route e cs).2 := by
    simp [Function.comp_def]
  have hn : (w.controller.forkEach t.route e cs).2.Nodup := by
    apply List.Nodup.of_map (·.index)
    rw [(Controller.forkEach_eq ht cs he hw hb).2]
    exact List.nodup_range'
  have howned : ∀ token ∈ (w.forkEach t.route e cs).2,
      (w.controller.forkEach t.route e cs).1.owns (w.controller.mark e) t.route token = true := by
    intro token htoken
    obtain ⟨f, hf, rfl⟩ := List.mem_map.mp htoken
    rw [hid]
    exact Controller.owns_forkEach ht cs he hw hb hf
  have hc := Controller.claim_eq_ok (w.forkEach t.route e cs).2 [] howned
    (by rwa [List.nil_append, hedges])
  rw [List.nil_append, hedges] at hc
  simp only [claim, controller_forkEach, hc]

theorem fork_eq {ds : List (List Condition)} (ht : t.Settled) (hd : ds ≠ [])
    (he : e.index = pre.length) (hw : w.controller = c.withEdges (pre ++ ds.map t.guarded))
    (hb : pre.length + ds.length < 2 ^ 32) :
    (w.fork e t.route).1.controller =
        c.withEdges ((pre ++ ds.map t.guarded) ++ [[]].map t.guarded) ∧
      (w.fork e t.route).2.index = (pre ++ ds.map t.guarded).length := by
  have hc : w.controller.edges = pre ++ ds.map t.guarded := by rw [hw, Controller.edges_withEdges]
  refine ⟨?_, ?_⟩
  · rw [controller_fork, Controller.fork_eq ds ht hd he hc, hw]
    simp
  · have hlen : w.controller.edges.length = pre.length + ds.length := by simp [hc]
    rw [snd_fork, Controller.snd_fork, hlen, EdgeHandle.index_ofIndex hb]
    simp

theorem foldl_controller {step : Run → EdgeHandle → Run} {cs : List Condition}
    (hstep : ∀ w e, (step w e).controller = w.controller.appendConditions e cs)
    (es : List EdgeHandle) (ds : List (List Condition))
    (hes : es.map (·.index) = List.range' pre.length ds.length)
    (hw : w.controller = c.withEdges (pre ++ ds.map t.guarded)) :
    (es.foldl step w).controller = c.withEdges (pre ++ (ds.map (· ++ cs)).map t.guarded) := by
  induction es generalizing w pre ds with
  | nil =>
    obtain rfl : ds = [] := by simpa using hes.symm
    simpa using hw
  | cons e es ih =>
    cases ds with
    | nil => simp at hes
    | cons d ds =>
      simp only [List.map_cons, List.length_cons, List.range'_succ, List.cons.injEq] at hes
      have happ : (step w e).controller =
          c.withEdges ((pre ++ [t.guarded (d ++ cs)]) ++ ds.map t.guarded) := by
        rw [hstep, Controller.appendConditions_eq hes.1 (by rw [hw]; rfl), hw]
        simp
      have hh := ih ds (by simpa using hes.2) happ
      simpa using hh

end Run

namespace Chain

theorem flatMap_alternatives (cs : List Condition) :
    [([] : List Condition)].flatMap (fun d => (alternatives cs).map (d ++ ·)) =
      alternatives cs := by
  simp

/-- Every further alternative, and every condition behind the first where any is enough, makes one
more clause. -/
theorem length_dnf {r : Role} (chain : Chain Supply r) (ds : List (List Condition))
    (hp : chain.Tokenless) (hd : r.Admits ds) :
    (chain.dnf ds).length = ds.length + chain.forks := by
  induction chain generalizing ds with
  | stop | unreadable => rfl
  | whenAny => exact hp.elim
  | set _ _ ih | settle _ ih | keep _ _ ih => exact ih ds hp hd
  | whenAlways _ ih => exact ih ds hp ⟨[], hd⟩
  | when s _ ih | whenAll s _ ih =>
    obtain rfl : ds = [[]] := hd
    exact ih [s.conditions] hp ⟨s.conditions, rfl⟩
  | and s _ ih | andAll s _ ih =>
    obtain ⟨d, rfl⟩ := hd
    exact ih [d ++ s.conditions] hp ⟨d ++ s.conditions, rfl⟩
  | andEach s _ ih | andAllEach s _ ih =>
    have hh := ih (ds.map (· ++ s.conditions)) hp trivial
    rwa [List.length_map] at hh
  | whenWithOr inner next ihInner ih =>
    obtain rfl : ds = [[]] := hd
    have hi := ihInner [[]] hp.1 rfl
    rw [List.length_singleton] at hi
    have hne : inner.dnf [[]] ≠ [] := List.ne_nil_of_length_pos (by omega)
    simp only [dnf, forks, ih _ hp.2 hne, hi, List.length_singleton]
    omega
  | whenAnyOf s next ih =>
    obtain rfl : ds = [[]] := hd
    have hh := ih (alternatives s.conditions) hp trivial
    simp only [dnf, forks, flatMap_alternatives, hh, length_alternatives, List.length_singleton]
    omega
  | or next ih | orElse next ih =>
    have hh := ih [[]] hp rfl
    simp only [dnf, forks, List.length_append, hh, List.length_singleton]
    omega

/-- A run from edges that hold the clauses `ds` leaves what was in front of them as it is, and
the clauses of the normal form on these edges and the ones behind. -/
def Normal {r : Role} (chain : Chain Supply r) : Prop :=
  ∀ (ds : List (List Condition)) ⦃k : Cursor r⦄ ⦃w : Run⦄ ⦃c : Controller⦄ ⦃t : Edge⦄
    ⦃pre : List Edge⦄, t.Settled → r.Admits ds → k.At pre.length ds.length →
    w.controller = c.withEdges (pre ++ ds.map t.guarded) →
    pre.length + ds.length + chain.forks ≤ 2 ^ 32 →
    (chain.run t.route k w).controller =
      c.withEdges (pre ++ (chain.dnf ds).map (t.edited chain.edits).guarded)

section Calls

variable {ds : List (List Condition)} {e : EdgeHandle} {w v : Run} {c : Controller} {t : Edge}
  {pre : List Edge}

/-- Behind the settings there is nothing that changes the edges but for their conditions. -/
theorem Normal.after {r : Role} {next : Chain Supply r} (h : next.Normal)
    (ds : List (List Condition)) (hr : r ≠ .fresh true) {k : Cursor r} (ht : t.Settled)
    (hd : r.Admits ds) (hk : k.At pre.length ds.length)
    (hw : w.controller = c.withEdges (pre ++ ds.map t.guarded))
    (hb : pre.length + ds.length + next.forks ≤ 2 ^ 32) :
    (next.run t.route k w).controller = c.withEdges (pre ++ (next.dnf ds).map t.guarded) := by
  have hh := h ds ht hd hk hw hb
  rwa [edits_eq_nil next hr, Edge.edited_nil] at hh

theorem Normal.append {next : Chain Supply .clause} (h : next.Normal) {d : List Condition}
    (cs : List Condition) (ht : t.Settled) (he : e.index = pre.length)
    (hw : w.controller = c.withEdges (pre ++ [t.guarded d]))
    (hv : v.controller = w.controller.appendConditions e cs)
    (hb : pre.length + 1 + next.forks ≤ 2 ^ 32) :
    (next.run t.route (.clause e) v).controller =
      c.withEdges (pre ++ (next.dnf [d ++ cs]).map t.guarded) := by
  have happ : v.controller = c.withEdges (pre ++ [d ++ cs].map t.guarded) := by
    rw [hv, Controller.appendConditions_eq he (by rw [hw]; rfl), hw]
    rfl
  exact h.after _ (by simp) ht ⟨_, rfl⟩ he happ hb

theorem Normal.spread {next : Chain Supply .spread} (h : next.Normal) (cs : List Condition)
    {step : Run → EdgeHandle → Run}
    (hstep : ∀ w e, (step w e).controller = w.controller.appendConditions e cs)
    {es : List EdgeHandle} (ht : t.Settled)
    (hes : es.map (·.index) = List.range' pre.length ds.length)
    (hw : w.controller = c.withEdges (pre ++ ds.map t.guarded))
    (hb : pre.length + ds.length + next.forks ≤ 2 ^ 32) :
    (next.run t.route (.spread es) (es.foldl step (w.reportRole (.spread es)))).controller =
      c.withEdges (pre ++ (next.dnf (ds.map (· ++ cs))).map t.guarded) := by
  have hfold := Run.foldl_controller (w := w.reportRole (.spread es)) hstep es ds hes (by simpa)
  rw [← List.length_map (· ++ cs)] at hes hb
  exact h.after _ (by simp) ht trivial hes hfold hb

theorem Normal.fork {next : Chain Supply (.fresh false)} (h : next.Normal) {r : Role}
    {k : Cursor r} (ht : t.Settled) (hd : ds ≠ []) (he : e.index = pre.length)
    (hw : w.controller = c.withEdges (pre ++ ds.map t.guarded))
    (hb : pre.length + ds.length + (next.forks + 1) ≤ 2 ^ 32) :
    (next.run t.route (.fresh ((w.reportRole k).fork e t.route).2)
      ((w.reportRole k).fork e t.route).1).controller =
        c.withEdges (pre ++ (ds ++ next.dnf [[]]).map t.guarded) := by
  obtain ⟨hforked, hindex⟩ := Run.fork_eq (w := w.reportRole k) ht hd he
    (by rw [Run.controller_reportRole, hw]) (by omega)
  have hlen : (pre ++ ds.map t.guarded).length = pre.length + ds.length := by simp
  have hh := h.after [[]] (by simp) (k := .fresh ((w.reportRole k).fork e t.route).2) ht rfl
    hindex hforked (by rw [hlen, List.length_singleton]; omega)
  rw [hh, List.append_assoc, ← List.map_append]

end Calls

theorem normal {r : Role} (chain : Chain Supply r) (hp : chain.Tokenless) : chain.Normal := by
  induction chain with
  | stop | unreadable =>
    intro ds k w c t pre ht hd hk hw hb
    simpa [run, dnf, edits] using hw
  | whenAny => exact hp.elim
  | set edit next ih =>
    intro ds k w c t pre ht hd hk hw hb
    cases k with | fresh e =>
    obtain rfl : ds = [[]] := hd
    have hset : (w.reportRole (r := .fresh true) (.fresh e)).controller.modifySettings e
        (edit.apply ·) = c.withEdges (pre ++ [[]].map (t.edited [edit]).guarded) := by
      rw [Run.controller_reportRole, Controller.modifySettings_eq_withEdges, hw,
        Controller.edges_withEdges, hk, List.map_cons, modify_length_append]
      rfl
    rw [run, dnf, edits, Edge.edited_cons]
    exact ih hp [[]] (t := t.edited [edit]) (k := .fresh e) (ht.edited _) rfl hk hset hb
  | settle next ih =>
    intro ds k w c t pre ht hd hk hw hb
    cases k with | fresh e =>
    simp only [run, dnf, edits, Edge.edited_nil]
    exact (ih hp).after _ (by simp) ht hd hk (by simpa using hw) hb
  | whenAlways next ih =>
    intro ds k w c t pre ht hd hk hw hb
    cases k with | fresh e =>
    simp only [run, dnf, edits, Edge.edited_nil]
    exact (ih hp).after _ (by simp) ht ⟨[], hd⟩ hk (by simpa using hw) hb
  | keep slot next ih =>
    intro ds k w c t pre ht hd hk hw hb
    cases k with | clause e =>
    simp only [run, dnf, edits, Edge.edited_nil]
    exact (ih hp).after _ (by simp) ht hd hk (by simpa using hw) hb
  | when s next ih | whenAll s next ih =>
    intro ds k w c t pre ht hd hk hw hb
    cases k with | fresh e =>
    obtain rfl : ds = [[]] := hd
    simp only [run, dnf, edits, Edge.edited_nil]
    exact (ih hp).append s.conditions ht hk hw (by simp) hb
  | and s next ih | andAll s next ih =>
    intro ds k w c t pre ht hd hk hw hb
    cases k with | clause e =>
    obtain ⟨d, rfl⟩ := hd
    simp only [run, dnf, edits, Edge.edited_nil]
    exact (ih hp).append s.conditions ht hk hw (by simp) hb
  | andEach s next ih | andAllEach s next ih =>
    intro ds k w c t pre ht hd hk hw hb
    cases k with | spread es =>
    simp only [run, dnf, edits, Edge.edited_nil]
    exact (ih hp).spread s.conditions (fun _ _ => by simp) ht hk hw hb
  | @whenWithOr timed inner next ihInner ih =>
    intro ds k w c t pre ht hd hk hw hb
    cases k with | fresh e =>
    obtain rfl : ds = [[]] := hd
    -- the series forks behind the edge, and what follows is again given the edge itself
    have hlen := inner.length_dnf [[]] hp.1 rfl
    simp only [forks, List.length_singleton] at hb hlen
    have hne : inner.dnf [[]] ≠ [] := List.ne_nil_of_length_pos (by omega)
    have hinner := (ihInner hp.1).after [[]] (by simp) (k := .fresh e)
      (w := w.reportRole (r := .fresh timed) (.fresh e)) ht rfl hk (by simpa using hw)
      (by rw [List.length_singleton]; omega)
    simp only [run, dnf, edits, Edge.edited_nil]
    exact (ih hp.2).after _ (by simp) (k := .forked e) ht hne hk hinner (by omega)
  | @whenAnyOf timed s next ih =>
    intro ds k w c t pre ht hd hk hw hb
    cases k with | fresh e =>
    obtain rfl : ds = [[]] := hd
    have hlen := length_alternatives s.conditions
    simp only [forks, List.length_singleton] at hb
    let begun := ((w.reportRole (r := .fresh timed) (.fresh e)).meet s.gaps).report
      (.anyOf s.conditions)
    have hbegun : begun.controller.edges = pre ++ [t.guarded []] := by simp [begun, hw]
    obtain ⟨hforked, hindices⟩ := Controller.forkEach_eq ht s.conditions hk hbegun (by omega)
    have hrun : (whenAnyOf s next : Chain Supply (.fresh timed)).run t.route (.fresh e) w =
        next.run t.route (.spread (begun.controller.forkEach t.route e s.conditions).2)
          (begun.forkEach t.route e s.conditions).1 := by
      simp only [run]
      rw [Run.claim_forkEach ht s.conditions hk hbegun (by omega)]
    rw [hrun]
    simp only [dnf, flatMap_alternatives, edits, Edge.edited_nil]
    exact (ih hp).after _ (by simp) ht trivial hindices
      (by rw [Run.controller_forkEach, hforked]; simp [begun, hw]) (by omega)
  | or next ih =>
    intro ds k w c t pre ht hd hk hw hb
    cases k with | clause e =>
    have hne : ds ≠ [] := by
      obtain ⟨d, rfl⟩ := hd
      simp
    simp only [dnf, edits, Edge.edited_nil]
    exact (ih hp).fork ht hne hk hw hb
  | orElse next ih =>
    intro ds k w c t pre ht hd hk hw hb
    cases k with | forked e =>
    simp only [dnf, edits, Edge.edited_nil]
    exact (ih hp).fork ht hd hk hw hb

/-- A chain on a transition that was just started leaves one edge for each clause of its normal
form, the started one first. They stand at the end of the edges, are alike but for their
conditions, and one of them is open exactly where the guard that the chain reads as is true. -/
theorem edges_of_start {c started : Controller} {o : Opening} {e : EdgeHandle} {route : Route}
    (hs : c.start o = .ok (started, e, route)) (chain : Chain Supply (.fresh (o.flavor = .timed)))
    (hp : chain.Tokenless) (hb : c.edges.length + (chain.dnf [[]]).length < 2 ^ 32)
    (tokens : List (String × Clause)) (reports : List Report) (gaps : List Gap) :
    let final := (chain.run route (.fresh e) ⟨started, tokens, reports, gaps⟩).controller
    (∃ machine, c.plan o = .ok (machine, route) ∧
      final = c.withEdges (c.edges ++
        (chain.dnf [[]]).map ((c.blankEdge route machine).edited chain.edits).guarded)) ∧
    e.index = c.edges.length ∧ (chain.dnf [[]]).length = 1 + chain.forks ∧
    ∀ v : Condition → Prop,
      (∃ x ∈ final.edges.drop c.edges.length, ∀ y ∈ x.conditions, v y) ↔ chain.Holds v True := by
  intro final
  have hlen : (chain.dnf [[]]).length = 1 + chain.forks := chain.length_dnf [[]] hp rfl
  obtain ⟨machine, hplan, rfl, rfl⟩ := Controller.start_eq_ok c e route hs
  have hindex : (EdgeHandle.ofIndex c.edges.length).index = c.edges.length :=
    EdgeHandle.index_ofIndex (by omega)
  have hfinal : final = c.withEdges (c.edges ++
      (chain.dnf [[]]).map ((c.blankEdge route machine).edited chain.edits).guarded) :=
    chain.normal hp [[]] (t := c.blankEdge route machine)
      (c.settled_blankEdge route machine) rfl hindex rfl (by rw [List.length_singleton]; omega)
  refine ⟨⟨machine, hplan, hfinal⟩, hindex, hlen, fun v => ?_⟩
  rw [hfinal, Controller.edges_withEdges, List.drop_left]
  have hopen : (∃ x ∈ (chain.dnf [[]]).map
      ((c.blankEdge route machine).edited chain.edits).guarded, ∀ y ∈ x.conditions, v y) ↔
      SomeHolds v (chain.dnf [[]]) := by
    simp [SomeHolds]
  rw [hopen, chain.someHolds_dnf, propext SomeHolds.nothing]

theorem edges_of_start_nested :
    let o := Opening.anyState Controller.bareRoot (.machine Controller.bareRoot)
    let cond (name : String) : Condition := ⟨name, .isTrue, .zero false⟩
    let supply (name : String) : Supply := .ofConditions [cond name]
    let chain : Chain Supply (.fresh true) :=
      .whenWithOr (.when (supply "a") (.or (.whenAll (.nested (.and (supply "b") .done)
        (.and (supply "c") .done)) .stop)))
        (.orElse (.whenAnyOf (.ofConditions [cond "d", cond "e"]) (.andEach (supply "f") .stop)))
    ∃ started route, Controller.bare.start o = .ok (started, .ofIndex 0, route) ∧
      (chain.run route (.fresh (.ofIndex 0)) ⟨started, [], [], []⟩).controller.edges.map
        (·.conditions) =
          [[cond "a"], [cond "b", cond "c"], [cond "d", cond "f"], [cond "e", cond "f"]] := by
  intro o cond supply chain
  let route := Route.anyState Controller.bareRoot (.machine Controller.bareRoot)
  have hs : Controller.bare.start o =
      .ok ((Controller.bare.createEdge Controller.bareRoot route).1, .ofIndex 0, route) := rfl
  have hp : chain.Tokenless := by simp [chain, Tokenless]
  obtain ⟨⟨machine, -, hfinal⟩, -⟩ := edges_of_start hs chain hp (by decide) [] [] []
  exact ⟨_, _, hs, congrArg (fun c => c.edges.map (·.conditions)) hfinal⟩

end Chain

end Statechart
