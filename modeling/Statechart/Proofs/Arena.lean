import Mathlib.Algebra.Group.Nat.Defs
import Statechart.ChainRun
import Statechart.Hierarchy

/-! The edges of a controller as a list that grows at its end: what each primitive step does to the
list, and that it leaves everything else alone. -/

namespace Statechart

theorem EdgeHandle.index_ofIndex {i : Nat} (h : i < 2 ^ 32) : (EdgeHandle.ofIndex i).index = i :=
  UInt32.toNat_ofNat_of_lt' h

theorem EdgeHandle.ofIndex_index (e : EdgeHandle) : EdgeHandle.ofIndex e.index = e := by
  cases e
  simp [EdgeHandle.ofIndex, EdgeHandle.index]

theorem EdgeHandle.eq_of_index_eq {e f : EdgeHandle} (h : e.index = f.index) : e = f := by
  rw [← e.ofIndex_index, h, f.ofIndex_index]

theorem modify_length_append {α : Type} (pre post : List α) (x : α) (f : α → α) :
    (pre ++ x :: post).modify pre.length f = pre ++ f x :: post := by
  induction pre with
  | nil => rfl
  | cons y pre ih => simp [ih]

theorem modify_append_left {α : Type} {l : List α} {i : Nat} (hi : i < l.length) (rest : List α)
    (f : α → α) : (l ++ rest).modify i f = l.modify i f ++ rest := by
  induction l generalizing i with
  | nil => simp at hi
  | cons x l ih =>
    cases i with
    | zero => rfl
    | succ i =>
      have hlt : i < l.length := by simpa using hi
      simp [ih hlt]

theorem map_modify {α β : Type} {l : List α} {i : Nat} {f : α → α} {g : α → β} {k : β → β}
    (h : ∀ x, l[i]? = some x → g (f x) = k (g x)) :
    (l.modify i f).map g = (l.map g).modify i k := by
  refine List.ext_getElem? fun j => ?_
  rw [List.getElem?_map, List.getElem?_modify, List.getElem?_modify, List.getElem?_map]
  cases hj : l[j]? with
  | none => rfl
  | some x =>
    by_cases hi : i = j
    · subst hi
      simp [h x hj]
    · simp [hi]

theorem getElem?_concat_eq_some {α : Type} {l : List α} {x y : α} {i : Nat} :
    (l ++ [x])[i]? = some y ↔ l[i]? = some y ∨ i = l.length ∧ y = x := by
  by_cases hlt : i < l.length
  · rw [List.getElem?_append_left hlt]
    exact ⟨.inl, fun h => h.resolve_right (by omega)⟩
  · rw [List.getElem?_append_right (by omega), List.getElem?_eq_none (l := l) (by omega),
      List.getElem?_singleton]
    by_cases hi : i = l.length
    · simp [hi, eq_comm]
    · have hne : i - l.length ≠ 0 := by omega
      simp [hi, hne]

theorem eraseDups_concat {α : Type} [DecidableEq α] (l : List α) (a : α) :
    (l ++ [a]).eraseDups = if a ∈ l then l.eraseDups else l.eraseDups ++ [a] := by
  rw [List.eraseDups_append]
  by_cases h : a ∈ l
  · simp [List.removeAll, h]
  · simp [List.removeAll, h, List.eraseDups_cons]

namespace Edge

/-- An edge with its conditions exchanged. -/
def guarded (x : Edge) (cs : List Condition) : Edge := { x with conditions := cs }

@[simp] theorem guarded_conditions (x : Edge) (cs : List Condition) :
    (x.guarded cs).conditions = cs := rfl

@[simp] theorem guarded_guarded (x : Edge) (cs ds : List Condition) :
    (x.guarded cs).guarded ds = x.guarded ds := rfl

theorem guarded_self (x : Edge) : x.guarded x.conditions = x := rfl

def edited (x : Edge) (edits : List SettingsEdit) : Edge :=
  { x with settings := x.settings.map (edits.foldl SettingsEdit.apply) }

@[simp] theorem edited_nil (x : Edge) : x.edited [] = x := by
  cases x with
  | mk m r s cs => cases s <;> rfl

theorem edited_cons (x : Edge) (edit : SettingsEdit) (edits : List SettingsEdit) :
    x.edited (edit :: edits) = (x.edited [edit]).edited edits := by
  cases x with
  | mk m r s cs => cases s <;> rfl

/-- An edge has settings exactly if it is timed. -/
def Settled (x : Edge) : Prop := x.settings.isSome ↔ x.flavor = .timed

theorem Settled.map {x : Edge} (h : x.Settled) (f : TransitionSettings → TransitionSettings) :
    Settled { x with settings := x.settings.map f } := by
  simpa [Settled, Edge.flavor] using h

theorem Settled.edited {x : Edge} (h : x.Settled) (edits : List SettingsEdit) :
    (x.edited edits).Settled :=
  h.map (edits.foldl SettingsEdit.apply)

end Edge

namespace Controller

/-- A layer and nothing in it, for cases that need some controller. -/
def bare : Controller :=
  ((Controller.new ⟨List.replicate 16 0, rfl⟩ "" .standard).addLayer "").1

def bareRoot : MachineHandle := ⟨.ofIndex 0⟩

variable (c : Controller) (e : EdgeHandle) (route : Route)

def withEdges (es : List Edge) : Controller := { c with edges := es }

@[simp] theorem edges_withEdges (es : List Edge) : (c.withEdges es).edges = es := rfl

@[simp] theorem id_withEdges (es : List Edge) : (c.withEdges es).id = c.id := rfl

@[simp] theorem withEdges_withEdges (es fs : List Edge) :
    (c.withEdges es).withEdges fs = c.withEdges fs := rfl

@[simp] theorem withEdges_edges : c.withEdges c.edges = c := rfl

theorem appendConditions_eq_withEdges (cs : List Condition) :
    c.appendConditions e cs =
      c.withEdges (c.edges.modify e.index fun x => x.guarded (x.conditions ++ cs)) := rfl

theorem modifySettings_eq_withEdges (f : TransitionSettings → TransitionSettings) :
    c.modifySettings e f =
      c.withEdges (c.edges.modify e.index fun x => { x with settings := x.settings.map f }) := rfl

@[simp] theorem edges_appendConditions (cs : List Condition) :
    (c.appendConditions e cs).edges =
      c.edges.modify e.index fun x => x.guarded (x.conditions ++ cs) := rfl

@[simp] theorem appendConditions_nil : c.appendConditions e [] = c := by
  have hid : (fun x : Edge => x.guarded (x.conditions ++ [])) = fun x => x := by
    funext x
    rw [List.append_nil, Edge.guarded_self]
  rw [appendConditions_eq_withEdges, hid,
    show c.edges.modify e.index (fun x => x) = c.edges from List.modify_id _ _, withEdges_edges]

theorem appendConditions_append (cs ds : List Condition) :
    (c.appendConditions e cs).appendConditions e ds = c.appendConditions e (cs ++ ds) := by
  have hcomp : (fun x : Edge => x.guarded (x.conditions ++ (cs ++ ds))) =
      (fun x => x.guarded (x.conditions ++ ds)) ∘ fun x => x.guarded (x.conditions ++ cs) := by
    funext x
    simp
  rw [appendConditions_eq_withEdges _ _ (cs ++ ds), hcomp, ← List.modify_modify_eq]
  rfl

@[simp] theorem edges_modifySettings (f : TransitionSettings → TransitionSettings) :
    (c.modifySettings e f).edges =
      c.edges.modify e.index fun x => { x with settings := x.settings.map f } := rfl

/-- The edge that a new transition starts with. -/
def blankEdge (machine : MachineHandle) : Edge where
  machine := machine
  route := route
  settings := match route.flavor with
    | .timed => some c.defaults.transition
    | .untimed => none
  conditions := []

theorem createEdge_eq (machine : MachineHandle) :
    c.createEdge machine route = (c.pushEdge (c.blankEdge route machine), c.nextEdge) := rfl

theorem settled_blankEdge (machine : MachineHandle) : (c.blankEdge route machine).Settled := by
  cases h : route.flavor <;> simp [Edge.Settled, Edge.flavor, blankEdge, h]

theorem start_eq_ok {o : Opening} {started : Controller}
    (h : c.start o = .ok (started, e, route)) :
    ∃ machine, c.plan o = .ok (machine, route) ∧
      started = c.withEdges (c.edges ++ [c.blankEdge route machine]) ∧
      e = .ofIndex c.edges.length := by
  cases hp : c.plan o with
  | error fault => simp [start, hp, bind, Except.bind] at h
  | ok planned =>
    obtain ⟨machine, r⟩ := planned
    simp only [start, hp, bind, Except.bind, createEdge_eq, pure, Except.pure, Except.ok.injEq,
      Prod.mk.injEq] at h
    obtain ⟨rfl, rfl, rfl⟩ := h
    exact ⟨machine, rfl, rfl, rfl⟩

/-- The edge that a fork adds. -/
def offshoot : Edge where
  machine := (c.edges[e.index]?.map (·.machine)).getD (c.hostOf route)
  route := route
  settings := match route.flavor with
    | .timed => some ((c.edges[e.index]?.bind (·.settings)).getD c.defaults.transition)
    | .untimed => none
  conditions := []

theorem fork_eq_withEdges :
    (c.fork e route).1 = c.withEdges (c.edges ++ [c.offshoot e route]) := rfl

@[simp] theorem edges_fork : (c.fork e route).1.edges = c.edges ++ [c.offshoot e route] := rfl

@[simp] theorem snd_fork : (c.fork e route).2 = .ofIndex c.edges.length := rfl

/-- A fork of an edge that is there, on its own route, is the edge without its conditions. -/
theorem offshoot_eq {x : Edge} (hx : c.edges[e.index]? = some x) (hs : x.Settled) :
    c.offshoot e x.route = x.guarded [] := by
  obtain ⟨m, r, s, cs⟩ := x
  simp only [Edge.Settled, Edge.flavor] at hs
  simp only [offshoot, hx, Edge.guarded, Edge.mk.injEq, Option.map_some, Option.getD_some,
    Option.bind_some, true_and, and_true]
  cases hf : r.flavor with
  | timed =>
    obtain ⟨x, rfl⟩ := Option.isSome_iff_exists.mp (hs.mpr hf)
    rfl
  | untimed =>
    cases s with
    | none => rfl
    | some x => exact absurd (hs.mp rfl) (by simp [hf])

theorem settled_offshoot : (c.offshoot e route).Settled := by
  cases h : route.flavor <;> simp [Edge.Settled, Edge.flavor, offshoot, h]

variable {c} {d : Controller} {e f g : EdgeHandle} {n : Nat}

/-- The edges of a transition which began with `start` when there were `n` edges. -/
def Own (c : Controller) (start : EdgeHandle) (n : Nat) (f : EdgeHandle) : Prop :=
  f = start ∨ n ≤ f.index ∧ f.index < c.edges.length

theorem Own.start : c.Own e n e := .inl rfl

theorem Own.mono (h : c.Own e n f) (hle : c.edges.length ≤ d.edges.length) : d.Own e n f := by
  rcases h with rfl | ⟨hlo, hhi⟩
  · exact .start
  · exact .inr ⟨hlo, by omega⟩

/-- Edges of a transition that began later, on an edge of this one, are edges of this one. -/
theorem Own.widen {m : Nat} (hg : c.Own f m g) (hf : c.Own e n f) (hn : n ≤ m) : c.Own e n g := by
  rcases hg with rfl | ⟨hlo, hhi⟩
  · exact hf
  · exact .inr ⟨by omega, hhi⟩

theorem owns_iff {b : Controller} {route : Route} {t : Clause} :
    c.owns (b.mark f) route t = true ↔
      t.controller = c.id ∧ c.Own f b.edges.length t.edge ∧
        ∃ x, c.edges[t.edge.index]? = some x ∧ x.route = route := by
  simp only [owns, Bool.and_eq_true, Bool.or_eq_true, decide_eq_true_eq, Option.any_eq_true, Own,
    and_assoc]
  rfl

end Controller

namespace Run

@[simp] theorem controller_report (w : Run) (r : Report) : (w.report r).controller = w.controller :=
  rfl

@[simp] theorem controller_meet (w : Run) (gaps : List Gap) :
    (w.meet gaps).controller = w.controller := rfl

@[simp] theorem controller_onController (w : Run) (f : Controller → Controller) :
    (w.onController f).controller = f w.controller := rfl

@[simp] theorem controller_reportRole (w : Run) {r : Role} (k : Cursor r) :
    (w.reportRole k).controller = w.controller := by
  cases k with
  | @fresh timed e => cases timed <;> rfl
  | _ => rfl

@[simp] theorem controller_append (w : Run) (e : EdgeHandle) (s : Supply) :
    (w.append e s).controller = w.controller.appendConditions e s.conditions := rfl

/-- What the calls of a series add up to: one call with all their conditions. -/
theorem appendSeries_eq (w : Run) (e : EdgeHandle) (s : Series Supply) :
    w.appendSeries e s =
      { w.append e ⟨(s.map (·.conditions)).flatten, (s.map (·.gaps)).flatten⟩ with
        reports := w.reports ++ List.replicate s.size (.series e) } := by
  induction s generalizing w with
  | done => simp [appendSeries, append, onController, meet, Series.map, Series.flatten, Series.size]
  | and s next ih =>
    rw [appendSeries, ih]
    simp [append, report, onController, meet, Series.map, Series.flatten, Series.size,
      List.replicate_succ, Controller.appendConditions_append]
  | nested inner next ihInner ihNext =>
    rw [appendSeries, ihInner, ihNext]
    simp [append, report, onController, meet, Series.map, Series.flatten, Series.size,
      List.replicate_succ, List.replicate_append_replicate, Controller.appendConditions_append]

@[simp] theorem controller_appendSeries (w : Run) (e : EdgeHandle) (s : Series Supply) :
    (w.appendSeries e s).controller =
      w.controller.appendConditions e (s.map (·.conditions)).flatten := by
  rw [appendSeries_eq]
  rfl

@[simp] theorem controller_fork (w : Run) (e : EdgeHandle) (route : Route) :
    (w.fork e route).1.controller = (w.controller.fork e route).1 := rfl

@[simp] theorem snd_fork (w : Run) (e : EdgeHandle) (route : Route) :
    (w.fork e route).2 = (w.controller.fork e route).2 := rfl

@[simp] theorem controller_keep (w : Run) (slot : String) (e : EdgeHandle) :
    (w.keep slot e).controller = w.controller := rfl

@[simp] theorem controller_forkEach (w : Run) (route : Route) (e : EdgeHandle)
    (cs : List Condition) :
    (w.forkEach route e cs).1.controller = (w.controller.forkEach route e cs).1 := rfl

@[simp] theorem snd_forkEach (w : Run) (route : Route) (e : EdgeHandle) (cs : List Condition) :
    (w.forkEach route e cs).2 = (w.controller.forkEach route e cs).2.map
      fun f => ⟨(w.controller.forkEach route e cs).1.id, f⟩ := rfl

end Run

end Statechart
