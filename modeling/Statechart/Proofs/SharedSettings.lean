import Mathlib.Data.List.Induction
import Statechart.Proofs.Topology
import Statechart.Proofs.Travel

/-! The settings that the edges of a transition share. They are made before the first condition, and
every fork copies them, so that they can be read off the calls at any point of a run. -/

namespace Statechart

namespace SettingsEdit

def duration? : SettingsEdit → Option Single
  | durationSeconds x | durationPercent x => some x
  | _ => none

def fixedDuration? : SettingsEdit → Option Bool
  | durationSeconds _ => some true
  | durationPercent _ => some false
  | _ => none

def offset? : SettingsEdit → Option Single
  | offset x => some x
  | _ => none

def interruption? : SettingsEdit → Option Interruption
  | interruption i => some i
  | _ => none

def orderedInterruption? : SettingsEdit → Option Bool
  | orderedInterruption b => some b
  | _ => none

def transitionToSelf? : SettingsEdit → Option Bool
  | transitionToSelf b => some b
  | _ => none

def exitTime? : SettingsEdit → Option Single
  | exitTime x => some x
  | _ => none

def hasExitTime? (edit : SettingsEdit) : Option Bool := edit.exitTime?.map fun _ => true

/-- What is said last about a setting, or else what it was. -/
def latest {α : Type} (read : SettingsEdit → Option α) (edits : List SettingsEdit) (was : α) : α :=
  (edits.filterMap read).getLast?.getD was

@[simp] theorem latest_nil {α : Type} (read : SettingsEdit → Option α) (was : α) :
    latest read [] was = was := rfl

theorem latest_concat {α : Type} (read : SettingsEdit → Option α) (edits : List SettingsEdit)
    (edit : SettingsEdit) (was : α) :
    latest read (edits ++ [edit]) was = (read edit).getD (latest read edits was) := by
  cases h : read edit <;> simp [latest, List.filterMap_append, h]

end SettingsEdit

open SettingsEdit in
/-- Settings after some edits, field by field: the last edit that writes a field decides. -/
def TransitionSettings.after (s : TransitionSettings) (edits : List SettingsEdit) :
    TransitionSettings where
  duration := latest duration? edits s.duration
  offset := latest offset? edits s.offset
  hasFixedDuration := latest fixedDuration? edits s.hasFixedDuration
  hasExitTime := latest hasExitTime? edits s.hasExitTime
  exitTime := latest exitTime? edits s.exitTime
  interruption := latest interruption? edits s.interruption
  orderedInterruption := latest orderedInterruption? edits s.orderedInterruption
  canTransitionToSelf := latest transitionToSelf? edits s.canTransitionToSelf

theorem SettingsEdit.foldl_apply (s : TransitionSettings) (edits : List SettingsEdit) :
    edits.foldl apply s = s.after edits := by
  induction edits using List.reverseRecOn with
  | nil => rfl
  | append_singleton edits edit ih =>
    rw [List.foldl_append, List.foldl_cons, List.foldl_nil, ih]
    simp only [TransitionSettings.after, latest_concat]
    cases edit <;> rfl

namespace Chain

/-- At every point of a run, as many of the settings were made as come before it, and nothing was
done since but what the transition may do. -/
theorem exists_effect {route : Route} {e : EdgeHandle} {n : Nat} {es : List EdgeHandle} {m : Moment}
    {r : Role} (chain : Chain Supply r) {k : Cursor r} {w : Run}
    (hn : n ≤ w.controller.edges.length) (hk : ∀ f ∈ k.edges, w.controller.Own e n f)
    (hs : r = .fresh true → k.edges = [e]) (hb : chain.Fits route k es w)
    (hm : m ∈ chain.moments route k es w) :
    ∃ made, made <+: chain.edits ∧ (m.role = .fresh true ∨ made = chain.edits) ∧
      Effect route e n (w.controller.revise e made) m.controller := by
  induction chain generalizing w with
  | set edit next ih =>
    cases k with | fresh f =>
    obtain rfl : f = e := by simpa using hs rfl
    rcases List.mem_cons.mp hm with rfl | hm
    · exact ⟨[], List.nil_prefix, .inl rfl, by simpa using Effect.refl⟩
    · obtain ⟨made, hmade, hall, heffect⟩ := ih (k := .fresh f) (by simpa using hn)
        (by simpa using Controller.Own.start) (fun _ => rfl)
        (fun m hm => hb m (List.mem_cons_of_mem _ hm)) hm
      refine ⟨edit :: made, by simpa [edits] using hmade, hall.imp_right fun h => ?_, ?_⟩
      · rw [h, edits]
      · simpa [Controller.revise_cons] using heffect
  | _ =>
    have heffect := traced route _ rfl hn hk hb (.inr ⟨m, hm, rfl⟩)
    exact ⟨[], List.nil_prefix, .inr rfl, by simpa using heffect⟩

end Chain

namespace Controller

variable {c : Controller} {o : Opening} {machine : MachineHandle} {route : Route}

def openingSettings (c : Controller) (o : Opening) (edits : List SettingsEdit) :
    Option TransitionSettings :=
  match o.flavor with
  | .timed => some (c.defaults.transition.after edits)
  | .untimed => none

/-- The controller `d` is `c` with some edges more, which are alike but for their conditions. -/
def HasDrawn (c : Controller) (machine : MachineHandle) (route : Route)
    (settings : Option TransitionSettings) (d : Controller) : Prop :=
  ∃ ds : List (List Condition), ds ≠ [] ∧
    d = c.withEdges (c.edges ++ ds.map fun conditions => ⟨machine, route, settings, conditions⟩)

theorem guarded_edited_blankEdge (hflavor : route.flavor = o.flavor) (edits : List SettingsEdit) :
    ((c.blankEdge route machine).edited edits).guarded =
      fun conditions => ⟨machine, route, c.openingSettings o edits, conditions⟩ := by
  funext conditions
  cases h : o.flavor <;>
    simp [Edge.guarded, Edge.edited, blankEdge, openingSettings, hflavor, h,
      SettingsEdit.foldl_apply]

theorem hasDrawn_of_effect (hflavor : route.flavor = o.flavor) (hlt : c.edges.length < 2 ^ 32)
    {edits : List SettingsEdit} {d : Controller}
    (h : Effect route (.ofIndex c.edges.length) c.edges.length
      ((c.withEdges (c.edges ++ [c.blankEdge route machine])).revise
        (.ofIndex c.edges.length) edits) d) :
    c.HasDrawn machine route (c.openingSettings o edits) d := by
  rw [Chain.revise_started hlt] at h
  obtain ⟨ds, hds, hd⟩ :=
    Effect.eq_withEdges ((c.settled_blankEdge route machine).edited edits) hlt h
  rw [guarded_edited_blankEdge hflavor] at hd
  exact ⟨ds, hds, hd⟩

end Controller

namespace Chain

/-- All edges that a chain makes are alike but for their conditions, at the end of its run and at
every point of it. They are those of the opening, and if it is timed, their settings are the
defaults as the edits leave them. -/
theorem hasDrawn {c started : Controller} {o : Opening} {e : EdgeHandle} {route : Route}
    (hs : c.start o = .ok (started, e, route)) (chain : Chain Supply (.fresh (o.flavor = .timed)))
    (tokens : List (String × Clause)) (reports : List Report) (gaps : List Gap)
    (hb : chain.Fits route (.fresh e) [] ⟨started, tokens, reports, gaps⟩) :
    ∃ machine, c.plan o = .ok (machine, route) ∧
      c.HasDrawn machine route (c.openingSettings o chain.edits)
        (chain.run route (.fresh e) ⟨started, tokens, reports, gaps⟩).controller ∧
      ∀ m ∈ chain.moments route (.fresh e) [] ⟨started, tokens, reports, gaps⟩,
        ∃ made, made <+: chain.edits ∧ (m.role = .fresh true ∨ made = chain.edits) ∧
          c.HasDrawn machine route (c.openingSettings o made) m.controller := by
  obtain ⟨machine, hplan, rfl, rfl⟩ := Controller.start_eq_ok c e route hs
  have hflavor := Controller.flavor_of_plan hplan
  have hlt := hb.length_lt
  rw [Controller.edges_withEdges, List.length_append, List.length_singleton] at hlt
  refine ⟨machine, hplan, ?_, fun m hm => ?_⟩
  · refine Controller.hasDrawn_of_effect hflavor (by omega) ?_
    exact chain.confined route (n := c.edges.length) (k := .fresh (.ofIndex c.edges.length))
      (by simp) (by simpa using .start) (fun _ => rfl) hb
  · obtain ⟨made, hmade, hall, heffect⟩ := chain.exists_effect (n := c.edges.length)
      (k := .fresh (.ofIndex c.edges.length)) (by simp) (by simpa using .start) (fun _ => rfl) hb hm
    exact ⟨made, hmade, hall, Controller.hasDrawn_of_effect hflavor (by omega) heffect⟩

/-- The last duration and the last exit time count, for the edge of a choice that was refused
too. -/
theorem hasDrawn_refused :
    let half : Single := ⟨0x3f000000⟩
    let o := Opening.anyState Controller.bareRoot (.machine Controller.bareRoot)
    let route := Route.anyState Controller.bareRoot (.machine Controller.bareRoot)
    let supply (name : String) := Supply.ofConditions [⟨name, .isTrue, .zero false⟩]
    let chain : Chain Supply (.fresh true) :=
      .set (.durationSeconds half) (.set (.exitTime half) (.set (.durationPercent (.zero true))
        (.set (.orderedInterruption false) (.set (.exitTime (.zero true)) (.whenWithOr
          (.when (supply "a") (.or (.when (supply "b") .stop)))
          (.orElse (.whenAny (.when (supply "c") (.keep "mine" (.or (.when (supply "d") .stop))))
            ["mine", "earlier"] .stop)))))))
    let started := (Controller.bare.createEdge Controller.bareRoot route).1
    let final := (chain.run route (.fresh (.ofIndex 0))
      ⟨started, [("earlier", ⟨Controller.bare.id, .ofIndex 7⟩)], [], []⟩).controller
    Controller.bare.start o = .ok (started, .ofIndex 0, route) ∧
      final.edges.map (·.conditions.map (·.parameter)) = [["a"], ["b"], []] ∧
      ∀ x ∈ final.edges, x.machine = Controller.bareRoot ∧ x.route = route ∧
        x.settings =
          some ⟨.zero true, .zero false, false, true, .zero true, .none, false, false⟩ := by
  intro half o route supply chain started final
  have hs : Controller.bare.start o = .ok (started, .ofIndex 0, route) := rfl
  have hb : chain.Fits route (.fresh (.ofIndex 0)) []
      ⟨started, [("earlier", ⟨Controller.bare.id, .ofIndex 7⟩)], [], []⟩ := by
    unfold Fits
    decide
  refine ⟨hs, by decide +kernel, fun x hx => ?_⟩
  obtain ⟨machine, hplan, ⟨ds, -, hfinal⟩, -⟩ := hasDrawn hs chain _ [] [] hb
  obtain ⟨rfl, -⟩ := Prod.mk.inj (Except.ok.inj hplan)
  rw [show final = _ from hfinal] at hx
  obtain ⟨conditions, -, rfl⟩ := List.mem_map.mp hx
  exact ⟨rfl, rfl, rfl⟩

end Chain

end Statechart
