import Statechart.Proofs.Moments
import Statechart.Proofs.NormalForm

/-! What a run does to a controller, as the steps that it is made of: edges of the transition get
conditions or are forked, and alternatives that are refused are taken back. -/

namespace Statechart

namespace Controller

variable {c d : Controller} {e f g : EdgeHandle} {n : Nat}

theorem own_fork {route : Route} (hn : n ≤ c.edges.length)
    (hb : (c.fork f route).1.edges.length < 2 ^ 32) :
    (c.fork f route).1.Own e n (c.fork f route).2 := by
  rw [edges_fork, List.length_append, List.length_singleton] at hb
  have hindex := EdgeHandle.index_ofIndex (i := c.edges.length) (by omega)
  refine .inr ⟨?_, ?_⟩ <;> simp [hindex, hn]

def revise (c : Controller) (e : EdgeHandle) (edits : List SettingsEdit) : Controller :=
  c.withEdges (c.edges.modify e.index (·.edited edits))

@[simp] theorem revise_nil (c : Controller) (e : EdgeHandle) : c.revise e [] = c := by
  have hid : (fun x : Edge => x.edited []) = (fun x => x) := funext Edge.edited_nil
  rw [revise, hid, show c.edges.modify e.index (fun x => x) = c.edges from List.modify_id _ _,
    withEdges_edges]

theorem revise_cons (c : Controller) (e : EdgeHandle) (edit : SettingsEdit)
    (edits : List SettingsEdit) :
    c.revise e (edit :: edits) = (c.modifySettings e (edit.apply ·)).revise e edits := by
  have hcomp : (fun x : Edge => x.edited (edit :: edits)) =
      (fun x => x.edited edits) ∘
        fun x => { x with settings := x.settings.map (edit.apply ·) } := by
    funext x
    rw [Edge.edited_cons]
    rfl
  rw [revise, hcomp, ← List.modify_modify_eq, revise, modifySettings_eq_withEdges,
    edges_withEdges, withEdges_withEdges]

@[simp] theorem edges_rollback (c : Controller) (m : Mark) :
    (c.rollback m).edges = (c.edges.take m.next).modify m.start.index
      fun x => x.guarded (x.conditions.take m.startConditions) := rfl

theorem length_forkEach (c : Controller) (route : Route) (e : EdgeHandle) (cs : List Condition) :
    (c.forkEach route e cs).1.edges.length = c.edges.length + (cs.length - 1) := by
  induction cs generalizing c e with
  | nil => rfl
  | cons x cs ih =>
    cases cs with
    | nil => simp [forkEach]
    | cons y ys =>
      simp only [forkEach, ih, edges_fork, List.length_append, edges_appendConditions,
        List.length_modify, List.length_cons, List.length_nil]
      omega

theorem mem_of_claim {m : Mark} {route : Route} (ts : List Clause) {found es : List EdgeHandle}
    (h : c.claim m route ts found = .ok es) (hg : g ∈ es) :
    g ∈ found ∨ ∃ t ∈ ts, t.edge = g ∧ c.owns m route t = true := by
  induction ts generalizing found with
  | nil =>
    simp only [claim, Except.ok.injEq] at h
    exact .inl (h ▸ hg)
  | cons t ts ih =>
    simp only [claim] at h
    split at h
    · rename_i ht
      rcases ih h with hfound | ⟨u, hu, rfl, howned⟩
      · by_cases hg : g ∈ found
        · exact .inl hg
        · have heq : t.edge = g := by
            split at hfound
            · exact absurd hfound hg
            · exact ((List.mem_append.mp hfound).resolve_left hg |> List.mem_singleton.mp).symm
          exact .inr ⟨t, by simp, heq, ht⟩
      · exact .inr ⟨u, List.mem_cons_of_mem t hu, rfl, howned⟩
    · cases h

end Controller

/-- What can be done to a controller by a transition along `route`, which began with the edge `e`
when there were `n` edges. -/
inductive Effect (route : Route) : EdgeHandle → Nat → Controller → Controller → Prop
  | refl {e : EdgeHandle} {n : Nat} {c : Controller} : Effect route e n c c
  | trans {e : EdgeHandle} {n : Nat} {a b c : Controller} (first : Effect route e n a b)
      (second : Effect route e n b c) : Effect route e n a c
  | append {e f : EdgeHandle} {n : Nat} {c : Controller} (own : c.Own e n f)
      (cs : List Condition) : Effect route e n c (c.appendConditions f cs)
  | fork {e f : EdgeHandle} {n : Nat} {c : Controller} (own : c.Own e n f) :
      Effect route e n c (c.fork f route).1
  | refuse {e f : EdgeHandle} {n : Nat} {c d : Controller} (own : c.Own e n f)
      (inner : Effect route f c.edges.length c d) : Effect route e n c (d.rollback (c.mark f))

namespace Effect

variable {route : Route} {e f : EdgeHandle} {n : Nat} {c d : Controller}

theorem length_le (h : Effect route e n c d) : c.edges.length ≤ d.edges.length := by
  induction h with
  | refl => exact Nat.le_refl _
  | trans _ _ first second => exact Nat.le_trans first second
  | append own cs => simp
  | fork own => simp
  | refuse own inner ih => simp [Controller.mark, ih]

theorem widen {m : Nat} (h : Effect route f m c d) (hf : c.Own e n f) (hn : n ≤ m) :
    Effect route e n c d := by
  induction h with
  | refl => exact .refl
  | trans first _ ihFirst ihSecond =>
    exact (ihFirst hf hn).trans (ihSecond (hf.mono first.length_le) hn)
  | append own cs => exact .append (own.widen hf hn) cs
  | fork own => exact .fork (own.widen hf hn)
  | refuse own inner => exact .refuse (own.widen hf hn) inner

theorem forkEach (cs : List Condition) (hn : n ≤ c.edges.length) (hf : c.Own e n f)
    (hb : (c.forkEach route f cs).1.edges.length < 2 ^ 32) :
    Effect route e n c (c.forkEach route f cs).1 ∧
      ∀ g ∈ (c.forkEach route f cs).2, (c.forkEach route f cs).1.Own e n g := by
  induction cs generalizing c f with
  | nil => exact ⟨.refl, by simpa [Controller.forkEach] using hf⟩
  | cons x cs ih =>
    have happ : Effect route e n c (c.appendConditions f [x]) := .append hf [x]
    cases cs with
    | nil => exact ⟨happ, by simpa [Controller.forkEach] using hf.mono happ.length_le⟩
    | cons y ys =>
      have hfork : Effect route e n (c.appendConditions f [x])
          ((c.appendConditions f [x]).fork f route).1 := .fork (hf.mono happ.length_le)
      rw [Controller.length_forkEach] at hb
      have hrest : Effect route e n ((c.appendConditions f [x]).fork f route).1
            (((c.appendConditions f [x]).fork f route).1.forkEach route
              ((c.appendConditions f [x]).fork f route).2 (y :: ys)).1 ∧
          ∀ g ∈ (((c.appendConditions f [x]).fork f route).1.forkEach route
              ((c.appendConditions f [x]).fork f route).2 (y :: ys)).2,
            (((c.appendConditions f [x]).fork f route).1.forkEach route
              ((c.appendConditions f [x]).fork f route).2 (y :: ys)).1.Own e n g := by
        apply ih
        · simp; omega
        · refine Controller.own_fork (by simpa using hn) ?_
          simp at hb ⊢
          omega
        · rw [Controller.length_forkEach]
          simp at hb ⊢
          omega
      have hall := (happ.trans hfork).trans hrest.1
      exact ⟨hall, List.forall_mem_cons.mpr ⟨hf.mono hall.length_le, hrest.2⟩⟩

theorem each {s : Supply} {w : Run} {es : List EdgeHandle}
    (hb : (Choice.each s).Fits route f es w) :
    Effect route f w.controller.edges.length w.controller
      ((Choice.each s).make route f w).1.controller :=
  (forkEach s.conditions (Nat.le_refl _) .start (hb _ (List.mem_singleton_self _))).1

theorem foldl {step : Run → EdgeHandle → Run} {cs : List Condition}
    (hstep : ∀ w f, (step w f).controller = w.controller.appendConditions f cs)
    (fs : List EdgeHandle) {w : Run} (hf : ∀ f ∈ fs, w.controller.Own e n f) :
    Effect route e n w.controller (fs.foldl step w).controller := by
  induction fs generalizing w with
  | nil => exact .refl
  | cons f fs ih =>
    have happ : Effect route e n w.controller (step w f).controller := by
      rw [hstep]
      exact .append (hf f (by simp)) cs
    exact happ.trans (ih fun g hg => (hf g (by simp [hg])).mono happ.length_le)

theorem appended {w v : Run} (cs : List Condition) (hf : w.controller.Own e n f)
    (hv : v.controller = w.controller.appendConditions f cs) :
    Effect route e n w.controller v.controller ∧ ∀ g ∈ [f], v.controller.Own e n g := by
  have happ : Effect route e n w.controller v.controller := hv ▸ .append hf cs
  exact ⟨happ, by simpa using hf.mono happ.length_le⟩

/-- The edges that a role is spread over all get the same conditions. -/
theorem spread {w : Run} (cs : List Condition) {step : Run → EdgeHandle → Run}
    (hstep : ∀ w f, (step w f).controller = w.controller.appendConditions f cs)
    {fs : List EdgeHandle} (hf : ∀ f ∈ fs, w.controller.Own e n f) :
    Effect route e n w.controller (fs.foldl step (w.reportRole (.spread fs))).controller ∧
      ∀ g ∈ fs, (fs.foldl step (w.reportRole (.spread fs))).controller.Own e n g := by
  have happ : Effect route e n (w.reportRole (.spread fs)).controller
      (fs.foldl step (w.reportRole (.spread fs))).controller := foldl hstep fs (by simpa using hf)
  rw [Run.controller_reportRole] at happ
  exact ⟨happ, fun g hg => (hf g hg).mono happ.length_le⟩

theorem forked {w : Run} {r : Role} {k : Cursor r} (hn : n ≤ w.controller.edges.length)
    (hf : w.controller.Own e n f)
    (hlt : ((w.reportRole k).fork f route).1.controller.edges.length < 2 ^ 32) :
    Effect route e n w.controller ((w.reportRole k).fork f route).1.controller ∧
      ∀ g ∈ [((w.reportRole k).fork f route).2],
        ((w.reportRole k).fork f route).1.controller.Own e n g := by
  simp only [Run.controller_fork, Run.snd_fork, Run.controller_reportRole] at hlt ⊢
  exact ⟨.fork hf, List.forall_mem_singleton.mpr (Controller.own_fork hn hlt)⟩

/-- Of a choice whose alternatives were made by the transition, either all edges claimed are its
own, or everything is taken back. -/
theorem claim {w made : Run} (hn : n ≤ w.controller.edges.length) (hf : w.controller.Own e n f)
    (hmade : Effect route f w.controller.edges.length w.controller made.controller)
    (tokens : List Clause) :
    match made.claim (w.controller.mark f) route tokens with
    | (after, .ok es) => Effect route e n w.controller after.controller ∧
        ∀ g ∈ es, after.controller.Own e n g
    | (after, .error _) => Effect route e n w.controller after.controller := by
  cases hc : made.controller.claim (w.controller.mark f) route tokens [] with
  | error fault =>
    simp only [Run.claim, hc]
    exact .refuse hf hmade
  | ok es =>
    simp only [Run.claim, hc]
    -- a claimed edge is the marked one or made since, so it was made by the outer transition
    refine ⟨hmade.widen hf hn, fun g hg => ?_⟩
    obtain ⟨t, -, rfl, howned⟩ := (Controller.mem_of_claim tokens hc hg).resolve_left (by simp)
    exact (Controller.owns_iff.mp howned).2.1.widen (hf.mono hmade.length_le) hn

end Effect

namespace Chain

/-- A run of the chain does nothing to a controller but what the transition may do that gets the
conditions, once the settings are made. -/
def Confined (route : Route) {r : Role} (chain : Chain Supply r) : Prop :=
  ∀ ⦃k : Cursor r⦄ ⦃w : Run⦄ ⦃e : EdgeHandle⦄ ⦃n : Nat⦄ ⦃es : List EdgeHandle⦄,
    n ≤ w.controller.edges.length → (∀ f ∈ k.edges, w.controller.Own e n f) →
    (r = .fresh true → k.edges = [e]) → chain.Fits route k es w →
    Effect route e n (w.controller.revise e chain.edits) (chain.run route k w).controller

/-- Nor does it at any point before its end, if it makes no settings. -/
def Traced (route : Route) {r : Role} (chain : Chain Supply r) : Prop :=
  ∀ ⦃k : Cursor r⦄ ⦃w : Run⦄ ⦃e : EdgeHandle⦄ ⦃n : Nat⦄ ⦃es : List EdgeHandle⦄ ⦃d : Controller⦄,
    chain.edits = [] → n ≤ w.controller.edges.length →
    (∀ f ∈ k.edges, w.controller.Own e n f) → chain.Fits route k es w →
    chain.Passes route k es w d → Effect route e n w.controller d

variable {route : Route} {e f : EdgeHandle} {n : Nat} {w v : Run} {es : List EdgeHandle}
  {d : Controller} {r r' : Role} {k : Cursor r} {k' : Cursor r'}

theorem Traced.after {next : Chain Supply r} (h : next.Traced route) (hr : r ≠ .fresh true)
    (hn : n ≤ w.controller.edges.length)
    (hfirst : Effect route e n w.controller v.controller)
    (hk : ∀ f ∈ k.edges, v.controller.Own e n f) (hb : next.Fits route k es v)
    (hd : next.Passes route k es v d) : Effect route e n w.controller d := by
  have hle := hfirst.length_le
  exact hfirst.trans (h (edits_eq_nil next hr) (by omega) hk hb hd)

/-- A call does its part of the work, and what follows it does the rest. -/
theorem Traced.call {chain : Chain Supply r} {next : Chain Supply r'} (h : next.Traced route)
    (hb : chain.Fits route k es w) (hd : chain.Passes route k es w d) (hr : r' ≠ .fresh true)
    (hrun : chain.run route k w = next.run route k' v)
    (hmoments : chain.moments route k es w =
      ⟨r, k, es, w.controller⟩ :: next.moments route k' es v)
    (hn : n ≤ w.controller.edges.length)
    (hfirst : v.controller.edges.length < 2 ^ 32 →
      Effect route e n w.controller v.controller ∧ ∀ f ∈ k'.edges, v.controller.Own e n f) :
    Effect route e n w.controller d := by
  rw [Fits, hmoments, List.forall_mem_cons] at hb
  have hnext : next.Fits route k' es v := hb.2
  obtain ⟨heffect, hown⟩ := hfirst hnext.length_lt
  rcases hd.later hrun hmoments with rfl | hd
  · exact .refl
  · exact h.after hr hn heffect hown hnext hd

/-- Alternatives are made by a transition of their own. -/
theorem Traced.begun {inner : Chain Supply (.fresh false)} (h : inner.Traced route)
    (hb : inner.Fits route (.fresh f) es w) (hd : inner.Passes route (.fresh f) es w d) :
    Effect route f w.controller.edges.length w.controller d :=
  h (edits_eq_nil inner (by simp)) (Nat.le_refl _) (by simpa using .start) hb hd

theorem Traced.choice {next : Chain Supply .spread} (h : next.Traced route) (choice : Choice)
    (hinside : ∀ {v : Run} {d : Controller}, choice.Fits route f es v →
      choice.Passes route f es v d → Effect route f v.controller.edges.length v.controller d)
    {timed : Bool} (hn : n ≤ w.controller.edges.length) (hf : w.controller.Own e n f)
    (hb : (choice.chain next : Chain Supply (.fresh timed)).Fits route (.fresh f) es w)
    (hd : (choice.chain next : Chain Supply (.fresh timed)).Passes route (.fresh f) es w d) :
    Effect route e n w.controller d := by
  obtain ⟨v, hv⟩ : ∃ v, w.reportRole (r := .fresh timed) (.fresh f) = v := ⟨_, rfl⟩
  have hcontroller : w.controller = v.controller := by rw [← hv, Run.controller_reportRole]
  rw [Fits, Choice.moments_chain, List.forall_mem_append, hv] at hb
  have hfits : choice.Fits route f es v := fun m hm => hb.1 m (List.mem_cons_of_mem _ hm)
  rw [hcontroller] at hn hf
  rcases Choice.passes_chain hv hd with rfl | hd | hd
  · exact .refl
  · exact hcontroller ▸ (hinside hfits hd).widen hf hn
  · rw [hcontroller]
    have hclaim := Effect.claim hn hf (hinside hfits (.inl rfl)) (choice.make route f v).2
    rw [← Choice.run] at hclaim
    cases hr : choice.run route f v with
    | mk after answer =>
      rw [hr] at hclaim hd
      cases answer with
      | error fault => exact hd ▸ hclaim
      | ok fs =>
        have hnext : next.Fits route (.spread fs) es after := fun m hm => hb.2 m (by rwa [hr])
        exact h.after (k := .spread fs) (by simp) hn hclaim.1 hclaim.2 hnext hd

theorem traced (route : Route) {r : Role} (chain : Chain Supply r) : chain.Traced route := by
  induction chain with
  | stop | unreadable =>
    intro k w e n es d _ hn hk hb hd
    rcases hd with rfl | ⟨m, hm, rfl⟩
    · simpa [run] using Effect.refl
    · exact List.mem_singleton.mp hm ▸ .refl
  | set edit next =>
    intro k w e n es d hedits
    cases hedits
  | settle next ih | whenAlways next ih =>
    intro k w e n es d _ hn hk hb hd
    cases k with | fresh f =>
    exact ih.call hb hd (by simp) rfl rfl hn fun _ =>
      ⟨by simpa using Effect.refl, by simpa using hk⟩
  | keep slot next ih =>
    intro k w e n es d _ hn hk hb hd
    cases k with | clause f =>
    exact ih.call hb hd (by simp) rfl rfl hn fun _ =>
      ⟨by simpa using Effect.refl, by simpa using hk⟩
  | when s next ih | whenAll s next ih =>
    intro k w e n es d _ hn hk hb hd
    cases k with | fresh f =>
    exact ih.call hb hd (by simp) rfl rfl hn fun _ =>
      Effect.appended s.conditions (hk f (by simp)) (by simp)
  | and s next ih | andAll s next ih =>
    intro k w e n es d _ hn hk hb hd
    cases k with | clause f =>
    exact ih.call hb hd (by simp) rfl rfl hn fun _ =>
      Effect.appended s.conditions (hk f (by simp)) (by simp)
  | andEach s next ih | andAllEach s next ih =>
    intro k w e n es d _ hn hk hb hd
    cases k with | spread fs =>
    exact ih.call hb hd (by simp) rfl rfl hn fun _ =>
      Effect.spread s.conditions (fun _ _ => by simp) hk
  | @whenWithOr timed inner next ihInner ih =>
    intro k w e n es d _ hn hk hb hd
    cases k with | fresh f =>
    rw [Fits, moments, List.forall_mem_append] at hb
    have hinner {d : Controller} : inner.Passes route (.fresh f) (f :: es)
        (w.reportRole (r := .fresh timed) (.fresh f)) d → Effect route e n w.controller d :=
      ihInner.after (by simp) hn (by simpa using Effect.refl) (by simpa using hk)
        fun m hm => hb.1 m (List.mem_cons_of_mem _ hm)
    have hrest : next.Passes route (.forked f) es
        (inner.run route (.fresh f) (w.reportRole (r := .fresh timed) (.fresh f))) d →
          Effect route e n w.controller d :=
      ih.after (by simp) hn (hinner (.inl rfl))
        (by simpa using (hk f (by simp)).mono (hinner (.inl rfl)).length_le) hb.2
    rcases hd with rfl | ⟨m, hm, rfl⟩
    · exact hrest (.inl rfl)
    · rw [moments, List.mem_append, List.mem_cons] at hm
      rcases hm with (rfl | hm) | hm
      · exact .refl
      · exact hinner (.inr ⟨m, hm, rfl⟩)
      · exact hrest (.inr ⟨m, hm, rfl⟩)
  | whenAnyOf s next ih =>
    intro k w e n es d _ hn hk hb hd
    cases k with | fresh f =>
    refine ih.choice (.each s) (fun hfits hd => ?_) hn (hk f (by simp)) hb hd
    rcases hd with rfl | ⟨m, hm, rfl⟩
    · exact Effect.each hfits
    · exact List.mem_singleton.mp hm ▸ Effect.each hfits
  | whenAny inner slots next ihInner ih =>
    intro k w e n es d _ hn hk hb hd
    cases k with | fresh f =>
    exact ih.choice (.returned inner slots) ihInner.begun hn (hk f (by simp)) hb hd
  | or next ih =>
    intro k w e n es d _ hn hk hb hd
    cases k with | clause f =>
    exact ih.call hb hd (by simp) rfl rfl hn (Effect.forked hn (hk f (by simp)))
  | orElse next ih =>
    intro k w e n es d _ hn hk hb hd
    cases k with | forked f =>
    exact ih.call hb hd (by simp) rfl rfl hn (Effect.forked hn (hk f (by simp)))

theorem confined (route : Route) {r : Role} (chain : Chain Supply r) : chain.Confined route := by
  induction chain with
  | set edit next ih =>
    intro k w e n es hn hk hs hb
    cases k with | fresh f =>
    obtain rfl : f = e := by simpa using hs rfl
    have hh := ih (w := (w.reportRole (r := .fresh true) (.fresh f)).onController
      (·.modifySettings f (edit.apply ·))) (k := .fresh f) (by simpa using hn)
      (by simpa using Controller.Own.start) (fun _ => rfl)
      (fun m hm => hb m (List.mem_cons_of_mem _ hm))
    simpa [run, edits, Controller.revise_cons] using hh
  | _ =>
    intro k w e n es hn hk _ hb
    simp only [edits, Controller.revise_nil]
    exact traced route _ rfl hn hk hb (.inl rfl)

end Chain

theorem Choice.effect_make {route : Route} {e : EdgeHandle} {es : List EdgeHandle} {w : Run}
    (choice : Choice) (hb : choice.Fits route e es w) :
    Effect route e w.controller.edges.length w.controller
      (choice.make route e w).1.controller := by
  cases choice with
  | each s => exact Effect.each hb
  | returned inner slots => exact (inner.traced route).begun hb (.inl rfl)

end Statechart
