import Statechart.Proofs.Accesses
import Statechart.Proofs.SharedSettings

/-! Edges that roles name exist as long as the roles are alive, also where alternatives further in
are taken back. So every access of a run finds its edge. -/

namespace Statechart

namespace Controller

variable {c d : Controller} {e f : EdgeHandle} {n : Nat} {route : Route}

theorem length_foldl_appendConditions (c : Controller) (fs : List EdgeHandle)
    (cs : List Condition) :
    (fs.foldl (·.appendConditions · cs) c).edges.length = c.edges.length := by
  induction fs generalizing c with
  | nil => rfl
  | cons f fs ih => simp [ih]

/-- An edge that is there, and that was not there yet when there were `n` edges. -/
def Live (c : Controller) (n : Nat) (f : EdgeHandle) : Prop :=
  n ≤ f.index ∧ f.index < c.edges.length

theorem Live.mono (h : c.Live n f) (hle : c.edges.length ≤ d.edges.length) : d.Live n f :=
  ⟨h.1, by have := h.2; omega⟩

theorem Own.live (h : c.Own e n f) (he : c.Live n e) : c.Live n f := by
  rcases h with rfl | h
  · exact he
  · exact h

/-- The edges from `n` on are all along one route, and have settings exactly if they are timed. -/
def Uniform (route : Route) (n : Nat) (c : Controller) : Prop :=
  ∀ ⦃i : Nat⦄ ⦃x : Edge⦄, n ≤ i → c.edges[i]? = some x → x.route = route ∧ x.Settled

theorem Uniform.modify (h : Uniform route n c) {es : List Edge} {i : Nat} {f : Edge → Edge}
    (hf : ∀ x, (f x).route = x.route ∧ (x.Settled → (f x).Settled))
    (hes : ∀ (j : Nat) (x : Edge), es[j]? = some x → c.edges[j]? = some x) :
    Uniform route n (c.withEdges (es.modify i f)) := by
  intro j x hj hx
  rw [edges_withEdges, List.getElem?_modify] at hx
  obtain ⟨y, hy, rfl⟩ := Option.map_eq_some_iff.mp hx
  obtain ⟨rfl, hs⟩ := h hj (hes j y hy)
  by_cases hi : i = j
  · simp only [hi, if_true]
    exact ⟨(hf y).1, (hf y).2 hs⟩
  · simp only [hi, if_false]
    exact ⟨trivial, hs⟩

theorem Uniform.of_mem_drop (h : Uniform route n c) {x : Edge} (hx : x ∈ c.edges.drop n) :
    x.route = route ∧ x.Settled := by
  obtain ⟨i, hi⟩ := List.mem_iff_getElem?.mp hx
  rw [List.getElem?_drop] at hi
  exact h (Nat.le_add_right n i) hi

theorem Uniform.perform (h : Uniform route n c) (access : Access) :
    Uniform route n (access.perform route c) := by
  cases access with
  | append e cs =>
    exact h.modify (f := fun x => x.guarded (x.conditions ++ cs)) (fun _ => ⟨rfl, fun hs => hs⟩)
      fun _ _ hx => hx
  | edit e edit =>
    exact h.modify (f := fun x => { x with settings := x.settings.map (edit.apply ·) })
      (fun _ => ⟨rfl, fun hs => hs.map _⟩) fun _ _ hx => hx
  | fork e =>
    intro i x hi hx
    rcases getElem?_concat_eq_some.mp hx with hx | ⟨-, rfl⟩
    · exact h hi hx
    · exact ⟨rfl, c.settled_offshoot e route⟩
  | mark e => exact h
  | rollback m =>
    refine h.modify (f := fun x => x.guarded (x.conditions.take m.startConditions))
      (fun _ => ⟨rfl, fun hs => hs⟩) fun j x hx => ?_
    rw [List.getElem?_take] at hx
    split at hx
    · exact hx
    · cases hx

def Blank (c : Controller) (f : EdgeHandle) : Prop :=
  ∀ x, c.edges[f.index]? = some x → x.conditions = []

theorem Blank.modifySettings (h : c.Blank f) (g : TransitionSettings → TransitionSettings) :
    (c.modifySettings e g).Blank f := by
  intro x hx
  rw [edges_modifySettings, List.getElem?_modify] at hx
  obtain ⟨y, hy, rfl⟩ := Option.map_eq_some_iff.mp hx
  have hconditions := h y hy
  split <;> exact hconditions

theorem Blank.startConditions_mark (h : c.Blank f) : (c.mark f).startConditions = 0 := by
  cases hx : c.edges[f.index]? with
  | none => simp [mark, hx]
  | some x => simp [mark, hx, h x hx]

end Controller

theorem Run.controller_foldl {step : Run → EdgeHandle → Run} {cs : List Condition}
    (hstep : ∀ w e, (step w e).controller = w.controller.appendConditions e cs)
    (fs : List EdgeHandle) (w : Run) :
    (fs.foldl step w).controller = fs.foldl (·.appendConditions · cs) w.controller := by
  induction fs generalizing w with
  | nil => rfl
  | cons f fs ih => rw [List.foldl_cons, ih, hstep, List.foldl_cons]

/-- An access is made to an edge that is there. A rollback still has the marked edge behind it, and
it was marked without conditions. -/
def Access.Reaches (route : Route) (n : Nat) (c : Controller) : Access → Prop
  | append e _ | fork e => c.Live n e
  | edit e _ => c.Live n e ∧ route.flavor = .timed
  | mark e => c.Live n e ∧ c.Blank e
  | rollback m => m.start.index < m.next ∧ m.next ≤ c.edges.length ∧ m.startConditions = 0

/-- All edges that are named at a point are there, and a fresh role is still without conditions. -/
structure Point.Sound (route : Route) (n : Nat) (p : Point) : Prop where
  live : ∀ f ∈ p.holder.edges ++ p.waiting, p.controller.Live n f
  blank : ∀ f ∈ p.holder.blank, p.controller.Blank f
  reaches : ∀ access ∈ p.access, access.Reaches route n p.controller

/-- A piece of a run. -/
structure Course (route : Route) (n : Nat) (c : Controller) (ps : List Point) (d : Controller) :
    Prop where
  leads : Leads route c ps d
  sound : ∀ p ∈ ps, p.Sound route n

namespace Course

variable {route : Route} {n : Nat} {c d f : Controller} {ps qs : List Point}

theorem nil : Course route n c [] c := ⟨rfl, by simp⟩

theorem append (first : Course route n c ps d) (second : Course route n d qs f) :
    Course route n c (ps ++ qs) f :=
  ⟨first.leads.append second.leads,
    fun p hp => (List.mem_append.mp hp).elim (first.sound p) (second.sound p)⟩

theorem cons {holder : Holder} {es : List EdgeHandle} {a : Option Access}
    (hp : Point.Sound route n ⟨holder, es, c, a⟩)
    (rest : Course route n (Point.after route ⟨holder, es, c, a⟩) ps d) :
    Course route n c (⟨holder, es, c, a⟩ :: ps) d :=
  ⟨⟨rfl, rest.leads⟩, List.forall_mem_cons.mpr ⟨hp, rest.sound⟩⟩

end Course

/-- A role that is alive while others wait on `es`. If it makes settings, they are there. -/
structure Cursor.Alive (route : Route) (n : Nat) (es : List EdgeHandle) (c : Controller) {r : Role}
    (k : Cursor r) : Prop where
  live : ∀ f ∈ k.edges ++ es, c.Live n f
  blank : ∀ f ∈ (Holder.role k).blank, c.Blank f
  timed : r = .fresh true → route.flavor = .timed

section

variable {route : Route} {n : Nat} {es fs : List EdgeHandle} {c d : Controller} {e f : EdgeHandle}
  {r : Role} {k : Cursor r}

theorem Controller.Live.mono_all (h : ∀ f ∈ fs, c.Live n f)
    (hle : c.edges.length ≤ d.edges.length) : ∀ f ∈ fs, d.Live n f :=
  fun f hf => (h f hf).mono hle

namespace Cursor.Alive

theorem sound (hk : k.Alive route n es c) {a : Option Access}
    (ha : ∀ access ∈ a, access.Reaches route n c) : Point.Sound route n ⟨.role k, es, c, a⟩ :=
  ⟨hk.live, hk.blank, ha⟩

theorem pass (hk : k.Alive route n es c) : Point.Sound route n ⟨.role k, es, c, none⟩ :=
  hk.sound (by simp)

theorem clause (h : ∀ f ∈ e :: es, c.Live n f) : (Cursor.clause e).Alive route n es c :=
  ⟨h, by simp [Holder.blank], by simp⟩

theorem spread (h : ∀ f ∈ fs ++ es, c.Live n f) : (Cursor.spread fs).Alive route n es c :=
  ⟨h, by simp [Holder.blank], by simp⟩

theorem inner {timed : Bool} (hk : (Cursor.fresh e : Cursor (.fresh timed)).Alive route n es c) :
    (Cursor.fresh e : Cursor (.fresh false)).Alive route n (e :: es) c :=
  ⟨fun f hf => hk.live f (by simpa using hf), hk.blank, by simp⟩

theorem forked (h : ∀ f ∈ e :: es, c.Live n f) (hlt : c.edges.length < 2 ^ 32) :
    (Cursor.fresh (c.fork e route).2 : Cursor (.fresh false)).Alive route n es
      (c.fork e route).1 := by
  have hindex : (c.fork e route).2.index = c.edges.length := EdgeHandle.index_ofIndex hlt
  have he := h e (by simp)
  refine ⟨fun f hf => ?_, fun f hf x hx => ?_, by simp⟩
  · rcases List.mem_cons.mp hf with rfl | hf
    · have hlo := he.1
      have hhi := he.2
      refine ⟨by omega, ?_⟩
      rw [hindex, Controller.edges_fork, List.length_append, List.length_singleton]
      omega
    · exact (h f (List.mem_cons_of_mem e hf)).mono (by simp)
  · obtain rfl : f = (c.fork e route).2 := by simpa [Holder.blank] using hf
    rw [hindex, Controller.edges_fork, List.getElem?_concat_length] at hx
    obtain rfl := Option.some.inj hx
    rfl

end Cursor.Alive

theorem Point.Sound.series (h : ∀ f ∈ e :: es, c.Live n f) {a : Option Access}
    (ha : ∀ access ∈ a, access.Reaches route n c) : Point.Sound route n ⟨.series e, es, c, a⟩ :=
  ⟨h, by simp [Holder.blank], ha⟩

namespace Course

theorem series (s : Series Supply) (h : ∀ f ∈ e :: es, c.Live n f) :
    Course route n c (s.points e es c) (c.appendConditions e s.conditions) := by
  induction s generalizing es c with
  | done =>
    rw [Series.conditions, Controller.appendConditions_nil]
    exact .cons (.series h (by simp)) .nil
  | and s next ih =>
    have hlive : ∀ f ∈ e :: es, (c.appendConditions e s.conditions).Live n f :=
      Controller.Live.mono_all h (by simp)
    have hrest := ih hlive
    rw [Controller.appendConditions_append] at hrest
    exact .cons (.series h (by simpa [Access.Reaches] using h e (by simp))) hrest
  | nested inner next ihInner ih =>
    have hwait : ∀ f ∈ e :: e :: es, c.Live n f := fun f hf => h f (by simpa using hf)
    have hlive : ∀ f ∈ e :: es, (c.appendConditions e inner.conditions).Live n f :=
      Controller.Live.mono_all h (by simp)
    have hrest := ih hlive
    rw [Controller.appendConditions_append] at hrest
    exact .cons (.series h (by simp)) ((ihInner hwait).append hrest)

theorem serial (hk : k.Alive route n es c) (he : c.Live n e) (s : Series Supply) :
    Course route n c (⟨.role k, es, c, none⟩ :: s.points e (e :: es) c)
      (c.appendConditions e s.conditions) :=
  .cons hk.pass <| series s <| List.forall_mem_cons.mpr ⟨he,
    List.forall_mem_cons.mpr ⟨he, fun f hf => hk.live f (List.mem_append_right _ hf)⟩⟩

theorem sweep {cs : List Condition} {points : EdgeHandle → Controller → List Point}
    (hpoints : ∀ f ∈ fs, ∀ d : Controller, c.edges.length ≤ d.edges.length →
      Course route n d (points f d) (d.appendConditions f cs)) :
    Course route n c (Statechart.sweep cs points fs c)
      (fs.foldl (·.appendConditions · cs) c) := by
  induction fs generalizing c with
  | nil => exact .nil
  | cons f fs ih =>
    refine (hpoints f (by simp) c (Nat.le_refl _)).append (ih fun g hg d hle => ?_)
    exact hpoints g (by simp [hg]) d (by simpa using hle)

theorem appended (hk : k.Alive route n es c) (he : c.Live n e) (cs : List Condition) :
    Course route n c [⟨.role k, es, c, some (.append e cs)⟩] (c.appendConditions e cs) :=
  .cons (hk.sound (by simpa [Access.Reaches] using he)) .nil

theorem forks (hk : k.Alive route n es c) (he : c.Live n e) :
    Course route n c [⟨.role k, es, c, some (.fork e)⟩] (c.fork e route).1 :=
  .cons (hk.sound (by simpa [Access.Reaches] using he)) .nil

theorem each (xs : List Condition)
    (hk : (Cursor.fresh e : Cursor (.fresh false)).Alive route n es c)
    (hb : (c.forkEach route e xs).1.edges.length < 2 ^ 32) :
    Course route n c (Choice.eachPoints route es e xs c) (c.forkEach route e xs).1 := by
  induction xs generalizing c e with
  | nil => exact .cons hk.pass (.cons (Cursor.Alive.clause hk.live).pass .nil)
  | cons x xs ih =>
    have hlive : ∀ f ∈ e :: es, (c.appendConditions e [x]).Live n f :=
      Controller.Live.mono_all hk.live (by simp)
    have hfirst : Point.Sound route n ⟨@Holder.role (.fresh false) (.fresh e), es, c,
        some (.append e [x])⟩ :=
      hk.sound (by simpa [Access.Reaches] using hk.live e (by simp))
    cases xs with
    | nil => exact .cons hfirst (.cons (Cursor.Alive.clause hlive).pass .nil)
    | cons y ys =>
      have hlt : (c.appendConditions e [x]).edges.length < 2 ^ 32 := by
        rw [Controller.length_forkEach] at hb
        simp
        omega
      have hclause : Point.Sound route n ⟨.role (.clause e), es, c.appendConditions e [x],
          some (.fork e)⟩ :=
        (Cursor.Alive.clause hlive).sound
          (by simpa [Access.Reaches] using hlive e (by simp))
      exact .cons hfirst (.cons hclause (ih (.forked hlive hlt) hb))

end Course

namespace Choice

/-- Whether or not the tokens of a choice are its own, the edges that were there stay. -/
theorem live_run (choice : Choice) {w : Run} {timed : Bool}
    (hk : (Cursor.fresh e : Cursor (.fresh timed)).Alive route n es w.controller)
    (hb : choice.Fits route e es w) :
    (∀ f ∈ es, (choice.run route e w).1.controller.Live n f) ∧
      ∀ fs, (choice.run route e w).2 = .ok fs →
        ∀ f ∈ fs, (choice.run route e w).1.controller.Live n f := by
  have he : w.controller.Live n e := hk.live e (by simp)
  have hn : n ≤ w.controller.edges.length := by
    have hlo := he.1
    have hhi := he.2
    omega
  have hclaim := Effect.claim hn (f := e) .start (choice.effect_make hb) (choice.make route e w).2
  rw [← run] at hclaim
  cases hr : choice.run route e w with
  | mk after answer =>
    rw [hr] at hclaim
    cases answer with
    | error fault =>
      have hle : w.controller.edges.length ≤ after.controller.edges.length := hclaim.length_le
      exact ⟨fun f hf => (hk.live f (by simp [hf])).mono hle, by simp⟩
    | ok fs =>
      obtain ⟨heffect, hown⟩ := hclaim
      have hle : w.controller.edges.length ≤ after.controller.edges.length := heffect.length_le
      refine ⟨fun f hf => (hk.live f (by simp [hf])).mono hle, fun gs hgs f hf => ?_⟩
      obtain rfl := Except.ok.inj hgs
      exact (hown f hf).live (he.mono hle)

theorem course_claim (choice : Choice) {w : Run} {timed : Bool}
    (hk : (Cursor.fresh e : Cursor (.fresh timed)).Alive route n es w.controller)
    (hb : choice.Fits route e es w) :
    Course route n (choice.make route e w).1.controller [choice.claimPoint route e es w]
      (choice.run route e w).1.controller := by
  rw [← choice.after_claimPoint route e es w]
  have hle : w.controller.edges.length ≤ (choice.make route e w).1.controller.edges.length :=
    (choice.effect_make hb).length_le
  refine .cons ⟨Controller.Live.mono_all hk.live hle, by simp [Holder.blank],
    fun access ha => ?_⟩ .nil
  cases hr : (choice.run route e w).2 with
  | ok fs => simp [hr] at ha
  | error fault =>
    obtain rfl : access = .rollback (w.controller.mark e) := by
      simpa [hr, eq_comm] using ha
    have hblank : w.controller.Blank e := hk.blank e (by simp [Holder.blank])
    exact ⟨(hk.live e (by simp)).2, hle, hblank.startConditions_mark⟩

end Choice

namespace Chain

/-- A run from a role that is alive is sound at every point. -/
def Safe (route : Route) (n : Nat) {r : Role} (chain : Chain Supply r) : Prop :=
  ∀ ⦃k : Cursor r⦄ ⦃es : List EdgeHandle⦄ ⦃w : Run⦄, k.Alive route n es w.controller →
    chain.Fits route k es w →
    Course route n w.controller (chain.points route k es w) (chain.run route k w).controller

variable {w v : Run} {r' : Role} {k' : Cursor r'}

/-- A call does its part, and what follows it does the rest. -/
theorem Safe.call {chain : Chain Supply r} {next : Chain Supply r'} (h : next.Safe route n)
    (hb : chain.Fits route k es w)
    (hmoments : chain.moments route k es w =
      ⟨r, k, es, w.controller⟩ :: next.moments route k' es v)
    (hrun : chain.run route k w = next.run route k' v) {ps : List Point}
    (first : Course route n w.controller ps d)
    (hpoints : chain.points route k es w = ps ++ next.points route k' es v)
    (hv : v.controller = d) (hk : k'.Alive route n es d) :
    Course route n w.controller (chain.points route k es w) (chain.run route k w).controller := by
  subst hv
  rw [Fits, hmoments, List.forall_mem_cons] at hb
  rw [hrun, hpoints]
  exact first.append (h hk hb.2)

/-- The edges that a role is spread over are served one after the other. -/
theorem Safe.spread {chain next : Chain Supply .spread} (h : next.Safe route n)
    (hb : chain.Fits route (.spread fs) es w)
    (hk : (Cursor.spread fs).Alive route n es w.controller) (cs : List Condition)
    {step : Run → EdgeHandle → Run}
    (hstep : ∀ w e, (step w e).controller = w.controller.appendConditions e cs)
    (hmoments : chain.moments route (.spread fs) es w =
      ⟨.spread, .spread fs, es, w.controller⟩ ::
        next.moments route (.spread fs) es (fs.foldl step (w.reportRole (.spread fs))))
    (hrun : chain.run route (.spread fs) w =
      next.run route (.spread fs) (fs.foldl step (w.reportRole (.spread fs))))
    {points : EdgeHandle → Controller → List Point}
    (hpoints : chain.points route (.spread fs) es w =
      ⟨.role (.spread fs), es, w.controller, none⟩ :: sweep cs points fs w.controller ++
        next.points route (.spread fs) es (fs.foldl step (w.reportRole (.spread fs))))
    (heach : ∀ f ∈ fs, ∀ d : Controller, w.controller.edges.length ≤ d.edges.length →
      Course route n d (points f d) (d.appendConditions f cs)) :
    Course route n w.controller (chain.points route (.spread fs) es w)
      (chain.run route (.spread fs) w).controller := by
  refine h.call hb hmoments hrun (.cons hk.pass (.sweep heach)) hpoints ?_ (.spread ?_)
  · rw [Run.controller_foldl hstep, Run.controller_reportRole]
    rfl
  · exact Controller.Live.mono_all hk.live
      (Nat.le_of_eq (Controller.length_foldl_appendConditions w.controller fs cs).symm)

/-- A choice that is refused is taken back to a mark that lies behind all edges that wait. -/
theorem Safe.choice {next : Chain Supply .spread} (h : next.Safe route n) (choice : Choice)
    (hinside : ∀ {v : Run},
      (Cursor.fresh e : Cursor (.fresh false)).Alive route n (e :: es) v.controller →
      choice.Fits route e es v →
      Course route n v.controller (choice.points route e es v) (choice.make route e v).1.controller)
    {timed : Bool} (hk : (Cursor.fresh e : Cursor (.fresh timed)).Alive route n es w.controller)
    (hb : (choice.chain next : Chain Supply (.fresh timed)).Fits route (.fresh e) es w) :
    Course route n w.controller
      ((choice.chain next : Chain Supply (.fresh timed)).points route (.fresh e) es w)
      ((choice.chain next : Chain Supply (.fresh timed)).run route (.fresh e) w).controller := by
  obtain ⟨v, hv⟩ : ∃ v, w.reportRole (r := .fresh timed) (.fresh e) = v := ⟨_, rfl⟩
  have hcontroller : w.controller = v.controller := by rw [← hv, Run.controller_reportRole]
  rw [Fits, Choice.moments_chain, List.forall_mem_append, hv] at hb
  have hfits : choice.Fits route e es v := fun m hm => hb.1 m (List.mem_cons_of_mem _ hm)
  rw [Choice.points_chain, Choice.run_chain, hv]
  rw [hcontroller] at hk ⊢
  have hmark : Point.Sound route n
      ⟨@Holder.role (.fresh timed) (.fresh e), es, v.controller, some (.mark e)⟩ :=
    hk.sound (by simpa [Access.Reaches] using
      ⟨hk.live e (by simp), hk.blank e (by simp [Holder.blank])⟩)
  refine .cons hmark ((hinside hk.inner hfits).append ((choice.course_claim hk hfits).append ?_))
  obtain ⟨hlive, hclaimed⟩ := choice.live_run hk hfits
  cases hr : choice.run route e v with
  | mk after answer =>
    rw [hr] at hb hlive hclaimed
    cases answer with
    | error fault => exact .cons ⟨hlive, by simp [Holder.blank], by simp⟩ .nil
    | ok fs => exact h (.spread (List.forall_mem_append.mpr ⟨hclaimed fs rfl, hlive⟩)) hb.2

theorem safe (route : Route) (n : Nat) {r : Role} (chain : Chain Supply r) :
    chain.Safe route n := by
  induction chain with
  | stop | unreadable =>
    intro k es w hk hb
    simpa [run, points, Point.after] using Course.cons hk.pass .nil
  | set edit next ih =>
    intro k es w hk hb
    cases k with | fresh e =>
    have hedit : Access.Reaches route n w.controller (.edit e edit) :=
      ⟨hk.live e (by simp), hk.timed rfl⟩
    refine ih.call hb rfl rfl (.cons (hk.sound (a := some _) (by simpa using hedit)) .nil) rfl
      (by simp [Point.after, Access.perform]) ?_
    exact ⟨Controller.Live.mono_all hk.live (by simp [Point.after, Access.perform]),
      fun f hf => (hk.blank f hf).modifySettings _, hk.timed⟩
  | settle next ih =>
    intro k es w hk hb
    cases k with | fresh e =>
    exact ih.call hb rfl rfl (.cons hk.pass .nil) rfl (by simp [Point.after])
      ⟨hk.live, hk.blank, by simp⟩
  | whenAlways next ih =>
    intro k es w hk hb
    cases k with | fresh e =>
    exact ih.call hb rfl rfl (.cons hk.pass .nil) rfl (by simp [Point.after]) (.clause hk.live)
  | keep slot next ih =>
    intro k es w hk hb
    cases k with | clause e =>
    exact ih.call hb rfl rfl (.cons hk.pass .nil) rfl (by simp [Point.after]) (.clause hk.live)
  | when s next ih =>
    intro k es w hk hb
    cases k with | fresh e =>
    exact ih.call hb rfl rfl (.appended hk (hk.live e (by simp)) s.conditions) rfl (by simp)
      (.clause (Controller.Live.mono_all hk.live (by simp)))
  | and s next ih =>
    intro k es w hk hb
    cases k with | clause e =>
    exact ih.call hb rfl rfl (.appended hk (hk.live e (by simp)) s.conditions) rfl (by simp)
      (.clause (Controller.Live.mono_all hk.live (by simp)))
  | whenAll s next ih =>
    intro k es w hk hb
    cases k with | fresh e =>
    exact ih.call hb rfl rfl (.serial hk (hk.live e (by simp)) s) rfl (by simp)
      (.clause (Controller.Live.mono_all hk.live (by simp)))
  | andAll s next ih =>
    intro k es w hk hb
    cases k with | clause e =>
    exact ih.call hb rfl rfl (.serial hk (hk.live e (by simp)) s) rfl (by simp)
      (.clause (Controller.Live.mono_all hk.live (by simp)))
  | @whenWithOr timed inner next ihInner ih =>
    intro k es w hk hb
    cases k with | fresh e =>
    obtain ⟨v, hv⟩ : ∃ v, w.reportRole (r := .fresh timed) (.fresh e) = v := ⟨_, rfl⟩
    have hcontroller : w.controller = v.controller := by rw [← hv, Run.controller_reportRole]
    rw [Fits, moments, List.forall_mem_append, hv] at hb
    rw [points, run, hv]
    rw [hcontroller] at hk ⊢
    have hfits : inner.Fits route (.fresh e) (e :: es) v :=
      fun m hm => hb.1 m (List.mem_cons_of_mem _ hm)
    -- what is made and taken back inside is behind the edges that wait
    have hle : v.controller.edges.length ≤ (inner.run route (.fresh e) v).controller.edges.length :=
      ((inner.traced route).begun hfits (.inl rfl)).length_le
    have hforked : (Cursor.forked e).Alive route n es (inner.run route (.fresh e) v).controller :=
      ⟨Controller.Live.mono_all hk.live hle, by simp [Holder.blank], by simp⟩
    exact .cons hk.pass ((ihInner hk.inner hfits).append (ih hforked hb.2))
  | whenAnyOf s next ih =>
    intro k es w hk hb
    cases k with | fresh e =>
    exact ih.choice (.each s) (fun hinner hfits =>
      .each s.conditions hinner (hfits _ (List.mem_singleton_self _))) hk hb
  | whenAny inner slots next ihInner ih =>
    intro k es w hk hb
    cases k with | fresh e =>
    exact ih.choice (.returned inner slots) (fun hinner hfits => ihInner hinner hfits) hk hb
  | or next ih =>
    intro k es w hk hb
    cases k with | clause e =>
    exact ih.call hb rfl rfl (.forks hk (hk.live e (by simp))) rfl (by simp)
      (.forked hk.live hb.length_lt)
  | orElse next ih =>
    intro k es w hk hb
    cases k with | forked e =>
    exact ih.call hb rfl rfl (.forks hk (hk.live e (by simp))) rfl (by simp)
      (.forked hk.live hb.length_lt)
  | andEach s next ih =>
    intro k es w hk hb
    cases k with | spread fs =>
    refine ih.spread hb hk s.conditions (fun _ _ => by simp) rfl rfl rfl fun f hf d hle => ?_
    exact .appended (.spread (Controller.Live.mono_all hk.live hle))
      ((hk.live f (by simp [hf])).mono hle) s.conditions
  | andAllEach s next ih =>
    intro k es w hk hb
    cases k with | spread fs =>
    refine ih.spread hb hk s.conditions (fun _ _ => by simp) rfl rfl rfl fun f hf d hle => ?_
    exact .series s <| List.forall_mem_cons.mpr
      ⟨(hk.live f (by simp [hf])).mono hle, Controller.Live.mono_all hk.live hle⟩

end Chain

theorem Controller.Uniform.exists_of_live (hu : Controller.Uniform route n c) (hf : c.Live n f) :
    ∃ x, c.edges[f.index]? = some x ∧ x.route = route ∧ x.Settled := by
  have hx := List.getElem?_eq_getElem hf.2
  exact ⟨_, hx, hu hf.1 hx⟩

/-- An access finds its edge, with all that it takes from there: a fork has nothing of its own to
add, and a rollback leaves no condition on the marked edge. -/
def Access.Finds (route : Route) (c : Controller) : Access → Prop
  | append e _ => ∃ x, c.edges[e.index]? = some x ∧ x.route = route
  | edit e _ => ∃ x, c.edges[e.index]? = some x ∧ x.route = route ∧ x.settings.isSome
  | fork e => ∃ x, c.edges[e.index]? = some x ∧ x.route = route ∧
      (route.flavor = .timed → x.settings.isSome) ∧
      (c.fork e route).1 = c.withEdges (c.edges ++ [x.guarded []])
  | mark e => (∃ x, c.edges[e.index]? = some x ∧ x.route = route ∧ x.conditions = []) ∧
      (c.mark e).startConditions = 0
  | rollback m => (∃ x, (c.edges.take m.next)[m.start.index]? = some x) ∧ m.startConditions = 0

theorem Access.Reaches.finds {access : Access} (h : access.Reaches route n c)
    (hu : Controller.Uniform route n c) : access.Finds route c := by
  cases access with
  | append e cs =>
    obtain ⟨x, hx, hr, -⟩ := hu.exists_of_live h
    exact ⟨x, hx, hr⟩
  | edit e edit =>
    obtain ⟨x, hx, rfl, hs⟩ := hu.exists_of_live h.1
    exact ⟨x, hx, rfl, hs.mpr h.2⟩
  | fork e =>
    obtain ⟨x, hx, rfl, hs⟩ := hu.exists_of_live h
    refine ⟨x, hx, rfl, hs.mpr, ?_⟩
    rw [Controller.fork_eq_withEdges, Controller.offshoot_eq c e hx hs]
  | mark e =>
    obtain ⟨x, hx, hr, -⟩ := hu.exists_of_live h.1
    exact ⟨⟨x, hx, hr, h.2 x hx⟩, h.2.startConditions_mark⟩
  | rollback m =>
    obtain ⟨hstart, hnext, hzero⟩ := h
    refine ⟨⟨_, List.getElem?_eq_getElem (l := c.edges.take m.next) (i := m.start.index) ?_⟩, hzero⟩
    rw [List.length_take]
    omega

variable {machine : MachineHandle} {timed : Bool}

theorem Controller.uniform_started :
    Controller.Uniform route c.edges.length
      (c.withEdges (c.edges ++ [c.blankEdge route machine])) := by
  intro i x hi hx
  rcases getElem?_concat_eq_some.mp hx with hx | ⟨-, rfl⟩
  · have hlt := (List.getElem?_eq_some_iff.mp hx).1
    omega
  · exact ⟨rfl, c.settled_blankEdge route machine⟩

theorem Cursor.Alive.started (hlt : c.edges.length < 2 ^ 32)
    (htimed : timed = true → route.flavor = .timed) :
    (Cursor.fresh (.ofIndex c.edges.length) : Cursor (.fresh timed)).Alive route c.edges.length []
      (c.withEdges (c.edges ++ [c.blankEdge route machine])) := by
  have hindex : (EdgeHandle.ofIndex c.edges.length).index = c.edges.length :=
    EdgeHandle.index_ofIndex hlt
  refine ⟨fun f hf => ?_, fun f hf x hx => ?_, fun hr => htimed (by simpa using hr)⟩
  · obtain rfl : f = .ofIndex c.edges.length := by simpa using hf
    exact ⟨Nat.le_of_eq hindex.symm, by simp [hindex]⟩
  · obtain rfl : f = .ofIndex c.edges.length := by simpa [Holder.blank] using hf
    rw [hindex, Controller.edges_withEdges, List.getElem?_concat_length] at hx
    obtain rfl := Option.some.inj hx
    rfl

end

namespace Chain

/-- At every point of a chain, the edges of the roles that are alive exist and are along its route,
those of a fresh role have no conditions, and a timed chain has settings on all edges it made. So no
access of a run is in vain. -/
theorem live_roles {c started : Controller} {o : Opening} {e : EdgeHandle} {route : Route}
    (hs : c.start o = .ok (started, e, route)) (chain : Chain Supply (.fresh (o.flavor = .timed)))
    (tokens : List (String × Clause)) (reports : List Report) (gaps : List Gap)
    (hb : chain.Fits route (.fresh e) [] ⟨started, tokens, reports, gaps⟩) :
    let points := chain.points route (.fresh e) [] ⟨started, tokens, reports, gaps⟩
    let final := (chain.run route (.fresh e) ⟨started, tokens, reports, gaps⟩).controller
    Leads route started points final ∧
    (∀ p ∈ points,
      (∀ f ∈ p.holder.edges ++ p.waiting,
        ∃ x, p.controller.edges[f.index]? = some x ∧ x.route = route) ∧
      (∀ f ∈ p.holder.blank, ∃ x, p.controller.edges[f.index]? = some x ∧ x.conditions = []) ∧
      ∀ access ∈ p.access, access.Finds route p.controller) ∧
    (o.flavor = .timed → ∀ d, d = final ∨ (∃ p ∈ points, p.controller = d) →
      ∀ x ∈ d.edges.drop c.edges.length, x.settings.isSome) := by
  intro points final
  obtain ⟨machine, hplan, rfl, rfl⟩ := Controller.start_eq_ok c e route hs
  have hlt := hb.length_lt
  rw [Controller.edges_withEdges, List.length_append, List.length_singleton] at hlt
  have hflavor := Controller.flavor_of_plan hplan
  have halive : (Cursor.fresh (.ofIndex c.edges.length)).Alive route c.edges.length []
      (c.withEdges (c.edges ++ [c.blankEdge route machine])) :=
    .started (by omega) fun htimed => hflavor.trans (of_decide_eq_true htimed)
  have hcourse := chain.safe route c.edges.length halive hb
  obtain ⟨huniform, hfinal⟩ := hcourse.leads.preserves (fun _ access hu => hu.perform access)
    Controller.uniform_started
  refine ⟨hcourse.leads, fun p hp => ⟨fun f hf => ?_, fun f hf => ?_, fun access ha => ?_⟩, ?_⟩
  · obtain ⟨x, hx, hr, -⟩ := (huniform p hp).exists_of_live ((hcourse.sound p hp).live f hf)
    exact ⟨x, hx, hr⟩
  · have hlive := (hcourse.sound p hp).live f
      (List.mem_append_left _ (p.holder.mem_edges_of_mem_blank hf))
    obtain ⟨x, hx, -⟩ := (huniform p hp).exists_of_live hlive
    exact ⟨x, hx, (hcourse.sound p hp).blank f hf x hx⟩
  · exact ((hcourse.sound p hp).reaches access ha).finds (huniform p hp)
  · rintro ho d hd x hx
    have hu : Controller.Uniform route c.edges.length d := by
      rcases hd with rfl | ⟨p, hp, rfl⟩
      · exact hfinal
      · exact huniform p hp
    obtain ⟨rfl, hsettled⟩ := hu.of_mem_drop hx
    exact hsettled.mpr (hflavor.trans ho)

/-- The edge made inside is dropped with the refused choice, while the first edge is waited on. -/
theorem live_roles_refused :
    let o := Opening.anyState Controller.bareRoot (.machine Controller.bareRoot)
    let route := Route.anyState Controller.bareRoot (.machine Controller.bareRoot)
    let supply (name : String) := Supply.ofConditions [⟨name, .isTrue, .zero false⟩]
    let chain : Chain Supply (.fresh true) :=
      .set (.offset (.zero true)) (.whenWithOr
        (.whenAll (.nested (.and (supply "a") .done) (.and (supply "b") .done))
          (.or (.whenAny (.when (supply "c") (.keep "mine" (.or (.when (supply "d") .stop))))
            ["mine", "earlier"] .stop)))
        (.orElse (.when (supply "e") .stop)))
    let started := (Controller.bare.createEdge Controller.bareRoot route).1
    let points := chain.points route (.fresh (.ofIndex 0)) []
      ⟨started, [("earlier", ⟨Controller.bare.id, .ofIndex 7⟩)], [], []⟩
    Controller.bare.start o = .ok (started, .ofIndex 0, route) ∧
      (points.map fun p => (p.holder.edges.map (·.index), p.waiting.map (·.index),
        p.controller.edges.length)).drop 14 =
          [([2], [1, 0], 3), ([1], [0], 3), ([], [0], 2),
            ([0], [], 2), ([2], [], 3), ([2], [], 3)] ∧
      ∀ p ∈ points,
        (∀ f ∈ p.holder.edges ++ p.waiting,
          ∃ x, p.controller.edges[f.index]? = some x ∧ x.route = route) ∧
        (∀ f ∈ p.holder.blank, ∃ x, p.controller.edges[f.index]? = some x ∧ x.conditions = []) ∧
        (∀ access ∈ p.access, access.Finds route p.controller) ∧
        ∀ x ∈ p.controller.edges, x.settings.isSome := by
  intro o route supply chain started points
  have hs : Controller.bare.start o = .ok (started, .ofIndex 0, route) := rfl
  have hb : chain.Fits route (.fresh (.ofIndex 0)) []
      ⟨started, [("earlier", ⟨Controller.bare.id, .ofIndex 7⟩)], [], []⟩ := by
    unfold Fits
    decide
  obtain ⟨-, hpoints, hsettings⟩ := live_roles hs chain _ [] [] hb
  refine ⟨hs, by decide +kernel, fun p hp => ?_⟩
  obtain ⟨hlive, hblank, hfinds⟩ := hpoints p hp
  exact ⟨hlive, hblank, hfinds, hsettings rfl p.controller (.inr ⟨p, hp, rfl⟩)⟩

end Chain

end Statechart
