import Statechart.Proofs.OwnTokens

/-! All choices of a run are honest, up to the first one that loses an edge. -/

namespace Statechart

namespace Call

/-- Choices made one behind another are honest, up to the first one that loses an edge. -/
inductive HonestUntilLoss : List Call → Prop
  | nil : HonestUntilLoss []
  | cons {x : Call} {xs : List Call} (first : x.Honest) (rest : ¬x.Loses → HonestUntilLoss xs) :
      HonestUntilLoss (x :: xs)

theorem HonestUntilLoss.append {xs ys : List Call} (hx : HonestUntilLoss xs)
    (hy : (∀ x ∈ xs, ¬x.Loses) → HonestUntilLoss ys) : HonestUntilLoss (xs ++ ys) := by
  induction hx with
  | nil => exact hy (by simp)
  | cons first rest ih =>
    refine .cons first fun hkept => ih hkept fun hrest => hy ?_
    exact List.forall_mem_cons.mpr ⟨hkept, hrest⟩

theorem HonestUntilLoss.honest {front rest : List Call} {x : Call}
    (h : HonestUntilLoss (front ++ x :: rest)) (hfront : ∀ y ∈ front, ¬y.Loses) : x.Honest := by
  induction front with
  | nil =>
    cases h with
    | cons first _ => exact first
  | cons y front ih =>
    obtain ⟨hy, hrest⟩ := List.forall_mem_cons.mp hfront
    cases h with
    | cons _ later => exact ih (later hy) hrest

/-- The choices of a run are honest until one loses an edge. As long as none does, the run is
orderly in the end. -/
structure Sincere (o : Outset) (calls : List Call) (w : Run) : Prop where
  honest : HonestUntilLoss calls
  orderly : (∀ x ∈ calls, ¬x.Loses) → w.Orderly o

namespace Sincere

variable {o o' : Outset} {xs ys : List Call} {v w : Run}

theorem append (first : Sincere o' xs v) (second : v.Orderly o' → Sincere o ys w) :
    Sincere o (xs ++ ys) w where
  honest := first.honest.append fun hx => (second (first.orderly hx)).honest
  orderly h := by
    obtain ⟨hx, hy⟩ := List.forall_mem_append.mp h
    exact (second (first.orderly hx)).orderly hy

theorem cons {x : Call} (hx : x.Honest) (rest : ¬x.Loses → Sincere o xs w) :
    Sincere o (x :: xs) w where
  honest := .cons hx fun hkept => (rest hkept).honest
  orderly h := by
    obtain ⟨hkept, hxs⟩ := List.forall_mem_cons.mp h
    exact (rest hkept).orderly hxs

end Sincere

end Call

namespace Chain

/-- A run of the chain is sincere where it begins with a role that is ready. -/
def Faithful {r : Role} (chain : Chain Supply r) : Prop :=
  ∀ ⦃o : Outset⦄ ⦃k : Cursor r⦄ ⦃w : Run⦄ ⦃es : List EdgeHandle⦄, k.Ready o w →
    chain.Fits o.route k es w → Call.Sincere o (chain.choices o.route k w) (chain.run o.route k w)

variable {o : Outset} {f : EdgeHandle} {w v : Run} {es : List EdgeHandle}

theorem grown_run {route : Route} (inner : Chain Supply (.fresh false))
    (hb : inner.Fits route (.fresh f) es w) :
    Grown f w.controller.edges.length w.controller (inner.run route (.fresh f) w).controller :=
  ((inner.traced route).begun hb (.inl rfl)).grown (Nat.le_refl _)

theorem Faithful.after {r r' : Role} {next : Chain Supply r'} (h : next.Faithful)
    {k : Cursor r} {k' : Cursor r'} (hk : k.Ready o w) (hv : w.Widens v)
    (hedges : k'.edges = k.edges)
    (hr : (∃ timed, r' = .fresh timed) → ∃ timed, r = .fresh timed)
    (hb : next.Fits o.route k' es v) :
    Call.Sincere o (next.choices o.route k' v) (next.run o.route k' v) :=
  h (hk.widen hv hedges hr) hb

theorem Faithful.choice {next : Chain Supply .spread} (h : next.Faithful) (choice : Choice)
    (hinside : ∀ {o : Outset} {v : Run}, Cursor.Ready (r := .fresh false) (.fresh f) o v →
      choice.Fits o.route f es v →
      Call.Sincere o (choice.inside o.route f v) (choice.make o.route f v).1)
    {timed : Bool} (hk : Cursor.Ready (r := .fresh timed) (.fresh f) o w)
    (hb : (choice.chain next : Chain Supply (.fresh timed)).Fits o.route (.fresh f) es w) :
    Call.Sincere o ((choice.chain next : Chain Supply (.fresh timed)).choices o.route (.fresh f) w)
      ((choice.chain next : Chain Supply (.fresh timed)).run o.route (.fresh f) w) := by
  rw [Fits, Choice.moments_chain, List.forall_mem_append] at hb
  rw [Choice.choices_chain, Choice.run_chain]
  have hready : Cursor.Ready (r := .fresh false) (.fresh f) o
      (w.reportRole (r := .fresh timed) (.fresh f)) :=
    hk.widen (.reportRole w _) rfl fun _ => ⟨timed, rfl⟩
  generalize w.reportRole (r := .fresh timed) (.fresh f) = v at hb hready ⊢
  have hfits : choice.Fits o.route f es v := fun m hm => hb.1 m (List.mem_cons_of_mem _ hm)
  obtain ⟨⟨after, answer⟩, hr⟩ : ∃ answered, choice.run o.route f v = answered := ⟨_, rfl⟩
  rw [hr] at hb ⊢
  refine (hinside hready.begin hfits).append fun hmade =>
    .cons (Call.honest hready hfits hmade) fun hkept => ?_
  cases answer with
  | error fault =>
    have hafter : after.Orderly o := hready.refused hfits hmade hr hkept
    exact ⟨.nil, fun _ => hafter.of_eq rfl rfl⟩
  | ok fs =>
    have hspread : (Cursor.spread fs).Ready o after := hready.claimed hfits hmade hr
    exact h hspread hb.2

theorem faithful {r : Role} (chain : Chain Supply r) : chain.Faithful := by
  induction chain with
  | stop | unreadable reason =>
    intro o k w es hk hb
    have hreported := (Run.Widens.reportRole w k).orderly hk.orderly
    exact ⟨.nil, fun _ => hreported.of_eq rfl rfl⟩
  | set edit next ih =>
    intro o k w es hk hb
    cases k with | fresh f =>
    exact ih.after hk (.trans (.reportRole w _) (.modifySettings _ f (edit.apply ·))) rfl id
      fun m hm => hb m (List.mem_cons_of_mem _ hm)
  | settle next ih =>
    intro o k w es hk hb
    cases k with | fresh f =>
    exact ih.after hk (.reportRole w _) rfl (fun _ => ⟨true, rfl⟩)
      fun m hm => hb m (List.mem_cons_of_mem _ hm)
  | whenAlways next ih =>
    intro o k w es hk hb
    cases k with | fresh f =>
    exact ih.after hk (.reportRole w _) rfl nofun fun m hm => hb m (List.mem_cons_of_mem _ hm)
  | when s next ih =>
    intro o k w es hk hb
    cases k with | fresh f =>
    exact ih.after hk (.trans (.reportRole w _) (.append _ f s)) rfl nofun
      fun m hm => hb m (List.mem_cons_of_mem _ hm)
  | whenAll s next ih =>
    intro o k w es hk hb
    cases k with | fresh f =>
    exact ih.after hk (.trans (.reportRole w _) (.appendSeries _ f s)) rfl nofun
      fun m hm => hb m (List.mem_cons_of_mem _ hm)
  | and s next ih =>
    intro o k w es hk hb
    cases k with | clause f =>
    exact ih.after hk (.trans (.reportRole w _) (.append _ f s)) rfl nofun
      fun m hm => hb m (List.mem_cons_of_mem _ hm)
  | andAll s next ih =>
    intro o k w es hk hb
    cases k with | clause f =>
    exact ih.after hk (.trans (.reportRole w _) (.appendSeries _ f s)) rfl nofun
      fun m hm => hb m (List.mem_cons_of_mem _ hm)
  | andEach s next ih =>
    intro o k w es hk hb
    cases k with | spread fs =>
    have happ := Run.Widens.foldl (fun v e => .append v e s) fs (w.reportRole (.spread fs))
    exact ih.after hk (.trans (.reportRole w _) happ) rfl nofun
      fun m hm => hb m (List.mem_cons_of_mem _ hm)
  | andAllEach s next ih =>
    intro o k w es hk hb
    cases k with | spread fs =>
    have happ := Run.Widens.foldl (fun v e => .appendSeries v e s) fs (w.reportRole (.spread fs))
    exact ih.after hk (.trans (.reportRole w _) happ) rfl nofun
      fun m hm => hb m (List.mem_cons_of_mem _ hm)
  | keep slot next ih =>
    intro o k w es hk hb
    cases k with | clause f =>
    exact ih ((hk.widen (.reportRole w _) rfl id).keep slot)
      fun m hm => hb m (List.mem_cons_of_mem _ hm)
  | or next ih =>
    intro o k w es hk hb
    cases k with | clause f =>
    have hfits : next.Fits o.route _ es _ := fun m hm => hb m (List.mem_cons_of_mem _ hm)
    have hready : (Cursor.clause f).Ready o (w.reportRole (.clause f)) :=
      hk.widen (.reportRole w _) rfl id
    exact ih (hready.fork hfits.length_lt) hfits
  | orElse next ih =>
    intro o k w es hk hb
    cases k with | forked f =>
    have hfits : next.Fits o.route _ es _ := fun m hm => hb m (List.mem_cons_of_mem _ hm)
    have hready : (Cursor.forked f).Ready o (w.reportRole (.forked f)) :=
      hk.widen (.reportRole w _) rfl id
    exact ih (hready.fork hfits.length_lt) hfits
  | @whenWithOr timed inner next ihInner ih =>
    intro o k w es hk hb
    cases k with | fresh f =>
    rw [Fits, moments, List.forall_mem_append] at hb
    have hready : Cursor.Ready (r := .fresh false) (.fresh f) o
        (w.reportRole (r := .fresh timed) (.fresh f)) :=
      hk.widen (.reportRole w _) rfl fun _ => ⟨timed, rfl⟩
    have hfits : inner.Fits o.route (.fresh f) (f :: es)
        (w.reportRole (r := .fresh timed) (.fresh f)) :=
      fun m hm => hb.1 m (List.mem_cons_of_mem _ hm)
    exact (ihInner hready hfits).append fun horderly =>
      ih (hready.forked horderly (inner.grown_run hfits)) hb.2
  | whenAnyOf s next ih =>
    intro o k w es hk hb
    cases k with | fresh f =>
    refine ih.choice (.each s) (fun {o v} hready hfits => ⟨.nil, fun _ => ?_⟩) hk hb
    have hgrown := ((Choice.each s).effect_make hfits).grown (Nat.le_refl _)
    exact (Run.Widens.of_grown hgrown rfl).orderly hready.orderly
  | whenAny inner slots next ihInner ih =>
    intro o k w es hk hb
    cases k with | fresh f =>
    refine ih.choice (.returned inner slots) (fun {o v} hready hfits => ?_) hk hb
    have hinner := ihInner hready hfits
    exact ⟨hinner.honest, fun h => (hinner.orderly h).of_eq rfl rfl⟩

end Chain

end Statechart
