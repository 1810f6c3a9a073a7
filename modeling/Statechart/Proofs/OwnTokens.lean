import Statechart.Proofs.Choices

/-! The tokens that a transition keeps are for its own edges. As long as no choice loses an edge,
all of these are there and lead along the route of the transition, so that a choice is made exactly
if the tokens that it returns are its own. -/

namespace Statechart

/-- What a transition along `route` begins with: its first edge, the number that the next edge gets,
and the tokens that are kept already. -/
structure Outset where
  route : Route
  start : EdgeHandle
  next : Nat
  tokens : List (String × Clause)

namespace Controller

/-- No token for the controller names an edge that is not there. -/
def Grounds (c : Controller) (tokens : List (String × Clause)) : Prop :=
  ∀ t ∈ tokens, t.2.controller = c.id → t.2.edge.index < c.edges.length

end Controller

namespace Run

/-- The outset of a transition on the edge `e` that would begin at this point of a run. -/
def outset (w : Run) (route : Route) (e : EdgeHandle) : Outset :=
  ⟨route, e, w.controller.edges.length, w.tokens⟩

/-- The tokens kept since the outset are for edges of the transition, and there is an edge for every
token. -/
structure Orderly (o : Outset) (w : Run) : Prop where
  grounds : w.controller.Grounds w.tokens
  since : ∃ new, w.tokens = new ++ o.tokens ∧
    ∀ t ∈ new, t.2.edge = o.start ∨ o.next ≤ t.2.edge.index

variable {o : Outset} {route : Route} {e : EdgeHandle} {w v : Run}

theorem Orderly.begin (h : w.controller.Grounds w.tokens) : w.Orderly (w.outset route e) :=
  ⟨h, [], rfl, nofun⟩

theorem Orderly.of_eq (h : w.Orderly o) (hc : v.controller = w.controller)
    (ht : v.tokens = w.tokens) : v.Orderly o := by
  refine ⟨?_, ht ▸ h.since⟩
  rw [hc, ht]
  exact h.grounds

theorem Widens.orderly (h : w.Widens v) (hw : w.Orderly o) : v.Orderly o where
  grounds t ht hid := by
    rw [h.tokens_eq] at ht
    exact Nat.lt_of_lt_of_le (hw.grounds t ht (hid.trans h.id_eq)) h.length_le
  since := h.tokens_eq ▸ hw.since

theorem Orderly.keep {slot : String} (hw : w.Orderly o)
    (he : w.controller.Own o.start o.next e) (hlt : e.index < w.controller.edges.length) :
    (w.keep slot e).Orderly o where
  grounds t ht hid := by
    rcases List.mem_cons.mp ht with rfl | ht
    · exact hlt
    · exact hw.grounds t ht hid
  since := by
    obtain ⟨new, hnew, hown⟩ := hw.since
    refine ⟨(slot, ⟨w.controller.id, e⟩) :: new, congrArg _ hnew, ?_⟩
    exact List.forall_mem_cons.mpr ⟨he.imp_right And.left, hown⟩

end Run

/-- A role holds edges of the transition that are there, and no token is kept for a fresh one. -/
structure Cursor.Ready {r : Role} (k : Cursor r) (o : Outset) (w : Run) : Prop where
  orderly : w.Orderly o
  next_le : o.next ≤ w.controller.edges.length
  own : ∀ f ∈ k.edges, w.controller.Own o.start o.next f
  there : ∀ f ∈ k.edges, ∃ x, w.controller.edges[f.index]? = some x ∧ x.route = o.route
  unkept : (∃ timed, r = .fresh timed) → ∀ f ∈ k.edges, ∀ t ∈ w.tokens,
    t.2.controller = w.controller.id → t.2.edge ≠ f

namespace Cursor.Ready

variable {o : Outset} {e : EdgeHandle} {w v : Run} {timed : Bool}

theorem lt {r : Role} {k : Cursor r} (h : k.Ready o w) {f : EdgeHandle} (hf : f ∈ k.edges) :
    f.index < w.controller.edges.length := by
  obtain ⟨x, hx, -⟩ := h.there f hf
  exact (List.getElem?_eq_some_iff.mp hx).1

theorem widen {r r' : Role} {k : Cursor r} {k' : Cursor r'} (h : k.Ready o w) (hv : w.Widens v)
    (hk : k'.edges = k.edges) (hr : (∃ timed, r' = .fresh timed) → ∃ timed, r = .fresh timed) :
    k'.Ready o v where
  orderly := hv.orderly h.orderly
  next_le := Nat.le_trans h.next_le hv.length_le
  own f hf := (h.own f (hk ▸ hf)).mono hv.length_le
  there f hf := by
    obtain ⟨x, hx, hroute⟩ := h.there f (hk ▸ hf)
    obtain ⟨y, hy, hsame⟩ := hv.edges f.index x hx
    exact ⟨y, hy, hsame.trans hroute⟩
  unkept hfresh f hf t ht hid := by
    rw [hv.tokens_eq] at ht
    exact h.unkept (hr hfresh) f (hk ▸ hf) t ht (hid.trans hv.id_eq)

theorem keep (h : (Cursor.clause e).Ready o w) (slot : String) :
    (Cursor.clause e).Ready o (w.keep slot e) where
  orderly := h.orderly.keep (h.own e (by simp)) (h.lt (by simp))
  next_le := h.next_le
  own := h.own
  there := h.there
  unkept := nofun

theorem new (hw : w.Orderly o) (hn : o.next ≤ w.controller.edges.length) {x : Edge}
    (hx : x.route = o.route)
    (hv : v.controller = w.controller.withEdges (w.controller.edges ++ [x]))
    (ht : v.tokens = w.tokens) (hb : v.controller.edges.length < 2 ^ 32) :
    Cursor.Ready (r := .fresh timed) (.fresh (.ofIndex w.controller.edges.length)) o v := by
  have hid : v.controller.id = w.controller.id := by rw [hv, Controller.id_withEdges]
  have hedges : v.controller.edges = w.controller.edges ++ [x] := by
    rw [hv, Controller.edges_withEdges]
  have hlen : v.controller.edges.length = w.controller.edges.length + 1 := by
    rw [hedges, List.length_append, List.length_singleton]
  have hindex : (EdgeHandle.ofIndex w.controller.edges.length).index =
      w.controller.edges.length := EdgeHandle.index_ofIndex (by omega)
  have hwidens : w.Widens v := by
    refine ⟨by rw [hv]; rfl, ht, fun i y hy => ⟨y, ?_, rfl⟩⟩
    rw [hedges, List.getElem?_append_left (List.getElem?_eq_some_iff.mp hy).1, hy]
  refine ⟨hwidens.orderly hw, by omega, fun f hf => ?_, fun f hf => ?_,
    fun _ f hf t hmem hto heq => ?_⟩
  · rw [List.mem_singleton.mp hf]
    exact .inr ⟨by omega, by omega⟩
  · rw [List.mem_singleton.mp hf, hindex, hedges, List.getElem?_concat_length]
    exact ⟨x, rfl, hx⟩
  · -- the new edge is behind those that tokens name
    have hlt := hw.grounds t (ht ▸ hmem) (hto.trans hid)
    rw [heq, List.mem_singleton.mp hf] at hlt
    omega

theorem fork {r : Role} {k : Cursor r} (h : k.Ready o w)
    (hb : (w.fork e o.route).1.controller.edges.length < 2 ^ 32) :
    Cursor.Ready (r := .fresh timed) (.fresh (w.fork e o.route).2) o (w.fork e o.route).1 :=
  .new h.orderly h.next_le (x := w.controller.offshoot e o.route) rfl rfl rfl hb

theorem begin (h : Cursor.Ready (r := .fresh timed) (.fresh e) o w) :
    Cursor.Ready (r := .fresh timed) (.fresh e) (w.outset o.route e) w where
  orderly := .begin h.orderly.grounds
  next_le := Nat.le_refl _
  own _ hf := .inl (List.mem_singleton.mp hf)
  there := h.there
  unkept := h.unkept

theorem forked (h : Cursor.Ready (r := .fresh timed) (.fresh e) o w) (hv : v.Orderly o)
    (hg : Grown e w.controller.edges.length w.controller v.controller) :
    (Cursor.forked e).Ready o v where
  orderly := hv
  next_le := Nat.le_trans h.next_le hg.length_le
  own f hf := (h.own f hf).mono hg.length_le
  there f hf := by
    obtain ⟨x, hx, hroute⟩ := h.there f hf
    obtain ⟨cs, hy, -⟩ := hg.kept f.index x (h.lt hf) hx
    exact ⟨_, hy, hroute⟩
  unkept := nofun

/-- What a transition keeps that began on an edge of this one counts as kept by this one. -/
theorem orderly_of_begun {r : Role} {k : Cursor r} (h : k.Ready o w) (he : e ∈ k.edges)
    (hv : v.Orderly (w.outset o.route e)) : v.Orderly o := by
  obtain ⟨old, hold, hown⟩ := h.orderly.since
  obtain ⟨new, hnew, hown'⟩ := hv.since
  refine ⟨hv.grounds, new ++ old, ?_, List.forall_mem_append.mpr ⟨fun t ht => ?_, hown⟩⟩
  · rw [hnew, List.append_assoc, ← hold]
    rfl
  · rcases hown' t ht with hstart | hle
    · rw [hstart]
      exact (h.own e he).imp_right And.left
    · exact .inr (Nat.le_trans h.next_le hle)

end Cursor.Ready

theorem Run.Widens.of_grown {e : EdgeHandle} {w v : Run}
    (h : Grown e w.controller.edges.length w.controller v.controller) (ht : v.tokens = w.tokens) :
    w.Widens v := by
  refine ⟨h.rest, ht, fun i x hx => ?_⟩
  obtain ⟨cs, hy, -⟩ := h.kept i x (List.getElem?_eq_some_iff.mp hx).1 hx
  exact ⟨_, hy, rfl⟩

namespace Call

variable {x : Call} {es : List EdgeHandle}

theorem follows_made (x : Call) : x.before.Follows x.made.1 := by
  obtain ⟨route, choice, e, w⟩ := x
  cases choice with
  | each s => exact .of_tokens_eq (w.controller.rest_forkEach ..) rfl
  | returned inner slots =>
    exact (inner.follows_run route (.fresh e) w).trans (.of_tokens_eq rfl rfl)

theorem tokens_made (x : Call) : x.made.1.tokens = x.kept ++ x.before.tokens := by
  obtain ⟨new, hnew, -⟩ := x.follows_made.tokens
  have hkept : x.kept = new := by simp [kept, hnew]
  rw [hkept, hnew]

theorem mem_kept (hmade : x.made.1.Orderly (x.before.outset x.route x.edge))
    {t : String × Clause} (ht : t ∈ x.kept) : t.2.controller = x.made.1.controller.id ∧
      x.made.1.controller.Own x.edge x.before.controller.edges.length t.2.edge ∧
      t.2.edge.index < x.made.1.controller.edges.length := by
  have hid := x.follows_made.id_eq
  obtain ⟨-, new, hnew, hids⟩ := x.follows_made
  obtain ⟨new', hnew', hown⟩ := hmade.since
  obtain rfl : x.kept = new := List.append_cancel_right (x.tokens_made.symm.trans hnew)
  obtain rfl : x.kept = new' := List.append_cancel_right (x.tokens_made.symm.trans hnew')
  have hto := (hids t ht).trans hid.symm
  have hlt := hmade.grounds t (by rw [x.tokens_made]; exact List.mem_append_left _ ht) hto
  exact ⟨hto, (hown t ht).imp_right fun hle => ⟨hle, hlt⟩, hlt⟩

theorem route_made (hb : x.choice.Fits x.route x.edge es x.before)
    (hroute : ∃ y, x.before.controller.edges[x.edge.index]? = some y ∧ y.route = x.route)
    {f : EdgeHandle} {z : Edge}
    (hf : x.made.1.controller.Own x.edge x.before.controller.edges.length f)
    (hz : x.made.1.controller.edges[f.index]? = some z) : z.route = x.route := by
  obtain ⟨y, hy, hroute⟩ := hroute
  have he := (List.getElem?_eq_some_iff.mp hy).1
  refine (x.choice.effect_make hb).common (P := (·.route = x.route)) he (fun _ _ h => h)
    (fun _ _ _ _ _ => rfl) (fun i z hi hz => ?_) f.index z
    (hf.imp (congrArg EdgeHandle.index) And.left) hz
  have hlt := (List.getElem?_eq_some_iff.mp hz).1
  obtain rfl := hi.resolve_right (Nat.not_le_of_lt hlt)
  obtain rfl := Option.some.inj (hy.symm.trans hz)
  exact hroute

theorem owned_of_returnsOwn (hb : x.choice.Fits x.route x.edge es x.before)
    (hroute : ∃ y, x.before.controller.edges[x.edge.index]? = some y ∧ y.route = x.route)
    (hmade : x.made.1.Orderly (x.before.outset x.route x.edge)) (hx : x.ReturnsOwn) {t : Clause}
    (ht : t ∈ x.made.2) :
    x.made.1.controller.owns (x.before.controller.mark x.edge) x.route t = true := by
  have hown : t.controller = x.made.1.controller.id ∧
      x.made.1.controller.Own x.edge x.before.controller.edges.length t.edge ∧
      t.edge.index < x.made.1.controller.edges.length := by
    obtain ⟨route, choice, e, w⟩ := x
    cases choice with
    | each s =>
      obtain ⟨f, hf, rfl⟩ := List.mem_map.mp ht
      have hfits := hb _ (List.mem_singleton_self _)
      have hown := (Effect.forkEach s.conditions (Nat.le_refl _)
        (.start (c := w.controller) (e := e)) hfits).2 f hf
      refine ⟨rfl, hown, ?_⟩
      rcases hown with rfl | ⟨-, hlt⟩
      · obtain ⟨y, hy, -⟩ := hroute
        have hlen := (w.controller.length_forkEach route f s.conditions).symm
        exact Nat.lt_of_lt_of_le (List.getElem?_eq_some_iff.mp hy).1 (Nat.le.intro hlen)
      · exact hlt
    | returned inner slots =>
      obtain ⟨slot, hslot, hlookup⟩ := List.mem_filterMap.mp ht
      exact mem_kept hmade (hx inner slots rfl slot hslot t hlookup)
  obtain ⟨hid, hown, hlt⟩ := hown
  have hy := List.getElem?_eq_getElem hlt
  exact Controller.owns_iff.mpr ⟨hid, hown, _, hy, route_made hb hroute hown hy⟩

theorem returnsOwn_of_owned (hw : x.before.controller.Grounds x.before.tokens)
    (hunkept : ∀ t ∈ x.before.tokens, t.2.controller = x.before.controller.id → t.2.edge ≠ x.edge)
    (howned : ∀ t ∈ x.made.2,
      x.made.1.controller.owns (x.before.controller.mark x.edge) x.route t = true) :
    x.ReturnsOwn := by
  intro inner slots hchoice slot hslot t ht
  have hreturned : t ∈ x.made.2 := by
    obtain ⟨route, choice, e, w⟩ := x
    obtain rfl : choice = .returned inner slots := hchoice
    exact List.mem_filterMap.mpr ⟨slot, hslot, ht⟩
  obtain ⟨hid, hown, -⟩ := Controller.owns_iff.mp (howned t hreturned)
  rw [x.follows_made.id_eq] at hid
  have hmem : (slot, t) ∈ x.made.1.tokens := by
    obtain ⟨front, rest, hsplit, -⟩ := List.lookup_eq_some_iff.mp ht
    rw [hsplit]
    exact List.mem_append_right _ List.mem_cons_self
  rw [tokens_made] at hmem
  refine (List.mem_append.mp hmem).resolve_right fun hold => ?_
  -- a token from before names neither the fresh edge nor an edge made since
  rcases hown with hstart | ⟨hle, -⟩
  · exact hunkept _ hold hid hstart
  · exact Nat.not_le_of_lt (hw _ hold hid) hle

/-- A choice on a fresh edge is honest if none of those in front of it has lost an edge. -/
theorem honest {o : Outset} {choice : Choice} {f : EdgeHandle} {w : Run} {timed : Bool}
    (hk : Cursor.Ready (r := .fresh timed) (.fresh f) o w) (hb : choice.Fits o.route f es w)
    (hmade : (choice.make o.route f w).1.Orderly (w.outset o.route f)) :
    Call.Honest ⟨o.route, choice, f, w⟩ := by
  let x : Call := ⟨o.route, choice, f, w⟩
  have hanswer : x.answer = (x.made.1.claim (w.controller.mark f) o.route x.made.2).2 := rfl
  by_cases hown : x.ReturnsOwn
  · refine .inl ⟨hown, ?_⟩
    obtain ⟨fs, hc⟩ := (Controller.exists_claim_iff x.made.2 []).mpr fun t ht =>
      owned_of_returnsOwn (x := x) hb (hk.there f (by simp)) hmade hown ht
    exact ⟨fs, by rw [hanswer, Run.claim, hc]⟩
  · refine .inr ⟨hown, ?_⟩
    cases hc : x.made.1.controller.claim (w.controller.mark f) o.route x.made.2 [] with
    | error fault =>
      obtain ⟨_, t, _, -, -, -, rfl⟩ := Controller.claim_error x.made.2 hc
      exact ⟨t.edge, by rw [hanswer, Run.claim, hc]⟩
    | ok fs =>
      refine absurd ?_ hown
      exact returnsOwn_of_owned hk.orderly.grounds (hk.unkept ⟨timed, rfl⟩ f (by simp))
        ((Controller.exists_claim_iff x.made.2 []).mp ⟨fs, hc⟩)

end Call

namespace Cursor.Ready

variable {o : Outset} {choice : Choice} {f : EdgeHandle} {fs es : List EdgeHandle} {w after : Run}
  {timed : Bool}

theorem claimed (hk : Cursor.Ready (r := .fresh timed) (.fresh f) o w)
    (hb : choice.Fits o.route f es w)
    (hmade : (choice.make o.route f w).1.Orderly (w.outset o.route f))
    (hr : choice.run o.route f w = (after, .ok fs)) : (Cursor.spread fs).Ready o after := by
  have hle := (choice.effect_make hb).length_le
  cases hc : (choice.make o.route f w).1.controller.claim (w.controller.mark f) o.route
      (choice.make o.route f w).2 [] with
  | error fault => simp [Choice.run, Run.claim, hc] at hr
  | ok gs =>
    simp only [Choice.run, Run.claim, hc] at hr
    obtain ⟨rfl, hfs⟩ := Prod.mk.inj hr
    obtain rfl := Except.ok.inj hfs
    have howned (g : EdgeHandle) (hg : g ∈ gs) :
        (choice.make o.route f w).1.controller.Own f w.controller.edges.length g ∧
          ∃ x, (choice.make o.route f w).1.controller.edges[g.index]? = some x ∧
            x.route = o.route := by
      obtain ⟨t, -, rfl, ht⟩ := (Controller.mem_of_claim _ hc hg).resolve_left (by simp)
      exact (Controller.owns_iff.mp ht).2
    refine ⟨hk.orderly_of_begun (by simp) hmade, Nat.le_trans hk.next_le hle, fun g hg => ?_,
      fun g hg => (howned g hg).2, fun hfresh => ?_⟩
    · exact (howned g hg).1.widen ((hk.own f (by simp)).mono hle) hk.next_le
    · obtain ⟨_, ⟨⟩⟩ := hfresh

theorem refused {fault : Fault} (hk : Cursor.Ready (r := .fresh timed) (.fresh f) o w)
    (hb : choice.Fits o.route f es w)
    (hmade : (choice.make o.route f w).1.Orderly (w.outset o.route f))
    (hr : choice.run o.route f w = (after, .error fault))
    (hkept : ¬Call.Loses ⟨o.route, choice, f, w⟩) : after.Orderly o := by
  let x : Call := ⟨o.route, choice, f, w⟩
  have hgrown := (choice.effect_make hb).grown (Nat.le_refl _)
  have hafter : after = x.made.1.onController (·.rollback (w.controller.mark f)) := by
    have hclaim : x.made.1.claim (w.controller.mark f) o.route x.made.2 =
      (after, .error fault) := hr
    simp only [Run.claim] at hclaim
    split at hclaim
    · cases hclaim
    · exact (congrArg Prod.fst hclaim).symm
  -- the controller is as before, but the tokens that were kept meanwhile are still there
  have hcontroller : after.controller = w.controller := by
    rw [hafter, Run.controller_onController]
    exact hgrown.rollback_eq
  have htokens : after.tokens = x.made.1.tokens := by
    rw [hafter]
    rfl
  refine ⟨fun t ht hid => ?_, htokens ▸ (hk.orderly_of_begun (by simp) hmade).since⟩
  rw [hcontroller] at hid ⊢
  rw [htokens, x.tokens_made] at ht
  rcases List.mem_append.mp ht with hnew | hold
  · have hanswer : x.answer = .error fault := congrArg Prod.snd hr
    exact Nat.lt_of_not_le fun hle => hkept ⟨⟨fault, hanswer⟩, t, hnew, hle⟩
  · exact hk.orderly.grounds t hold hid

end Cursor.Ready

end Statechart
