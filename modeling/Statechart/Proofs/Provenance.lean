import Statechart.Session
import Statechart.Proofs.HonestRuns
import Statechart.Proofs.InPlace

/-! Where the tokens of a session come from. A choice among alternatives keeps to its own tokens as
long as the controller has its identity for itself, and no choice on it that was refused has taken
an edge back for which a token was kept. -/

namespace Statechart

namespace Session

variable {s s' : Session} {t : Step} {g : Nat} {c : Controller}

/-- What a step does to the controllers and tokens of a session. -/
inductive Changes (s : Session) : Step → Session → Prop
  | extend {t : Step} {s' : Session} (new : List Controller)
      (hc : s'.controllers = s.controllers ++ new) (ht : s'.tokens = s.tokens) : Changes s t s'
  | act {t : Step} {s' : Session} {k : Nat} {c d : Controller} {a : Action} {answer : Answer}
      (hk : s.controllers[k]? = some c) (h : a.perform c = .ok (d, answer))
      (hc : s'.controllers = s.controllers.set k d) (ht : s'.tokens = s.tokens) : Changes s t s'
  | travel {s' : Session} {k : Nat} {c started : Controller} {j : Journey Source} {e : EdgeHandle}
      {route : Route} {w : Run} (hk : s.controllers[k]? = some c)
      (h : c.start j.opening = .ok (started, e, route))
      (hw : (j.chain.map (·.supply s.references)).run route (.fresh e) ⟨started, s.tokens, [], []⟩ =
        w)
      (hc : s'.controllers = s.controllers.set k w.controller) (ht : s'.tokens = w.tokens) :
      Changes s (.task k (.ok (.transition j))) s'

theorem changes_refl : Changes s t s := .extend [] (by simp) rfl

theorem Changes.of_eq {u : Session} (h : s.Changes t s') (hc : u.controllers = s'.controllers)
    (ht : u.tokens = s'.tokens) : s.Changes t u := by
  cases h with
  | extend new hc' ht' => exact .extend new (hc.trans hc') (ht.trans ht')
  | act hk h hc' ht' => exact .act hk h (hc.trans hc') (ht.trans ht')
  | travel hk h hw hc' ht' => exact .travel hk h hw (hc.trans hc') (ht.trans ht')

/-- Putting a controller back where it was changes nothing. -/
theorem put_self (hk : s.controllers[g]? = some c) : s.put g c = s := by
  obtain ⟨hlt, rfl⟩ := List.getElem?_eq_some_iff.mp hk
  exact congrArg (fun controllers => { s with controllers }) (List.set_getElem_self hlt)

theorem changes_act {a : Action} {reply : Except StepFault Reply}
    (hk : s.controllers[g]? = some c) (h : s.act g c a = (s', reply)) : Changes s t s' := by
  rw [act, a.performs_work] at h
  cases hperform : a.perform c with
  | ok r =>
    simp only [hperform] at h
    obtain ⟨rfl, -⟩ := Prod.mk.inj h
    exact .act hk hperform rfl rfl
  | error fault =>
    simp only [hperform] at h
    obtain ⟨rfl, -⟩ := Prod.mk.inj h
    rw [put_self hk]
    exact changes_refl

theorem changes_register {a : Action} {slot : Except Gap String} {r : AnyReference}
    {reply : Except StepFault Reply} (hk : s.controllers[g]? = some c)
    (h : s.register g c a slot r = .ok (s', reply)) : Changes s t s' := by
  simp only [register] at h
  split at h
  · rename_i after answer hact
    obtain ⟨_, -, hkeep⟩ := bind_eq_ok.mp h
    obtain ⟨rfl, -⟩ := Prod.mk.inj (Except.ok.inj hkeep)
    exact (changes_act hk hact).of_eq rfl rfl
  · rename_i hact
    exact changes_act hk (Except.ok.inj h)

theorem changes_restore {snapshot : Option Snapshot} {answer : Controller → Nat → Snapshot → Reply}
    {reply : Except StepFault Reply} (h : s.restore snapshot answer = (s', reply)) :
    Changes s t s' := by
  simp only [restore] at h
  split at h
  · obtain ⟨rfl, -⟩ := Prod.mk.inj h
    exact changes_refl
  · split at h
    · obtain ⟨rfl, -⟩ := Prod.mk.inj h
      exact changes_refl
    · rename_i d hrestore
      obtain ⟨rfl, -⟩ := Prod.mk.inj h
      exact .extend [d] rfl rfl

theorem changes_create {name : String} {choice : DefaultsChoice} {reply : Except StepFault Reply}
    (h : s.create name choice = (s', reply)) : Changes s t s' := by
  simp only [create] at h
  split at h
  · obtain ⟨rfl, -⟩ := Prod.mk.inj h
    exact changes_refl
  · rename_i d hdefaults
    obtain ⟨rfl, -⟩ := Prod.mk.inj h
    exact .extend [_] rfl rfl

theorem changes_found {α : Type} {found : Except Fault α} {next : Outcome}
    {reply : Except StepFault Reply} (hnext : next = .ok (s', reply) → Changes s t s')
    (h : s.onceFound found next = .ok (s', reply)) : Changes s t s' := by
  cases found with
  | ok a => exact hnext h
  | error fault =>
    obtain ⟨rfl, -⟩ := Prod.mk.inj (Except.ok.inj h)
    exact changes_refl

theorem changes_travel {j : Journey Source} {reply : Except StepFault Reply}
    (hk : s.controllers[g]? = some c)
    (h : s.travel g c ⟨j.opening, j.chain.map (·.supply s.references)⟩ = .ok (s', reply)) :
    Changes s (.task g (.ok (.transition j))) s' := by
  rw [travel, Work.performs_start] at h
  cases hstart : c.start j.opening with
  | error fault =>
    simp only [hstart] at h
    obtain ⟨rfl, -⟩ := Prod.mk.inj (Except.ok.inj h)
    rw [put_self hk]
    exact changes_refl
  | ok r =>
    obtain ⟨started, e, route⟩ := r
    simp only [hstart] at h
    split at h
    · cases h
    · obtain ⟨rfl, -⟩ := Prod.mk.inj (Except.ok.inj h)
      exact .travel hk hstart rfl rfl rfl

theorem changes_task {task : Task} {reply : Except StepFault Reply}
    (hk : s.controllers[g]? = some c) (h : s.task g c task = .ok (s', reply)) :
    Changes s (.task g (.ok task)) s' := by
  cases task with
  | act a => exact changes_act hk (Except.ok.inj h)
  | ask q | saveText stamp | saveBytes stamp =>
    obtain ⟨rfl, -⟩ := Prod.mk.inj (Except.ok.inj h)
    exact changes_refl
  | edit state edits =>
    refine changes_found (fun hnext => ?_) h
    obtain ⟨_, -, hnext⟩ := bind_eq_ok.mp hnext
    obtain ⟨_, -, hnext⟩ := bind_eq_ok.mp hnext
    exact changes_act hk (Except.ok.inj hnext)
  | attach node kind value =>
    refine changes_found (fun hnext => ?_) h
    obtain ⟨_, -, hnext⟩ := bind_eq_ok.mp hnext
    exact changes_act hk (Except.ok.inj hnext)
  | register kind name slot => exact changes_register hk h
  | registerAll kind names slot => exact changes_register hk h
  | transition j => exact changes_travel hk h
  | copy form stamp => exact changes_restore (Except.ok.inj h)

theorem changes_step {reply : Except StepFault Reply} (h : s.step t = .ok (s', reply)) :
    Changes s t s' := by
  cases t with
  | create name choice => exact changes_create (Except.ok.inj h)
  | restoreText text => exact changes_restore (Except.ok.inj h)
  | restoreBytes bytes => exact changes_restore (Except.ok.inj h)
  | sameIdentity a b =>
    simp only [step] at h
    split at h <;>
    · obtain ⟨rfl, -⟩ := Prod.mk.inj (Except.ok.inj h)
      exact changes_refl
  | showReference slot =>
    simp only [step] at h
    split at h
    · obtain ⟨rfl, -⟩ := Prod.mk.inj (Except.ok.inj h)
      exact changes_refl
    · cases h
  | task g task =>
    simp only [step] at h
    split at h
    · rename_i c hk
      obtain ⟨found, htask, h⟩ := bind_eq_ok.mp h
      rw [htask]
      exact changes_task hk h
    · obtain ⟨rfl, -⟩ := Prod.mk.inj (Except.ok.inj h)
      exact changes_refl

/-- The choices of a transition, in the order in which they are answered. -/
def choices (s : Session) (c : Controller) (j : Journey Source) : List Call :=
  match c.start j.opening with
  | .error _ => []
  | .ok (started, e, route) =>
    (j.chain.map (·.supply s.references)).choices route (.fresh e) ⟨started, s.tokens, [], []⟩

def Fits (s : Session) (c : Controller) (j : Journey Source) : Prop :=
  ∀ started e route, c.start j.opening = .ok (started, e, route) →
    (j.chain.map (·.supply s.references)).Fits route (.fresh e) [] ⟨started, s.tokens, [], []⟩

/-- No other controller of the session has the identity of this one. -/
def Distinct (s : Session) (g : Nat) : Prop :=
  ∀ k < s.controllers.length, s.controllers[k]?.map (·.id) = s.controllers[g]?.map (·.id) → k = g

theorem Distinct.eq_of_id {d : Controller} {k : Nat} (h : s.Distinct g)
    (hc : s.controllers[g]? = some c) (hk : s.controllers[k]? = some d) (hid : d.id = c.id) :
    k = g := by
  refine h k (List.getElem?_eq_some_iff.mp hk).1 ?_
  rw [hc, hk, Option.map_some, Option.map_some, hid]

/-- A session in which no choice on one controller has lost an edge so far. -/
inductive Careful (g : Nat) : Session → Prop
  | start : Careful g start
  | step {s s' : Session} {t : Step} {reply : Except StepFault Reply} (h : Careful g s)
      (hs : s.step t = .ok (s', reply)) (hb : ∀ c ∈ s'.controllers, c.edges.length < 2 ^ 32)
      (hj : ∀ c j, s.controllers[g]? = some c → t = .task g (.ok (.transition j)) →
        s.Fits c j ∧ ∀ x ∈ s.choices c j, ¬x.Loses) : Careful g s'

/-- Every token is for a controller of the session, and those for a controller that has its identity
for itself name edges that it has. -/
structure Accounted (g : Nat) (s : Session) : Prop where
  known : ∀ t ∈ s.tokens, ∃ (k : Nat) (c : Controller),
    s.controllers[k]? = some c ∧ c.id = t.2.controller
  grounded : s.Distinct g → ∀ c, s.controllers[g]? = some c → c.Grounds s.tokens

theorem getElem?_set {cs : List Controller} {k : Nat} {d : Controller} (hk : cs[k]? = some c)
    (i : Nat) : (cs.set k d)[i]? = if k = i then some d else cs[i]? := by
  have hlt := (List.getElem?_eq_some_iff.mp hk).1
  rw [List.getElem?_set, if_pos hlt]

theorem continues_set {k i : Nat} {d x : Controller} (hk : s.controllers[k]? = some c)
    (hid : d.id = c.id) (hc : s'.controllers = s.controllers.set k d)
    (hi : s.controllers[i]? = some x) : ∃ y, s'.controllers[i]? = some y ∧ y.id = x.id := by
  rw [hc, getElem?_set hk]
  split
  · rename_i heq
    subst heq
    obtain rfl := Option.some.inj (hk.symm.trans hi)
    exact ⟨d, rfl, hid⟩
  · exact ⟨x, hi, rfl⟩

theorem id_start {o : Opening} {started : Controller} {e : EdgeHandle} {route : Route}
    (h : c.start o = .ok (started, e, route)) : started.id = c.id := by
  obtain ⟨_, -, rfl, -⟩ := Controller.start_eq_ok c e route h
  rfl

theorem follows_travel {started : Controller} {j : Journey Source} {e : EdgeHandle} {route : Route}
    {w : Run} (hw : (j.chain.map (·.supply s.references)).run route (.fresh e)
      ⟨started, s.tokens, [], []⟩ = w) : Run.Follows ⟨started, s.tokens, [], []⟩ w := by
  rw [← hw]
  exact Chain.follows_run route _ _ _

theorem mem_set {k : Nat} {d : Controller} (hk : s.controllers[k]? = some c)
    (hc : s'.controllers = s.controllers.set k d) : d ∈ s'.controllers := by
  rw [hc]
  exact List.mem_set (List.getElem?_eq_some_iff.mp hk).1 d

namespace Changes

theorem continues (h : s.Changes t s') (hb : ∀ c ∈ s'.controllers, c.edges.length < 2 ^ 32)
    {i : Nat} {x : Controller} (hi : s.controllers[i]? = some x) :
    ∃ y, s'.controllers[i]? = some y ∧ y.id = x.id := by
  cases h with
  | extend new hc ht =>
    have hlt := (List.getElem?_eq_some_iff.mp hi).1
    exact ⟨x, by rw [hc, List.getElem?_append_left hlt, hi], rfl⟩
  | act hk h hc ht =>
    have hsound := (Action.builds_perform h).sound (hb _ (mem_set hk hc))
    exact continues_set hk hsound.keeps.id_eq hc hi
  | travel hk h hw hc ht =>
    exact continues_set hk ((follows_travel hw).id_eq.trans (id_start h)) hc hi

theorem distinct (h : s.Changes t s') (hb : ∀ c ∈ s'.controllers, c.edges.length < 2 ^ 32)
    (hd : s'.Distinct g) : s.Distinct g := by
  intro k hk heq
  obtain ⟨d', hk', hid'⟩ := h.continues hb (List.getElem?_eq_getElem hk)
  cases hg : s.controllers[g]? with
  | none => simp [List.getElem?_eq_getElem hk, hg] at heq
  | some c =>
    obtain ⟨c', hc', hid⟩ := h.continues hb hg
    rw [hg, List.getElem?_eq_getElem hk, Option.map_some, Option.map_some, Option.some.injEq] at heq
    exact hd.eq_of_id hc' hk' (by rw [hid, hid', heq])

end Changes

theorem ready_start {o : Opening} {started : Controller} {e : EdgeHandle} {route : Route}
    {tokens : List (String × Clause)} (hc : c.Grounds tokens)
    (h : c.start o = .ok (started, e, route)) (hb : started.edges.length < 2 ^ 32) {timed : Bool} :
    Cursor.Ready (r := .fresh timed) (.fresh e) (Run.outset ⟨c, tokens, [], []⟩ route e)
      ⟨started, tokens, [], []⟩ := by
  obtain ⟨m, -, rfl, rfl⟩ := Controller.start_eq_ok c e route h
  exact .new (w := ⟨c, tokens, [], []⟩) (x := c.blankEdge route m) (.begin hc) (Nat.le_refl _) rfl
    rfl rfl hb

theorem sincere_travel {j : Journey Source} {started : Controller} {e : EdgeHandle} {route : Route}
    (hg : c.Grounds s.tokens) (h : c.start j.opening = .ok (started, e, route)) (hf : s.Fits c j) :
    Call.Sincere (Run.outset ⟨c, s.tokens, [], []⟩ route e) (s.choices c j)
      ((j.chain.map (·.supply s.references)).run route (.fresh e) ⟨started, s.tokens, [], []⟩) := by
  have hfits := hf started e route h
  have hready : Cursor.Ready (r := .fresh (j.opening.flavor = .timed)) (.fresh e)
      (Run.outset ⟨c, s.tokens, [], []⟩ route e) ⟨started, s.tokens, [], []⟩ :=
    ready_start hg h hfits.length_lt
  simp only [choices, h]
  exact Chain.faithful _ hready hfits

namespace Accounted

theorem start : Accounted g Session.start where
  known u hu := absurd hu List.not_mem_nil
  grounded _ c hc := by simp [Session.start] at hc

theorem known_step (h : Accounted g s) (hs : s.Changes t s')
    (hb : ∀ c ∈ s'.controllers, c.edges.length < 2 ^ 32) :
    ∀ u ∈ s'.tokens, ∃ (k : Nat) (c : Controller),
      s'.controllers[k]? = some c ∧ c.id = u.2.controller := by
  have hold (u : String × Clause) (hu : u ∈ s.tokens) : ∃ (k : Nat) (c : Controller),
      s'.controllers[k]? = some c ∧ c.id = u.2.controller := by
    obtain ⟨k, c, hk, hid⟩ := h.known u hu
    obtain ⟨c', hk', hid'⟩ := hs.continues hb hk
    exact ⟨k, c', hk', hid'.trans hid⟩
  intro u hu
  cases hs with
  | extend new hc ht | act hk h hc ht => exact hold u (ht ▸ hu)
  | @travel _ k c started j e route w hk hstart hw hc ht =>
    have hid := (follows_travel hw).id_eq
    obtain ⟨-, new, hnew, hids⟩ := follows_travel hw
    rw [ht, hnew] at hu
    rcases List.mem_append.mp hu with hu | hu
    · exact ⟨k, w.controller, by rw [hc, getElem?_set hk, if_pos rfl],
        hid.trans (hids u hu).symm⟩
    · exact hold u hu

theorem grounded_step (h : Accounted g s) (hs : s.Changes t s')
    (hb : ∀ c ∈ s'.controllers, c.edges.length < 2 ^ 32)
    (hj : ∀ c j, s.controllers[g]? = some c → t = .task g (.ok (.transition j)) →
      s.Fits c j ∧ ∀ x ∈ s.choices c j, ¬x.Loses) (hd' : s'.Distinct g) {c' : Controller}
    (hc' : s'.controllers[g]? = some c') : c'.Grounds s'.tokens := by
  have hd := hs.distinct hb hd'
  cases hs with
  | extend new hc ht =>
    rw [ht]
    by_cases hlt : g < s.controllers.length
    · rw [hc, List.getElem?_append_left hlt] at hc'
      exact h.grounded hd c' hc'
    · -- a new controller has an identity that no token is for
      intro u hu hid
      obtain ⟨k, c, hk, hid'⟩ := h.known u hu
      have hk' := (List.getElem?_eq_some_iff.mp hk).1
      have hkg := hd'.eq_of_id hc' (by rw [hc, List.getElem?_append_left hk', hk])
        (hid'.trans hid)
      omega
  | @act _ _ k c d a answer hk hperform hc ht =>
    rw [hc, getElem?_set hk] at hc'
    rw [ht]
    split at hc'
    · rename_i heq
      subst heq
      obtain rfl := Option.some.inj hc'
      have hkeeps := ((Action.builds_perform hperform).sound (hb _ (mem_set hk hc))).keeps
      intro u hu hid
      have hlt := h.grounded hd c hk u hu (hid.trans hkeeps.id_eq)
      exact Nat.lt_of_lt_of_le hlt hkeeps.length_edges_le
    · exact h.grounded hd c' hc'
  | @travel _ k c started j e route w hk hstart hw hc ht =>
    obtain ⟨hid, new, hnew, hids⟩ := follows_travel hw
    rw [hc, getElem?_set hk] at hc'
    rw [ht]
    split at hc'
    · rename_i heq
      subst heq
      obtain rfl := Option.some.inj hc'
      obtain ⟨hfits, hkept⟩ := hj c j hk rfl
      have hafter := ((sincere_travel (h.grounded hd c hk) hstart hfits).orderly hkept).grounds
      rwa [hw] at hafter
    · rename_i hne
      intro u hu hid'
      rw [hnew] at hu
      rcases List.mem_append.mp hu with hu | hu
      · have hsame : c.id = c'.id := by rw [← hid', hids u hu, id_start hstart]
        exact absurd (hd.eq_of_id hc' hk hsame) hne
      · exact h.grounded hd c' hc' u hu hid'

end Accounted

theorem Careful.accounted (h : Careful g s) : Accounted g s := by
  induction h with
  | start => exact .start
  | step _ hs hb hj ih =>
    have hchanges := changes_step hs
    exact ⟨ih.known_step hchanges hb, fun hd c hc => ih.grounded_step hchanges hb hj hd hc⟩

/-- A choice on a controller that has its identity for itself is made exactly if the tokens that it
returns were kept while its alternatives were made, as long as no choice before it has lost an
edge. -/
theorem Careful.choice_returns_own {j : Journey Source} (h : Careful g s)
    (hc : s.controllers[g]? = some c) (hd : s.Distinct g) (hf : s.Fits c j)
    {front rest : List Call} {x : Call} (hx : s.choices c j = front ++ x :: rest)
    (hfront : ∀ y ∈ front, ¬y.Loses) : x.Honest := by
  have hhonest : Call.HonestUntilLoss (s.choices c j) := by
    cases hstart : c.start j.opening with
    | error fault =>
      simp only [choices, hstart]
      exact .nil
    | ok begun =>
      obtain ⟨started, e, route⟩ := begun
      exact (sincere_travel (h.accounted.grounded hd c hc) hstart hf).honest
  rw [hx] at hhonest
  exact hhonest.honest hfront

/-- The session behind a step, as long as the step meets no gap. -/
def after (s : Session) (t : Step) : Session :=
  match s.step t with
  | .ok (s, _) => s
  | .error _ => s

theorem Careful.aside (h : Careful g s) (t : Step) (ht : ∀ j, t ≠ .task g (.ok (.transition j)))
    (hb : ∀ c ∈ (s.after t).controllers, c.edges.length < 2 ^ 32) : Careful g (s.after t) := by
  cases hs : s.step t with
  | error gap => simpa only [after, hs] using h
  | ok left =>
    obtain ⟨s', reply⟩ := left
    have hafter : s.after t = s' := by simp only [after, hs]
    rw [hafter] at hb ⊢
    exact h.step hs hb fun _ j _ heq => absurd heq (ht j)

def addsLayer (g : Nat) : Step := .task g (.ok (.act (.addLayer "")))

def loop (chain : Chain Source (.fresh true)) : Journey Source :=
  ⟨.anyState Controller.bareRoot (.machine Controller.bareRoot), chain⟩

def travels (g : Nat) (chain : Chain Source (.fresh true)) : Step :=
  .task g (.ok (.transition (loop chain)))

/-- A choice made with its own token, and one that is refused, since it returns that token again
beside one of another controller. -/
theorem Careful.choice_returns_own_among_others :
    let root := Controller.bareRoot
    let c : Controller := { Controller.bare with id := mint 0 }
    let d : Controller := { Controller.bare with id := mint 1 }
    let s : Session :=
      ⟨[c, (d.createEdge root (.anyState root (.machine root))).1], [],
        [("far", ⟨d.id, .ofIndex 0⟩)], 2⟩
    let j := loop (.whenWithOr (.whenAny (.when .nothing (.keep "mine" .stop)) ["mine"] .stop)
      (.orElse (.whenAny (.when .nothing .stop) ["mine", "far"] .stop)))
    ∃ x y, Careful 0 s ∧ s.Distinct 0 ∧ s.Fits c j ∧ s.choices c j = [x, y] ∧
      x.answer = .ok [.ofIndex 0] ∧ x.ReturnsOwn ∧
      ∃ f, y.answer = .error (.foreignClause f) := by
  intro root c d s j
  have h1 := Careful.start.aside (g := 0) (.create "" .standard) nofun (by decide)
  have h2 := h1.aside (addsLayer 0) nofun (by decide)
  have h3 := h2.aside (.create "" .standard) nofun (by decide)
  have h4 := h3.aside (addsLayer 1) nofun (by decide)
  have hs : Careful 0 s :=
    h4.aside (travels 1 (.when .nothing (.keep "far" .stop))) nofun (by decide)
  have hd : s.Distinct 0 := by
    unfold Distinct
    decide
  have hf : s.Fits c j := by
    intro started e route h
    cases h
    unfold Chain.Fits
    decide
  have hc : s.controllers[0]? = some c := rfl
  obtain ⟨x, y, hchoices, hanswer, hkept, inner, slots, t, hy, hslot, ht⟩ :
      ∃ x y, s.choices c j = [x, y] ∧ x.answer = .ok [.ofIndex 0] ∧ y.kept = [] ∧
        ∃ inner slots t, y.choice = .returned inner slots ∧ "mine" ∈ slots ∧
          y.made.1.tokens.lookup "mine" = some t :=
    ⟨_, _, rfl, rfl, rfl, _, _, _, rfl, by simp, rfl⟩
  have hfirst : s.choices c j = [] ++ x :: [y] := hchoices
  have hsecond : s.choices c j = [x] ++ y :: [] := hchoices
  have hhonest : x.Honest := hs.choice_returns_own hc hd hf hfirst (by simp)
  have hmade : ¬x.Loses := by
    rintro ⟨⟨fault, hfault⟩, -⟩
    rw [hanswer] at hfault
    cases hfault
  have hrefused : y.Honest := hs.choice_returns_own hc hd hf hsecond (by simpa using hmade)
  refine ⟨x, y, hs, hd, hf, hchoices, hanswer, ?_, ?_⟩
  · rcases hhonest with ⟨hown, -⟩ | ⟨-, f, hfault⟩
    · exact hown
    · rw [hanswer] at hfault
      cases hfault
  · rcases hrefused with ⟨hown, -⟩ | ⟨-, hfault⟩
    · have hmine := hown inner slots hy "mine" hslot t ht
      rw [hkept] at hmine
      exact absurd hmine List.not_mem_nil
    · exact hfault

/-- A token that is accepted for an edge of a copy, which has the identity of its original, and one
that is accepted for the edge that came in the place of its own. -/
theorem not_own_copied_or_reissued :
    let taking (slot : String) := loop (.whenAny (.when .nothing .stop) [slot] .stop)
    let stamp : Stamp := ⟨none, ⟨⟨2024, 2, 29, 12, 0, 0, 0⟩, by decide⟩⟩
    let copying := [Step.create "" .standard, addsLayer 0, .task 0 (.ok (.copy .direct stamp)),
      travels 0 (.when .nothing (.keep "far" .stop))]
    let losing := [Step.create "" .standard, addsLayer 0,
      travels 0 (.when .nothing (.keep "old" .stop)),
      travels 0 (.whenAny (.when .nothing (.or (.when .nothing (.keep "lost" .stop))))
        ["lost", "old"] .stop)]
    (∃ s replies c x, start.run copying = .ok (s, replies) ∧ s.controllers[1]? = some c ∧
      s.choices c (taking "far") = [x] ∧ x.answer = .ok [.ofIndex 0] ∧ ¬x.ReturnsOwn) ∧
    ∃ s replies c x, start.run losing = .ok (s, replies) ∧ s.controllers[0]? = some c ∧
      s.choices c (taking "lost") = [x] ∧ x.answer = .ok [.ofIndex 2] ∧ ¬x.ReturnsOwn := by
  intro taking stamp copying losing
  refine ⟨⟨_, _, _, _, rfl, rfl, rfl, rfl, fun hown => ?_⟩,
    ⟨_, _, _, _, rfl, rfl, rfl, rfl, fun hown => ?_⟩⟩
  · have hfar := hown _ _ rfl "far" (by simp) _ rfl
    exact absurd hfar List.not_mem_nil
  · have hlost := hown _ _ rfl "lost" (by simp) _ rfl
    exact absurd hlost List.not_mem_nil

end Session

end Statechart
