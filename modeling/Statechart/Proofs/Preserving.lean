import Statechart.Proofs.InPlace

/-! What work in place leaves behind in any case, and what it preserves whether it succeeds or
fails. -/

namespace Statechart

namespace Work

variable {α β γ : Type}

/-- The answer of work, or the fault that it ends with, and the controller that it leaves. -/
def tried (w : Work α) (c : Controller) : Except Fault α × Controller :=
  match w.run c with
  | .ok a d => (.ok a, d)
  | .error fault d => (.error fault, d)

theorem tried_bind (w : Work α) (v : α → Work β) (c : Controller) :
    (w >>= v).tried c = match w.tried c with
      | (.ok a, d) => (v a).tried d
      | (.error fault, d) => (.error fault, d) := by
  rw [tried, run_bind, tried]
  cases w.run c <;> rfl

theorem tried_ask (q : Controller → Except Fault α) (c : Controller) :
    (ask q).tried c = (q c, c) := by
  rw [tried, run_ask]
  cases q c <;> rfl

theorem tried_of_run_eq {w v : Work α} {c : Controller} (h : w.run c = v.run c) :
    w.tried c = v.tried c := by
  rw [tried, tried, h]

/-- Work that is observed does not fail: its answer tells whether it did. -/
theorem run_observing (w : Work α) (c : Controller) :
    (observing w).run c = .ok (w.tried c).1 (w.tried c).2 := by
  simp only [observing, tryCatch, tryCatchThe, MonadExceptOf.tryCatch]
  delta EStateM.tryCatch
  simp only [EStateM.run, tried, bind, EStateM.bind, pure, EStateM.pure]
  cases w c <;> rfl

/-- Whatever becomes of the work, the invariant holds behind it if it does in front of it. -/
def Preserves (I : Controller → Prop) (w : Work α) : Prop := ∀ c, I c → I (w.tried c).2

namespace Preserves

variable {I : Controller → Prop} {w : Work α}

theorem of_pure (a : α) : (pure a : Work α).Preserves I := fun _ h => h

theorem of_throw (fault : Fault) : (throw fault : Work α).Preserves I := fun _ h => h

theorem of_ask (q : Controller → Except Fault α) : (ask q).Preserves I := by
  intro c h
  rwa [tried_ask]

theorem of_grow {change : Controller → Controller × α} (hchange : ∀ c, I c → I (change c).1) :
    (grow change).Preserves I :=
  hchange

theorem of_modify {f : Controller → Controller} (hf : ∀ c, I c → I (f c)) :
    (modify f : Work Unit).Preserves I :=
  hf

theorem bind {v : α → Work β} (hw : w.Preserves I) (hv : ∀ a, (v a).Preserves I) :
    (w >>= v).Preserves I := by
  intro c h
  have hd := hw c h
  rw [tried_bind]
  generalize w.tried c = r at hd ⊢
  obtain ⟨answer, d⟩ := r
  cases answer with
  | ok a => exact hv a d hd
  | error fault => exact hd

theorem get_bind {v : Controller → Work β} (hv : ∀ c, (v c).Preserves I) :
    (get >>= v : Work β).Preserves I :=
  fun c h => hv c c h

theorem then_pure (hw : w.Preserves I) (answer : α → β) :
    (do return answer (← w) : Work β).Preserves I :=
  hw.bind fun _ => .of_pure _

/-- What is asked at the end changes nothing. -/
theorem then_ask (hw : w.Preserves I) (q : α → Controller → Except Fault β) (answer : α → β → γ) :
    (do
      let a ← w
      return answer a (← ask (q a)) : Work γ).Preserves I :=
  hw.bind fun a => (of_ask (q a)).bind fun _ => .of_pure _

theorem discard (hw : w.Preserves I) : (discard w).Preserves I := by
  intro c h
  have hd := hw c h
  rw [tried] at hd
  rw [tried, run_discard]
  cases hr : w.run c <;> rwa [hr] at hd

theorem of_eq_ok {f : Controller → Except Fault (Controller × α)} (h : w.Preserves I)
    (hw : w.Performs f) {c d : Controller} {a : α} (hd : f c = .ok (d, a)) (hc : I c) : I d := by
  have hd' := h c hc
  rwa [tried, hw.run_of_eq_ok hd] at hd'

end Preserves

end Work

end Statechart
