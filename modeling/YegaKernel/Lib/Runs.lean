import Mathlib.Logic.Relation
import Mathlib.Tactic

/-! # Runs of a system

A system takes actions, each of them allowed in some states only: `Acts allowed step s s'` says that
an allowed action leads from `s` to `s'`. What every such step preserves holds in every state a run
reaches (`invariant_of_run`). A list of actions is run by `runList`, which checks each one. -/

namespace YegaKernel.Lib.Runs

open Relation (ReflTransGen)

variable {σ α : Type*} {allowed : σ → α → Prop} {step : σ → α → Option σ}

/-- One allowed action. -/
def Acts (allowed : σ → α → Prop) (step : σ → α → Option σ) (s s' : σ) : Prop :=
  ∃ a, allowed s a ∧ step s a = some s'

/-- **What every step preserves holds along every run.** -/
theorem invariant_of_run {r : σ → σ → Prop} {I : σ → Prop} (hstep : ∀ s s', I s → r s s' → I s')
    {s s' : σ} (hs : I s) (hrun : ReflTransGen r s s') : I s' := by
  induction hrun with
  | refl => exact hs
  | tail _ h ih => exact hstep _ _ ih h

/-- The actions one after the other, if the check accepts each of them. -/
def runList (check : σ → α → Bool) (step : σ → α → Option σ) : σ → List α → Option σ
  | s, [] => some s
  | s, a :: as => if check s a then (step s a).bind fun s' => runList check step s' as else none

theorem run_of_runList {check : σ → α → Bool} : ∀ {s s' : σ} {as : List α},
    (∀ s, ∀ a ∈ as, check s a = true → allowed s a) → runList check step s as = some s' →
      ReflTransGen (Acts allowed step) s s'
  | s, s', [], _, h => by
    obtain rfl := Option.some.inj h
    exact .refl
  | s, s', a :: as, hP, h => by
    rw [runList] at h
    split at h
    · rename_i hcheck
      obtain ⟨s₁, hstep, hrest⟩ := Option.bind_eq_some_iff.mp h
      exact .head ⟨a, hP s a List.mem_cons_self hcheck, hstep⟩
        (run_of_runList (fun s b hb => hP s b (List.mem_cons_of_mem a hb)) hrest)
    · exact absurd h (by simp)

end YegaKernel.Lib.Runs
