import Mathlib.Data.List.Basic
import Mathlib.Data.List.Induction

/-!
# Machines and their runs

A machine says which actions a state admits and what they make of it.  A run is legal when
each action is admitted by the state that it meets.  `Legal.history` is the rule for what
depends on the actions taken so far, `Legal.invariant` the one for the states alone.
-/

set_option autoImplicit false

namespace Exodus.Library

/-- The actions that a state admits, and what they make of it. -/
structure Machine (σ α : Type*) where
  admits : σ → α → Prop
  step : σ → α → σ

namespace Machine

variable {σ α : Type*} (M : Machine σ α) {s : σ} {actions : List α} {a : α}

/-- The state after some actions. -/
def run (s : σ) (actions : List α) : σ := actions.foldl M.step s

/-- No action leaves the state. -/
@[simp] theorem run_nil (s : σ) : M.run s [] = s := rfl

/-- The last action comes last. -/
@[simp] theorem run_concat (s : σ) (actions : List α) (a : α) :
    M.run s (actions ++ [a]) = M.step (M.run s actions) a := by
  simp [run]

/-- Each action is admitted by the state that it meets. -/
def Legal : σ → List α → Prop
  | _, [] => True
  | s, a :: rest => M.admits s a ∧ Legal (M.step s a) rest

variable {M}

/-- The last action is admitted by the state after the others. -/
theorem legal_concat :
    M.Legal s (actions ++ [a]) ↔ M.Legal s actions ∧ M.admits (M.run s actions) a := by
  induction actions generalizing s with
  | nil => simp [Legal, run]
  | cons b rest ih =>
    rw [List.cons_append, Legal, Legal, ih, and_assoc]
    rfl

/-- Actions that every state admits make a legal run. -/
theorem legal_of_forall (s : σ) (h : ∀ a ∈ actions, ∀ s, M.admits s a) : M.Legal s actions := by
  induction actions generalizing s with
  | nil => trivial
  | cons a rest ih =>
    exact ⟨h a List.mem_cons_self s, ih _ fun b hb => h b (List.mem_cons_of_mem a hb)⟩

/-- What holds at the start and is kept by every admitted action, the actions so far being
known, holds after a legal run. -/
theorem Legal.history {P : List α → σ → Prop} (h : M.Legal s actions) (hstart : P [] s)
    (hstep : ∀ past t a, P past t → M.admits t a → P (past ++ [a]) (M.step t a)) :
    P actions (M.run s actions) := by
  induction actions using List.reverseRecOn with
  | nil => exact hstart
  | append_singleton past a ih =>
    obtain ⟨hpast, ha⟩ := legal_concat.mp h
    rw [run_concat]
    exact hstep past _ a (ih hpast) ha

/-- What holds at the start and is kept by every admitted action holds after a legal run. -/
theorem Legal.invariant {P : σ → Prop} (h : M.Legal s actions) (hstart : P s)
    (hstep : ∀ t a, P t → M.admits t a → P (M.step t a)) : P (M.run s actions) :=
  h.history (P := fun _ t => P t) hstart fun _ => hstep

end Machine

end Exodus.Library
