import Mathlib.Logic.Basic

/-!
# Schedules

A machine with states `σ` takes acts `α`; an act that is not possible in a state has no next state.
A schedule is a list of acts. What every act of a schedule keeps, if it meets a condition on the
state in which it is taken, holds in the state that the schedule leads to.
-/

namespace Draugr.Lib.Schedule

variable {σ α : Type*} {step : σ → α → Option σ} {P : σ → α → Prop} {I : σ → Prop} {s s' : σ}
  {a : α} {as bs : List α}

/-- Runs a schedule. -/
def run (step : σ → α → Option σ) (s : σ) : List α → Option σ
  | [] => some s
  | a :: as => (step s a).bind (run step · as)

/-- Every act of a schedule is taken in a state that meets a condition. -/
def Along (step : σ → α → Option σ) (P : σ → α → Prop) (s : σ) : List α → Prop
  | [] => True
  | a :: as => P s a ∧ ∀ s', step s a = some s' → Along step P s' as

/-- A state without a next one ends a schedule. -/
lemma along_none (h : step s a = none) : P s a ↔ Along step P s (a :: as) := by
  refine ⟨fun hp => ⟨hp, fun s' hs => ?_⟩, And.left⟩
  rw [h] at hs
  cases hs

/-- The rest of a schedule is taken from the next state. -/
lemma along_some (h : step s a = some s') : P s a ∧ Along step P s' as ↔
    Along step P s (a :: as) := by
  refine and_congr_right fun _ => ⟨fun hp s₁ hs => ?_, fun hp => hp s' h⟩
  rw [h] at hs
  cases hs
  exact hp

instance Along.decide [∀ s a, Decidable (P s a)] : ∀ (as : List α) (s : σ),
    Decidable (Along step P s as)
  | [], _ => isTrue trivial
  | a :: as, s =>
    match h : step s a with
    | none => decidable_of_iff _ (along_none h)
    | some s' =>
      have : Decidable (Along step P s' as) := Along.decide as s'
      decidable_of_iff _ (along_some h)

/-- A schedule is run in two parts. -/
lemma run_append (s : σ) :
    ∀ as bs : List α, run step s (as ++ bs) = (run step s as).bind (run step · bs)
  | [], _ => rfl
  | a :: as, bs => by
    rw [List.cons_append, run, run, Option.bind_assoc]
    exact Option.bind_congr fun s' _ => run_append s' as bs

/-- The rest of a schedule is run from the state that its first part leads to. -/
lemma run_of_append {s₁ : σ} (h₁ : run step s as = some s₁) (h : run step s (as ++ bs) = some s') :
    run step s₁ bs = some s' := by
  rw [run_append, h₁] at h
  exact h

/-- The condition on a schedule that continues another. -/
lemma Along.append (h : Along step P s (as ++ bs)) :
    Along step P s as ∧ ∀ s', run step s as = some s' → Along step P s' bs := by
  induction as generalizing s with
  | nil => exact ⟨trivial, fun s' hs => by cases hs; exact h⟩
  | cons a as ih =>
    refine ⟨⟨h.1, fun s' hs => (ih (h.2 s' hs)).1⟩, fun s' hs => ?_⟩
    obtain ⟨s₁, h₁, hs⟩ := Option.bind_eq_some_iff.mp hs
    exact (ih (h.2 s₁ h₁)).2 s' hs

/-- A condition that every act meets. -/
lemma along_of_forall (h : ∀ s a, P s a) : ∀ (as : List α) (s : σ), Along step P s as
  | [], _ => trivial
  | a :: as, s => ⟨h s a, fun s' _ => along_of_forall h as s'⟩

/-- What every act keeps holds at the end. -/
lemma run_keeps (hstep : ∀ s a s', I s → P s a → step s a = some s' → I s') (hi : I s)
    (hp : Along step P s as) (hr : run step s as = some s') : I s' := by
  induction as generalizing s with
  | nil =>
    cases hr
    exact hi
  | cons a as ih =>
    obtain ⟨s₁, h₁, hr⟩ := Option.bind_eq_some_iff.mp hr
    exact ih (hstep s a s₁ hi hp.1 h₁) (hp.2 s₁ h₁) hr

end Draugr.Lib.Schedule
