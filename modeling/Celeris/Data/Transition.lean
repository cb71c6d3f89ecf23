import Mathlib.Data.List.Basic

/-!
# Systems that step by actions

A system is a function that says what an action makes of a state, or that it cannot
be taken there. `Runs` is what can be reached when every step meets a condition on
the state before it and its action, and `Runs.invariant` is the induction over such
runs. `exec` takes a list of actions, for runs that are written out. Where one step is
made of many small changes, `Chain` puts them together and adds up what they weigh.
-/

namespace Transition

universe u v

variable {σ : Type u} {α : Type v} {step : σ → α → Option σ} {ok : σ → α → Prop}

/-- The states that runs from a state reach, each step meeting a condition. -/
inductive Runs (step : σ → α → Option σ) (ok : σ → α → Prop) (s : σ) : σ → Prop
  /-- No step. -/
  | refl : Runs step ok s s
  /-- One more step. -/
  | tail {t u : σ} {a : α} : Runs step ok s t → ok t a → step t a = some u → Runs step ok s u

namespace Runs

/-- What holds at the start and is kept by every step holds at the end. -/
theorem invariant {P : σ → Prop} (hstep : ∀ {t u a}, P t → ok t a → step t a = some u → P u)
    {s t : σ} (hs : P s) (h : Runs step ok s t) : P t := by
  induction h with
  | refl => exact hs
  | tail _ hok hst ih => exact hstep ih hok hst

theorem trans {s t u : σ} (h : Runs step ok s t) (h' : Runs step ok t u) : Runs step ok s u := by
  induction h' with
  | refl => exact h
  | tail _ hok hst ih => exact ih.tail hok hst

theorem mono {ok' : σ → α → Prop} (hok : ∀ {t a}, ok t a → ok' t a) {s t : σ}
    (h : Runs step ok s t) : Runs step ok' s t := by
  induction h with
  | refl => exact .refl
  | tail _ hm hst ih => exact ih.tail (hok hm) hst

end Runs

/-- Chains of changes, each of which weighs something, and what they weigh together. -/
inductive Chain (change : Nat → σ → σ → Prop) : Nat → σ → σ → Prop
  /-- No change. -/
  | refl (s : σ) : Chain change 0 s s
  /-- One more change. -/
  | tail {n k : Nat} {s t u : σ} : Chain change n s t → change k t u → Chain change (n + k) s u

namespace Chain

variable {change : Nat → σ → σ → Prop} {n k : Nat} {s t u : σ}

theorem single (h : change n s t) : Chain change n s t := by
  simpa using (Chain.refl s).tail h

theorem trans (h : Chain change n s t) (h' : Chain change k t u) : Chain change (n + k) s u := by
  induction h' with
  | refl => exact h
  | tail _ hc ih =>
    rw [← Nat.add_assoc]
    exact (ih h).tail hc

/-- Weightless changes come first. -/
theorem before (h : Chain change 0 s t) (h' : Chain change n t u) : Chain change n s u := by
  simpa using h.trans h'

/-- Weightless changes follow. -/
theorem andThen (h : Chain change n s t) (h' : Chain change 0 t u) : Chain change n s u :=
  h.trans h'

/-- What every change keeps, a chain keeps. -/
theorem invariant {P : σ → Prop} (hc : ∀ {n s t}, P s → change n s t → P t) (hs : P s)
    (h : Chain change n s t) : P t := by
  induction h with
  | refl => exact hs
  | tail _ hl ih => exact hc (ih hs) hl

end Chain

/-- Take the actions of a list, as long as each meets a condition. -/
def exec (step : σ → α → Option σ) (ok : σ → α → Prop) [∀ s a, Decidable (ok s a)] (s : σ) :
    List α → Option σ
  | [] => some s
  | a :: as => if ok s a then (step s a).bind fun t => exec step ok t as else none

theorem exec_append [∀ s a, Decidable (ok s a)] (s : σ) (as bs : List α) :
    exec step ok s (as ++ bs) = (exec step ok s as).bind fun t => exec step ok t bs := by
  induction as generalizing s with
  | nil => rfl
  | cons a as ih =>
    simp only [List.cons_append, exec]
    split_ifs
    · rw [Option.bind_assoc]
      exact congrArg _ (funext fun t => ih t)
    · rfl

theorem runs_of_exec [∀ s a, Decidable (ok s a)] {s t : σ} {as : List α}
    (h : exec step ok s as = some t) : Runs step ok s t := by
  induction as generalizing s with
  | nil =>
    cases h
    exact .refl
  | cons a as ih =>
    rw [exec] at h
    split_ifs at h with hok
    cases hst : step s a with rw [hst] at h
    | none => cases h
    | some u => exact (Runs.refl.tail hok hst).trans (ih h)

/-- A run that is written out, and what is computed of its last state. -/
theorem exists_runs [∀ s a, Decidable (ok s a)] {s : σ} {P : σ → Prop} (as : List α)
    (h : ∃ t ∈ exec step ok s as, P t) : ∃ t, Runs step ok s t ∧ P t :=
  h.imp fun _ ht => ⟨runs_of_exec ht.1, ht.2⟩

end Transition
