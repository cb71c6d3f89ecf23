import Mathlib.Logic.Relation
import Mathlib.Data.List.Basic

/-!
# Incremental machines

A machine that is fed a stream piece by piece: between two pieces it makes every
step it can, and then waits for more. `Stable` says that a step it can make now it
can also make with more of the stream at hand, and comes to the same. Then the
pieces do not matter (`Machine.run_eq`): the machine ends where it ends when it gets
the whole stream at once.

A machine need not be stable everywhere. `clean` says where it is, and the
theorem asks for it at the places where the stream is cut.
-/

namespace Incremental

open List

universe u v

/-- A machine over states `σ` that reads a stream of `α`. A step makes the state
smaller, so the machine stops. -/
structure Machine (α : Type u) (σ : Type v) where
  step : σ → Option σ
  feed : σ → List α → σ
  size : σ → Nat
  feed_nil (s : σ) : feed s [] = s
  feed_feed (s : σ) (a b : List α) : feed (feed s a) b = feed s (a ++ b)
  step_lt {s t : σ} : step s = some t → size t < size s

namespace Machine

variable {α : Type u} {σ : Type v} (M : Machine α σ)

/-- Make every step there is. -/
def settle (s : σ) : σ :=
  match _h : M.step s with
  | none => s
  | some t => settle t
termination_by M.size s
decreasing_by exact M.step_lt _h

/-- Some steps lead from a state to another. -/
abbrev Steps : σ → σ → Prop := Relation.ReflTransGen fun s t => M.step s = some t

variable {M}

variable {s : σ} {pieces : List (List α)}

theorem settle_of_none (h : M.step s = none) : M.settle s = s := by
  rw [settle]
  split
  · rfl
  · rename_i t ht
    rw [h] at ht
    cases ht

variable {t : σ} {clean : List α → Prop} {d : List α}

theorem settle_of_some (h : M.step s = some t) : M.settle s = M.settle t := by
  rw [settle]
  split
  · rename_i ht
    rw [h] at ht
    cases ht
  · rename_i t' ht
    rw [h] at ht
    cases ht
    rfl

/-- The states on the way to a settled state settle there. -/
theorem Steps.settle_eq (h : M.Steps s t) : M.settle s = M.settle t := by
  induction h with
  | refl => rfl
  | tail _ hs ih => rw [ih, settle_of_some hs]

theorem Steps.size_le (h : M.Steps s t) : M.size t ≤ M.size s := by
  induction h with
  | refl => exact Nat.le_refl _
  | tail _ hs ih => exact Nat.le_trans (Nat.le_of_lt (M.step_lt hs)) ih

theorem steps_settle (s : σ) : M.Steps s (M.settle s) ∧ M.step (M.settle s) = none := by
  induction hn : M.size s using Nat.strongRecOn generalizing s with
  | ind n ih =>
    cases hs : M.step s with
    | none =>
      rw [settle_of_none hs]
      exact ⟨.refl, hs⟩
    | some t =>
      rw [settle_of_some hs]
      obtain ⟨hst, hnone⟩ := ih _ (hn ▸ M.step_lt hs) t rfl
      exact ⟨.head hs hst, hnone⟩

/-! ## Stable machines -/

/-- In a clean state, a step can be made before more of the stream arrives or
after. -/
structure Stable (M : Machine α σ) (clean : σ → Prop) : Prop where
  step_feed {s t : σ} : clean s → M.step s = some t → ∀ d, M.step (M.feed s d) = some (M.feed t d)
  clean_step {s t : σ} : clean s → M.step s = some t → clean t

namespace Stable

variable {clean : σ → Prop} (hM : M.Stable clean)

include hM

theorem clean_steps (hs : clean s) (h : M.Steps s t) : clean t := by
  induction h with
  | refl => exact hs
  | tail _ hstep ih => exact hM.clean_step ih hstep

theorem steps_feed (hs : clean s) (h : M.Steps s t) (d : List α) :
    M.Steps (M.feed s d) (M.feed t d) := by
  induction h with
  | refl => exact .refl
  | tail hst hstep ih => exact ih.tail (hM.step_feed (hM.clean_steps hs hst) hstep d)

end Stable

/-! ## Streams in pieces -/

/-- Feed a machine piece by piece, and let it settle behind each. -/
def run (M : Machine α σ) (s : σ) (pieces : List (List α)) : σ :=
  pieces.foldl (fun s d => M.settle (M.feed s d)) s

/-- The cuts between the pieces of a stream are clean, as far as there is something
behind them. -/
def CleanCuts (clean : List α → Prop) (pieces : List (List α)) : Prop :=
  ∀ A, A <+: pieces → A.flatten ≠ pieces.flatten → clean A.flatten

theorem CleanCuts.head
    (h : CleanCuts clean (d :: pieces)) (hne : pieces.flatten ≠ []) : clean d := by
  have := h [d] (by simp)
  simp only [flatten_cons, flatten_nil, append_nil] at this
  exact this fun he => hne (self_eq_append_right.mp he)

theorem CleanCuts.tail
    (h : CleanCuts clean (d :: pieces)) : CleanCuts (fun A => clean (d ++ A)) pieces := by
  intro A hA hne
  refine h (d :: A) (by simpa using hA) ?_
  simpa using hne

/-- A stable machine that waits ends in the same state however its stream is cut. -/
theorem run_eq {clean : σ → Prop} (hM : M.Stable clean)
    (hs : M.step s = none) (hcuts : CleanCuts (fun A => clean (M.feed s A)) pieces) :
    M.run s pieces = M.settle (M.feed s pieces.flatten) := by
  induction pieces generalizing s with
  | nil => exact (by rw [flatten_nil, M.feed_nil, settle_of_none hs]; rfl)
  | cons d pieces ih =>
    have hr : M.run s (d :: pieces) = M.run (M.settle (M.feed s d)) pieces := rfl
    have hcut (hne : pieces.flatten ≠ []) : clean (M.feed s d) := hcuts.head hne
    -- Cuts behind the first piece are clean in the settled state as well.
    have ht : CleanCuts (fun A => clean (M.feed (M.settle (M.feed s d)) A)) pieces := by
      intro A hA hne
      have hc := hcuts.tail A hA hne
      have hp : pieces.flatten ≠ [] := by
        intro he
        obtain ⟨B, rfl⟩ := hA
        rw [flatten_append, append_eq_nil_iff] at he
        exact hne (by rw [flatten_append, he.1, he.2]; rfl)
      simp only [← M.feed_feed] at hc
      exact hM.clean_steps hc (hM.steps_feed (hcut hp) (steps_settle _).1 A.flatten)
    rw [hr, ih (steps_settle _).2 ht, flatten_cons, ← M.feed_feed]
    by_cases hne : pieces.flatten = []
    · rw [hne, M.feed_nil, M.feed_nil, settle_of_none (steps_settle _).2]
    · exact (hM.steps_feed (hcut hne) (steps_settle _).1 _).settle_eq.symm

end Machine

end Incremental
