import Mathlib.Algebra.Order.BigOperators.Group.List
import Mathlib.Algebra.Order.Ring.Int
import Mathlib.Algebra.Ring.Int.Defs
import Mathlib.Algebra.Ring.Nat

/-!
# Sums over processes

A system with any number of processes keeps them in a list, and a step replaces one
of them. What the processes hold together changes by what that one held before and
holds after.
-/

namespace Counting

open List

universe u

variable {α : Type u}

def total (f : α → Int) (l : List α) : Int := (l.map f).sum

@[simp] theorem total_nil (f : α → Int) : total f [] = 0 := rfl

@[simp] theorem total_cons (f : α → Int) (a : α) (l : List α) :
    total f (a :: l) = f a + total f l := by
  simp [total]

@[simp] theorem total_append (f : α → Int) (l l' : List α) :
    total f (l ++ l') = total f l + total f l' := by
  simp [total]

theorem total_neg (f : α → Int) (l : List α) : total (fun a => -f a) l = -total f l := by
  induction l with
  | nil => rfl
  | cons a l ih => rw [total_cons, total_cons, ih, Int.neg_add]

variable {f : α → Int} {l : List α} {k : Nat} {a : α}

/-- One process is replaced. -/
theorem total_set (h : l[k]? = some a) (b : α) : total f (l.set k b) = total f l - f a + f b := by
  obtain ⟨hk, rfl⟩ := List.getElem?_eq_some_iff.mp h
  rw [total, map_set, sum_set', dif_pos (by simpa using hk), getElem_map, total]
  omega

theorem total_nonneg (h : ∀ a ∈ l, 0 ≤ f a) : 0 ≤ total f l := sum_nonneg (forall_mem_map.mpr h)

theorem total_eq_zero (h : ∀ a ∈ l, f a = 0) : total f l = 0 := sum_eq_zero (forall_mem_map.mpr h)

theorem total_le_total {g : α → Int} (h : ∀ a ∈ l, f a ≤ g a) : total f l ≤ total g l :=
  sum_le_sum h

theorem le_total (h : ∀ a ∈ l, 0 ≤ f a) (ha : a ∈ l) : f a ≤ total f l :=
  single_le_sum (forall_mem_map.mpr h) _ (mem_map_of_mem ha)

theorem total_one (l : List α) : total (fun _ => 1) l = l.length := by simp [total]

theorem total_le_length (h : ∀ a ∈ l, f a ≤ 1) : total f l ≤ l.length :=
  (total_le_total h).trans_eq (total_one l)

/-- Some process holds something when together they hold something. -/
theorem exists_pos_of_total_pos (h : 0 < total f l) :
    ∃ (k : Nat) (a : α), l[k]? = some a ∧ 0 < f a := by
  induction l with
  | nil => exact absurd h (Int.lt_irrefl 0)
  | cons a l ih =>
    by_cases ha : 0 < f a
    · exact ⟨0, a, rfl, ha⟩
    · rw [total_cons] at h
      obtain ⟨k, b, hk, hb⟩ := ih (by omega)
      exact ⟨k + 1, b, hk, hb⟩

/-- Counting the occurrences of one. -/
theorem total_ite_eq [DecidableEq α] (a : α) (l : List α) :
    total (fun b => if b = a then 1 else 0) l = l.count a := by
  induction l with
  | nil => rfl
  | cons b l ih =>
    rw [total_cons, ih, count_cons]
    by_cases hab : b = a <;> simp [hab, Int.add_comm]

/-- What every process satisfies, every process satisfies when one is replaced by
another that does. -/
theorem forall_mem_set {P : α → Prop} {b : α} (h : ∀ a ∈ l, P a) (hb : P b) :
    ∀ a ∈ l.set k b, P a := by
  intro a ha
  rcases mem_or_eq_of_mem_set ha with ha | rfl
  · exact h a ha
  · exact hb

theorem mem_set_of_ne {b c : α} (h : l[k]? = some a) (hc : c ∈ l) (hne : c ≠ a) :
    c ∈ l.set k b := by
  obtain ⟨j, hj, rfl⟩ := getElem_of_mem hc
  have hkj : k ≠ j := by
    rintro rfl
    rw [getElem?_eq_getElem hj] at h
    exact hne (Option.some.inj h)
  exact mem_iff_getElem.mpr ⟨j, by simpa using hj, getElem_set_of_ne hkj _ _⟩

theorem mem_set_of_some (h : l[k]? = some a) (b : α) : b ∈ l.set k b := by
  obtain ⟨hk, -⟩ := List.getElem?_eq_some_iff.mp h
  exact mem_set hk b

theorem getElem?_set_of_some (h : l[k]? = some a) (b : α) : (l.set k b)[k]? = some b := by
  obtain ⟨hk, -⟩ := List.getElem?_eq_some_iff.mp h
  exact getElem?_set_self hk

end Counting
