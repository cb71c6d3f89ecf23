import Mathlib.Data.List.TakeWhile

/-!
# Lists with separators

Lists put together with a separator can be taken apart again as long as the separator does not
occur in them.
-/

namespace Separator

open List

universe u

variable {α : Type u} {sep : α} {a b x y : List α}

/-- A list that is empty or begins with the separator. -/
def Begins (sep : α) (x : List α) : Prop := ∀ c ∈ x.head?, c = sep

theorem begins_nil (sep : α) : Begins sep [] := nofun

theorem begins_cons (sep : α) (x : List α) : Begins sep (sep :: x) := by
  rintro c ⟨⟩
  rfl

/-- What comes before the first separator is known. -/
theorem append_inj [DecidableEq α] (ha : sep ∉ a) (hb : sep ∉ b) (hx : Begins sep x)
    (hy : Begins sep y) (h : a ++ x = b ++ y) : a = b ∧ x = y := by
  have ht {c z : List α} (hc : sep ∉ c) (hz : Begins sep z) : (c ++ z).takeWhile (· ≠ sep) = c := by
    have hk : ∀ d ∈ c, decide (d ≠ sep) = true := by
      intro d hd
      exact decide_eq_true (ne_of_mem_of_not_mem hd hc)
    rw [takeWhile_append_of_pos hk]
    cases z with
    | nil => exact append_nil c
    | cons d z =>
      rw [takeWhile_cons_of_neg (by simp [hz d rfl]), append_nil]
  have heq : a = b := by rw [← ht ha hx, h, ht hb hy]
  subst heq
  exact ⟨rfl, append_cancel_left h⟩

/-- The parts that a list is split into are free of the separator. -/
theorem notMem_of_mem_splitOn [BEq α] [LawfulBEq α] {xs : List α} (h : a ∈ xs.splitOn sep) :
    sep ∉ a := by
  induction xs generalizing a with
  | nil =>
    rw [splitOn, splitOnP_nil, mem_singleton] at h
    subst h
    exact not_mem_nil
  | cons c xs ih =>
    rw [splitOn, splitOnP_cons_eq_if_modifyHead] at h
    obtain ⟨part, parts, hpa⟩ := exists_cons_of_ne_nil (splitOn_ne_nil sep xs)
    rw [splitOn] at hpa
    rw [hpa] at h
    have ha (p : List α) (hp : p ∈ part :: parts) : sep ∉ p := ih (by rwa [splitOn, hpa])
    split_ifs at h with hc
    · obtain rfl | h := mem_cons.mp h
      · exact not_mem_nil
      · exact ha a h
    · obtain rfl | h := mem_cons.mp h
      · rw [mem_cons, not_or]
        exact ⟨fun e => hc (by rw [e]; exact beq_self_eq_true c), ha part mem_cons_self⟩
      · exact ha a (mem_cons_of_mem _ h)

/-- Other values than the separator are in what is joined. -/
theorem mem_intercalate_iff {c : α} (hc : c ≠ sep) {as : List (List α)} :
    c ∈ [sep].intercalate as ↔ ∃ a ∈ as, c ∈ a := by
  induction as with
  | nil => simp [intercalate]
  | cons a as ih =>
    cases as with
    | nil => simp [intercalate]
    | cons b bs =>
      rw [intercalate_cons_cons, mem_append, mem_append, mem_singleton, ih]
      simp [hc]

end Separator
