import Mathlib.Computability.Language

/-!
# Texts over a prefix code

A prefix code is a set of words of which none begins another. Its texts are the
concatenations of words, the Kleene star of the set. A string that has arrived in part is
a text followed by the beginning of one more word (`Splits`), or no text begins with it. Since no
word begins another, such a beginning is determined by the string, and what follows
a text can be read without looking back at it.
-/

open Computability

universe u

/-- Words of which none begins another. -/
structure PrefixCode (α : Type u) where
  words : Language α
  prefixFree : ∀ {w v : List α}, w ∈ words → v ∈ words → w <+: v → w = v
  nil_notMem : [] ∉ words
  nonempty : ∃ w, w ∈ words

namespace PrefixCode

open List Language

variable {α : Type u} (C : PrefixCode α) {b c p q v w : List α}

/-- The string begins a word and is not the whole of it. -/
def Begins (p : List α) : Prop := ∃ w ∈ C.words, p <+: w ∧ p ≠ w

/-- The string is a text and, after it, the beginning `p` of a word. -/
def Splits (b p : List α) : Prop := ∃ v ∈ C.words∗, b = v ++ p ∧ C.Begins p

variable {C}

theorem begins_nil : C.Begins [] := by
  obtain ⟨w, hw⟩ := C.nonempty
  exact ⟨w, hw, nil_prefix, fun h => C.nil_notMem (h ▸ hw)⟩

/-- No word begins the beginning of a word. -/
theorem Begins.not_word_append (hw : w ∈ C.words) (h : C.Begins (w ++ b)) : False := by
  obtain ⟨w', hw', hp, hne⟩ := h
  have heq : w = w' := C.prefixFree hw hw' ((prefix_append w b).trans hp)
  subst heq
  exact hne (hp.eq_of_length_le (by rw [length_append]; exact Nat.le_add_right ..))

/-- Two words that begin the same string are the same. -/
theorem word_append_inj (hw : w ∈ C.words) (hv : v ∈ C.words) (h : w ++ b = v ++ c) :
    w = v ∧ b = c := by
  have heq : w = v := by
    rcases prefix_or_prefix_of_prefix (prefix_append w b) (h ▸ prefix_append v c) with hp | hp
    · exact C.prefixFree hw hv hp
    · exact (C.prefixFree hv hw hp).symm
  subst heq
  exact ⟨rfl, append_cancel_left h⟩

/-- A text is empty, or a word and a text. -/
theorem mem_kstar_cases (h : b ∈ C.words∗) :
    b = [] ∨ ∃ w ∈ C.words, ∃ v ∈ C.words∗, b = w ++ v := by
  rw [← one_add_self_mul_kstar_eq_kstar, mem_add] at h
  rcases h with h | h
  · exact .inl ((mem_one b).mp h)
  · obtain ⟨w, hw, v, hv, rfl⟩ := mem_mul.mp h
    exact .inr ⟨w, hw, v, hv, rfl⟩

theorem append_mem_kstar (hw : w ∈ C.words) (hv : v ∈ C.words∗) : w ++ v ∈ C.words∗ := by
  obtain ⟨L, rfl, hL⟩ := mem_kstar.mp hv
  exact mem_kstar.mpr ⟨w :: L, rfl, forall_mem_cons.mpr ⟨hw, hL⟩⟩

theorem kstar_append (hv : v ∈ C.words∗) (hb : b ∈ C.words∗) : v ++ b ∈ C.words∗ := by
  obtain ⟨L, rfl, hL⟩ := mem_kstar.mp hv
  obtain ⟨M, rfl, hM⟩ := mem_kstar.mp hb
  exact mem_kstar.mpr ⟨L ++ M, flatten_append.symm, forall_mem_append.mpr ⟨hL, hM⟩⟩

/-! ## Splitting -/

/-- The beginning of a word is all that is left of itself. -/
theorem splits_of_begins (h : C.Begins b) : C.Splits b p ↔ p = b := by
  constructor
  · rintro ⟨v, hv, rfl, -⟩
    rcases mem_kstar_cases hv with rfl | ⟨w, hw, v, -, rfl⟩
    · rfl
    · rw [append_assoc] at h
      exact (h.not_word_append hw).elim
  · rintro rfl
    exact ⟨[], nil_mem_kstar _, rfl, h⟩

theorem splits_nil : C.Splits [] p ↔ p = [] := splits_of_begins begins_nil

/-- A word in front changes nothing. -/
theorem splits_word (hw : w ∈ C.words) : C.Splits (w ++ b) p ↔ C.Splits b p := by
  constructor
  · rintro ⟨v, hv, heq, hp⟩
    rcases mem_kstar_cases hv with rfl | ⟨w', hw', v, hv', rfl⟩
    · rw [nil_append] at heq
      exact ((heq ▸ hp).not_word_append hw).elim
    · rw [append_assoc] at heq
      exact ⟨v, hv', (word_append_inj hw hw' heq).2, hp⟩
  · rintro ⟨v, hv, rfl, hp⟩
    exact ⟨w ++ v, append_mem_kstar hw hv, (append_assoc ..).symm, hp⟩

/-- A text in front changes nothing. -/
theorem splits_text (hv : v ∈ C.words∗) : C.Splits (v ++ b) p ↔ C.Splits b p := by
  obtain ⟨L, rfl, hL⟩ := mem_kstar.mp hv
  clear hv
  induction L with
  | nil => rfl
  | cons w L ih =>
    obtain ⟨hw, hL⟩ := forall_mem_cons.mp hL
    rw [flatten_cons, append_assoc, splits_word hw]
    exact ih hL

/-- A string that no word begins and that begins no word is a dead end. -/
theorem not_splits (hb : ∀ w ∈ C.words, ¬ w <+: b) (h : ¬ C.Begins b) : ¬ C.Splits b p := by
  rintro ⟨v, hv, rfl, hp⟩
  rcases mem_kstar_cases hv with rfl | ⟨w, hw, v, -, rfl⟩
  · exact h hp
  · exact hb w hw (by rw [append_assoc]; exact prefix_append ..)

namespace Splits

/-- What comes after the string is read together with what is left of it. -/
theorem append_iff (h : C.Splits b p) : C.Splits (b ++ c) q ↔ C.Splits (p ++ c) q := by
  obtain ⟨v, hv, rfl, -⟩ := h
  rw [append_assoc, splits_text hv]

/-- The string is a text when nothing is left of it. -/
theorem mem_kstar_iff (h : C.Splits b p) : b ∈ C.words∗ ↔ p = [] := by
  constructor
  · intro hb
    have h' : C.Splits (b ++ []) p := by rwa [append_nil]
    exact splits_nil.mp ((splits_text hb).mp h')
  · rintro rfl
    obtain ⟨v, hv, rfl, -⟩ := h
    rwa [append_nil]

end Splits

theorem splits_nil_iff : C.Splits b [] ↔ b ∈ C.words∗ := by
  constructor
  · intro h
    exact h.mem_kstar_iff.mpr rfl
  · intro h
    exact ⟨b, h, (append_nil b).symm, begins_nil⟩

/-- Some text begins with the string exactly when it splits. -/
theorem exists_append_mem_kstar_iff : (∃ c, b ++ c ∈ C.words∗) ↔ ∃ p, C.Splits b p := by
  constructor
  · rintro ⟨c, hc⟩
    obtain ⟨L, hL, hwo⟩ := mem_kstar.mp hc
    clear hc
    induction L generalizing b with
    | nil =>
      obtain ⟨rfl, -⟩ := append_eq_nil_iff.mp hL
      exact ⟨[], splits_nil.mpr rfl⟩
    | cons w L ih =>
      obtain ⟨hw, hwo⟩ := forall_mem_cons.mp hwo
      -- the first word lies inside the string, or reaches to its end or beyond
      rcases append_eq_append_iff.mp hL with ⟨t, rfl, -⟩ | ⟨t, rfl, ht⟩
      · rcases eq_nil_or_concat t with rfl | ⟨t, x, rfl⟩
        · rw [append_nil] at hw
          exact ⟨[], splits_nil_iff.mpr (by simpa using append_mem_kstar hw (nil_mem_kstar _))⟩
        · exact ⟨b, (splits_of_begins ⟨_, hw, prefix_append .., by simp⟩).mpr rfl⟩
      · obtain ⟨p, hp⟩ := ih ht.symm hwo
        exact ⟨p, (splits_word hw).mpr hp⟩
  · rintro ⟨p, v, hv, rfl, w, hw, ⟨t, rfl⟩, -⟩
    refine ⟨t, ?_⟩
    rw [append_assoc]
    exact kstar_append hv (by simpa using append_mem_kstar hw (nil_mem_kstar _))

end PrefixCode
