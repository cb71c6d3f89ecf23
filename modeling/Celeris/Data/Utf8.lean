import Celeris.Data.PrefixCode

/-!
# UTF-8

The well-formed byte sequences of the Unicode standard, one table row for each
range of first bytes: a first byte fixes how many bytes follow it and in which range
each of them lies. They form a prefix code, and a string is UTF-8 when it is a text over it.

`scan` looks at the front of a string and says whether a well-formed sequence stands
there, whether one may still come, or neither. The functions of Go's package `unicode/utf8` are
read off it.
-/

open Computability

namespace Utf8

open List PrefixCode

def tail : UInt8 × UInt8 := (0x80, 0xBF)

/-- The ranges of the bytes that follow a first byte. -/
def following (c : UInt8) : Option (List (UInt8 × UInt8)) :=
  if c ≤ 0x7F then some []
  else if c < 0xC2 then none
  else if c ≤ 0xDF then some [tail]
  else if c = 0xE0 then some [(0xA0, 0xBF), tail]
  else if c = 0xED then some [(0x80, 0x9F), tail]
  else if c ≤ 0xEF then some [tail, tail]
  else if c = 0xF0 then some [(0x90, 0xBF), tail, tail]
  else if c ≤ 0xF3 then some [tail, tail, tail]
  else if c = 0xF4 then some [(0x80, 0x8F), tail, tail]
  else none

def Within (x : UInt8) (r : UInt8 × UInt8) : Prop := r.1 ≤ x ∧ x ≤ r.2

instance (x : UInt8) (r : UInt8 × UInt8) : Decidable (Within x r) :=
  inferInstanceAs (Decidable (_ ∧ _))

/-- The encoding of one character. -/
def WellFormed : List UInt8 → Prop
  | [] => False
  | c :: t => ∃ rs, following c = some rs ∧ List.Forall₂ Within t rs

variable {rs : List (UInt8 × UInt8)} {n : Nat} {b : List UInt8}

/-- No range of the table is empty, and no sequence is longer than four bytes. -/
theorem following_table {c : UInt8} (h : following c = some rs) :
    (∀ r ∈ rs, r.1 ≤ r.2) ∧ rs.length ≤ 3 := by
  have ht : ∀ n : Fin 256, (following (.ofFin n)).all fun rs =>
      rs.all (fun r => r.1 ≤ r.2) && rs.length ≤ 3 := by decide +kernel
  have hc : (following c).all fun rs => rs.all (fun r => r.1 ≤ r.2) && rs.length ≤ 3 := ht c.toFin
  simpa [h] using hc

theorem WellFormed.eq_of_prefixes {w v : List UInt8} (hw : WellFormed w) (hv : WellFormed v)
    (h : w <+: v) : w = v := by
  cases w with
  | nil => exact hw.elim
  | cons c t =>
    obtain ⟨t', rfl⟩ := h
    obtain ⟨rs, hrs, ht⟩ := hw
    obtain ⟨rs', hrs', hv⟩ := hv
    cases hrs.symm.trans hrs'
    -- the first byte fixes the length
    have hl : t.length = (t ++ t').length := ht.length_eq.trans hv.length_eq.symm
    rw [length_append] at hl
    have hn : t' = [] := length_eq_zero_iff.mp (by omega)
    rw [hn, append_nil]

/-- The prefix code of the characters. -/
def code : PrefixCode UInt8 where
  words := {w : List UInt8 | WellFormed w}
  prefixFree := WellFormed.eq_of_prefixes
  nil_notMem := id
  nonempty := ⟨[0], [], rfl, .nil⟩

/-! ## Looking at the front of a string -/

/-- What stands at the front of a string. -/
inductive Scan
  /-- The encoding of a character, in so many bytes. -/
  | rune (size : Nat)
  /-- The beginning of one. -/
  | short
  /-- Neither. -/
  | bad
  deriving DecidableEq

def Scan.succ : Scan → Scan
  | .rune n => .rune (n + 1)
  | .short => .short
  | .bad => .bad

/-- Compare bytes with the ranges that they have to lie in. -/
def follow : List (UInt8 × UInt8) → List UInt8 → Scan
  | [], _ => .rune 0
  | _ :: _, [] => .short
  | r :: rs, x :: b => if Within x r then (follow rs b).succ else .bad

/-- Look at the front of a string. -/
def scan : List UInt8 → Scan
  | [] => .short
  | c :: b =>
    match following c with
    | some rs => (follow rs b).succ
    | none => .bad

@[simp] theorem Scan.succ_eq_rune {s : Scan} : s.succ = .rune n ↔ ∃ m, s = .rune m ∧ n = m + 1 := by
  cases s <;> simp [Scan.succ, eq_comm]

@[simp] theorem Scan.succ_eq_short {s : Scan} : s.succ = .short ↔ s = .short := by
  cases s <;> simp [Scan.succ]

theorem follow_eq_rune :
    follow rs b = .rune n ↔ n = rs.length ∧ List.Forall₂ Within (b.take n) rs := by
  induction rs generalizing b n with
  | nil => cases n <;> simp [follow]
  | cons r rs ih =>
    cases b with
    | nil => simp [follow]
    | cons x b =>
      by_cases hx : Within x r
      · simp only [follow, if_pos hx, Scan.succ_eq_rune, ih]
        constructor
        · rintro ⟨m, ⟨rfl, ht⟩, rfl⟩
          exact ⟨rfl, .cons hx ht⟩
        · rintro ⟨rfl, ht⟩
          exact ⟨_, ⟨rfl, (forall₂_cons.mp ht).2⟩, rfl⟩
      · simp +contextual [follow, hx]

theorem follow_eq_short :
    follow rs b = .short ↔ b.length < rs.length ∧ List.Forall₂ Within b (rs.take b.length) := by
  induction rs generalizing b with
  | nil => simp [follow]
  | cons r rs ih =>
    cases b with
    | nil => simp [follow]
    | cons x b => by_cases hx : Within x r <;> simp [follow, hx, ih]

/-- A character is found exactly where one stands. -/
theorem scan_eq_rune : scan b = .rune n ↔ ∃ w rest, w ∈ code.words ∧ b = w ++ rest ∧
    w.length = n := by
  cases b with
  | nil =>
    refine iff_of_false (fun h => by cases h) ?_
    rintro ⟨w, rest, hw, hb, -⟩
    obtain ⟨rfl, -⟩ := append_eq_nil_iff.mp hb.symm
    exact hw
  | cons c b =>
    cases hrs : following c with
    | none =>
      simp only [scan, hrs]
      refine iff_of_false (fun h => by cases h) ?_
      rintro ⟨w, rest, hw, hb, -⟩
      cases w with
      | nil => exact hw
      | cons d t =>
        obtain ⟨rfl, -⟩ := cons.inj hb
        obtain ⟨rs, hrs', -⟩ := hw
        cases hrs.symm.trans hrs'
    | some rs =>
      simp only [scan, hrs, Scan.succ_eq_rune, follow_eq_rune]
      constructor
      · rintro ⟨m, ⟨rfl, ht⟩, rfl⟩
        refine ⟨c :: b.take rs.length, b.drop rs.length, ⟨rs, hrs, ht⟩, ?_, congrArg _ ht.length_eq⟩
        rw [cons_append, take_append_drop]
      · rintro ⟨w, rest, hw, hb, rfl⟩
        cases w with
        | nil => exact hw.elim
        | cons d t =>
          obtain ⟨rfl, rfl⟩ := cons.inj hb
          obtain ⟨rs', hrs', ht⟩ := hw
          cases hrs.symm.trans hrs'
          exact ⟨t.length, ⟨ht.length_eq, take_left.symm ▸ ht⟩, rfl⟩

/-- The lowest bytes of ranges that are not empty lie in them. -/
theorem forall₂_within_fst (h : ∀ r ∈ rs, r.1 ≤ r.2) :
    List.Forall₂ Within (rs.map Prod.fst) rs := by
  induction rs with
  | nil => exact .nil
  | cons r rs ih =>
    obtain ⟨hr, hrs⟩ := forall_mem_cons.mp h
    exact .cons ⟨UInt8.le_refl r.1, hr⟩ (ih hrs)

/-- More is waited for exactly where a character has begun. -/
theorem scan_eq_short : scan b = .short ↔ code.Begins b := by
  cases b with
  | nil => exact iff_of_true rfl begins_nil
  | cons c b =>
    cases hrs : following c with
    | none =>
      simp only [scan, hrs]
      refine iff_of_false (fun h => by cases h) ?_
      rintro ⟨w, hw, ⟨t, rfl⟩, -⟩
      obtain ⟨rs, hrs', -⟩ := hw
      cases hrs.symm.trans hrs'
    | some rs =>
      simp only [scan, hrs, Scan.succ_eq_short, follow_eq_short]
      constructor
      · rintro ⟨hl, hb⟩
        have hw : List.Forall₂ Within (b ++ _) (rs.take b.length ++ rs.drop b.length) :=
          rel_append hb (forall₂_within_fst fun r hr => (following_table hrs).1 r
            (mem_of_mem_drop hr))
        rw [take_append_drop] at hw
        refine ⟨c :: b ++ _, ⟨_, hrs, hw⟩, prefix_append .., fun h => ?_⟩
        have := congrArg List.length h
        simp at this
        omega
      · rintro ⟨w, hw, ⟨t, rfl⟩, hne⟩
        obtain ⟨rs', hrs', ht⟩ := hw
        cases hrs.symm.trans hrs'
        change List.Forall₂ Within (b ++ t) rs at ht
        have hl := ht.length_eq
        have ht' : t ≠ [] := by
          rintro rfl
          exact hne (append_nil _).symm
        have hb := forall₂_take b.length ht
        rw [take_left] at hb
        rw [length_append] at hl
        exact ⟨by have := length_pos_iff.mpr ht'; omega, hb⟩

/-- Where neither stands, the string splits in no way. -/
theorem not_splits_of_bad {p : List UInt8} (h : scan b = .bad) : ¬ code.Splits b p := by
  apply not_splits
  · rintro w hw ⟨rest, rfl⟩
    have hr := scan_eq_rune.mpr ⟨w, rest, hw, rfl, rfl⟩
    rw [h] at hr
    cases hr
  · intro hb
    rw [scan_eq_short.mpr hb] at h
    cases h

theorem length_lt_of_begins (h : code.Begins b) : b.length < 4 := by
  obtain ⟨w, hw, hb, hne⟩ := h
  have hlt : b.length < w.length := lt_of_le_of_ne hb.length_le fun h => hne (hb.eq_of_length h)
  cases w with
  | nil => exact hw.elim
  | cons c t =>
    obtain ⟨rs, hrs, ht⟩ := hw
    have hle := (following_table hrs).2
    rw [← ht.length_eq] at hle
    rw [length_cons] at hlt
    omega

/-! ## The package `unicode/utf8` -/

/-- Go's `utf8.FullRune`: bytes that cannot become a character count as a full one. -/
def fullRune (b : List UInt8) : Bool := decide (scan b ≠ .short)

/-- Go's `utf8.DecodeRune`, as far as the size: none stands for `RuneError` of size one. -/
def decodeRune (b : List UInt8) : Option Nat :=
  match scan b with
  | .rune n => some n
  | .short | .bad => none

/-- The loop of `valid`, which takes at most so many characters. -/
def validLoop : Nat → List UInt8 → Bool
  | _, [] => true
  | 0, _ :: _ => false
  | fuel + 1, c :: b =>
    match decodeRune (c :: b) with
    | some n => validLoop fuel ((c :: b).drop n)
    | none => false

/-- Go's `utf8.Valid`. -/
def valid (b : List UInt8) : Bool := validLoop b.length b

/-- A character decoded from the front leaves less. -/
theorem decodeRune_eq_some (h : decodeRune b = some n) :
    ∃ w ∈ code.words, b = w ++ b.drop n ∧ (b.drop n).length < b.length := by
  have hs : scan b = .rune n := by
    unfold decodeRune at h
    cases hs : scan b with
    | rune m =>
      rw [hs] at h
      exact congrArg _ (Option.some.inj h)
    | short | bad =>
      rw [hs] at h
      cases h
  obtain ⟨w, rest, hw, rfl, rfl⟩ := scan_eq_rune.mp hs
  have hp : 0 < w.length := length_pos_iff.mpr fun h => code.nil_notMem (h ▸ hw)
  rw [drop_left, length_append]
  exact ⟨w, hw, rfl, by omega⟩

theorem decodeRune_eq_none (hf : fullRune b = true) (h : decodeRune b = none) : scan b = .bad := by
  unfold decodeRune at h
  cases hs : scan b with
  | rune n =>
    rw [hs] at h
    cases h
  | short =>
    rw [fullRune, hs] at hf
    cases hf
  | bad => rfl

theorem fullRune_eq_false : fullRune b = false ↔ code.Begins b := by
  rw [fullRune, decide_eq_false_iff_not, not_not, scan_eq_short]

theorem validLoop_iff {fuel : Nat} (h : b.length ≤ fuel) :
    validLoop fuel b = true ↔ code.Splits b [] := by
  induction fuel generalizing b with
  | zero =>
    obtain rfl := length_eq_zero_iff.mp (Nat.le_zero.mp h)
    exact iff_of_true rfl (splits_nil.mpr rfl)
  | succ fuel ih =>
    cases b with
    | nil => exact iff_of_true rfl (splits_nil.mpr rfl)
    | cons c b =>
      cases hn : decodeRune (c :: b) with
      | some n =>
        obtain ⟨w, hw, heq, hlt⟩ := decodeRune_eq_some hn
        simp only [validLoop, hn]
        rw [ih (by omega)]
        conv_rhs => rw [heq]
        exact (splits_word hw).symm
      | none =>
        simp only [validLoop, hn]
        refine iff_of_false nofun ?_
        cases hf : fullRune (c :: b) with
        | true => exact not_splits_of_bad (decodeRune_eq_none hf hn)
        | false =>
          intro hs
          cases (splits_of_begins (fullRune_eq_false.mp hf)).mp hs

/-- `valid` decides whether a string is UTF-8. -/
theorem valid_iff : valid b = true ↔ b ∈ code.words∗ :=
  (validLoop_iff le_rfl).trans splits_nil_iff

theorem valid_eq_false_iff : valid b = false ↔ b ∉ code.words∗ := by
  rw [← valid_iff, Bool.not_eq_true]

end Utf8
