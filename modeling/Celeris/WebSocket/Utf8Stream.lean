import Celeris.Data.Bytes
import Celeris.Data.Utf8

/-!
# The incremental UTF-8 validator

`utf8Stream` is fed a text in pieces. Between two pieces it keeps the bytes of a
character that has begun and not ended, and the last piece may leave none. Feeding a text in
pieces and feeding it at once come to the same (`feed_append`), and a piece is refused exactly when
nothing that may still follow makes the whole UTF-8 (`feed_eq_none_iff`).
-/

open Computability

namespace Celeris.WebSocket

open PrefixCode Utf8 Option List

/-- The loop of `feed`, which looks at most at so many bytes or characters. -/
def feedLoop (final : Bool) : Nat → Bytes → Option Bytes
  | _, [] => some []
  | 0, _ :: _ => none
  | fuel + 1, c :: data =>
    if c < 0x80 then feedLoop final fuel data
    else if fullRune (c :: data) = false then
      if final then none
      else if (c :: data).length > 4 then none
      else some (c :: data)
    else
      match decodeRune (c :: data) with
      | none => none
      | some size => feedLoop final fuel ((c :: data).drop size)

/-- Feed a piece after the pending bytes; the result is what is pending then, or none if
the piece is refused. -/
def feed (pending data : Bytes) (final : Bool) : Option Bytes :=
  feedLoop final (pending.length + data.length) (pending ++ data)

/-- However the text goes on, and it does not when the bytes are the whole of it, it is not
UTF-8. -/
def Hopeless (b : Bytes) (whole : Bool) : Prop :=
  ∀ more, (whole = true → more = []) → b ++ more ∉ code.words∗

theorem ascii_mem_words {c : UInt8} (h : c < 0x80) : [c] ∈ code.words := by
  have hle : c ≤ 0x7F := UInt8.le_iff_toNat_le.mpr (Nat.le_of_lt_succ (UInt8.lt_iff_toNat_lt.mp h))
  exact ⟨[], by rw [following, if_pos hle], .nil⟩

variable {final : Bool} {p : Bytes}

theorem feedLoop_nil {fuel : Nat} :
    feedLoop final fuel [] = some p ↔ code.Splits [] p ∧ (final = true → p = []) := by
  rw [feedLoop, splits_nil, some.injEq, eq_comm]
  exact (and_iff_left_of_imp fun h _ => h).symm

theorem feedLoop_eq_some_iff {fuel : Nat} {b : Bytes} (h : b.length ≤ fuel) :
    feedLoop final fuel b = some p ↔ code.Splits b p ∧ (final = true → p = []) := by
  induction fuel generalizing b with
  | zero =>
    obtain rfl := length_eq_zero_iff.mp (Nat.le_zero.mp h)
    exact feedLoop_nil
  | succ fuel ih =>
    cases b with
    | nil => exact feedLoop_nil
    | cons c data =>
      rw [feedLoop]
      split
      · rename_i ha
        rw [ih (Nat.le_of_succ_le_succ h)]
        exact and_congr_left fun _ => (splits_word (ascii_mem_words ha)).symm
      · cases hf : fullRune (c :: data) with
        | false =>
          have hb := fullRune_eq_false.mp hf
          have hl := length_lt_of_begins hb
          rw [if_pos rfl, splits_of_begins hb]
          cases final with
          | true =>
            refine iff_of_false nofun ?_
            rintro ⟨rfl, hp⟩
            cases hp rfl
          | false =>
            rw [if_neg nofun, if_neg (by omega), some.injEq, eq_comm]
            exact (and_iff_left_of_imp fun _ => nofun).symm
        | true =>
          rw [if_neg (by decide)]
          cases hsize : decodeRune (c :: data) with
          | none =>
            refine iff_of_false nofun fun hs => ?_
            exact not_splits_of_bad (decodeRune_eq_none hf hsize) hs.1
          | some size =>
            obtain ⟨w, hw, heq, hlt⟩ := decodeRune_eq_some hsize
            rw [ih (by omega)]
            conv_rhs => rw [heq]
            exact and_congr_left fun _ => (splits_word hw).symm

theorem feed_eq_some_iff {d q : Bytes} :
    feed p d final = some q ↔ code.Splits (p ++ d) q ∧ (final = true → q = []) :=
  feedLoop_eq_some_iff (length_append ..).le

section Carried

variable {m p d q : Bytes} {final : Bool}

/-- With `p` pending after the text so far, feeding says how the longer text splits. -/
theorem feed_iff_of_splits (h : code.Splits m p) :
    feed p d final = some q ↔ code.Splits (m ++ d) q ∧ (final = true → q = []) := by
  rw [feed_eq_some_iff, h.append_iff]

/-- A piece is refused exactly when there is no hope left for the text. -/
theorem feed_eq_none_iff (h : code.Splits m p) :
    feed p d final = none ↔ Hopeless (m ++ d) final := by
  rw [eq_none_iff_forall_ne_some]
  simp only [ne_eq, feed_iff_of_splits h]
  constructor
  · intro hn more hm hmem
    obtain ⟨q, hq⟩ := exists_append_mem_kstar_iff.mp ⟨more, hmem⟩
    refine hn q ⟨hq, fun hf => ?_⟩
    rw [hm hf, append_nil] at hmem
    exact hq.mem_kstar_iff.mp hmem
  · rintro hopeless q ⟨hq, hf⟩
    cases final with
    | true =>
      refine hopeless [] (fun _ => rfl) ?_
      rw [append_nil]
      exact hq.mem_kstar_iff.mpr (hf rfl)
    | false =>
      obtain ⟨more, hmem⟩ := exists_append_mem_kstar_iff.mpr ⟨q, hq⟩
      exact hopeless more nofun hmem

end Carried

/-- Pieces may be fed one after another. -/
theorem feed_append {a b : Bytes} :
    feed p (a ++ b) final = (feed p a false).bind fun q => feed q b final := by
  refine ext fun r => ?_
  simp only [bind_eq_some_iff]
  constructor
  · intro h
    obtain ⟨hr, hf⟩ := feed_eq_some_iff.mp h
    obtain ⟨more, hm⟩ := exists_append_mem_kstar_iff.mpr ⟨r, hr⟩
    -- what the longer text can become, the shorter one can become too
    obtain ⟨q, hq⟩ := (exists_append_mem_kstar_iff (b := p ++ a)).mp
      ⟨b ++ more, by simpa only [append_assoc] using hm⟩
    refine ⟨q, feed_eq_some_iff.mpr ⟨hq, nofun⟩, (feed_iff_of_splits hq).mpr ⟨?_, hf⟩⟩
    rwa [append_assoc]
  · rintro ⟨q, ha, hb⟩
    obtain ⟨hq, -⟩ := feed_eq_some_iff.mp ha
    rw [feed_iff_of_splits hq, append_assoc] at hb
    exact feed_eq_some_iff.mpr hb

end Celeris.WebSocket
