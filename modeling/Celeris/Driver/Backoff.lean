import Mathlib.Algebra.Order.Ring.Int

/-!
# Delays between attempts (`driver/internal/async/backoff.go`)

`Next` without jitter. A `time.Duration` is an integer of 64 bits, and a shift keeps the low 64
bits.

The sign and the size of what is left do not tell whether bits were lost, and from the attempt 62 on
the cap is taken for a delay that may be below it.
-/

namespace Celeris.Driver

/-- A `Backoff` without jitter. -/
structure Backoff where
  base : Int
  cap : Int
  attempts : Int := 0
  base_lt : base < 2 ^ 63
  cap_lt : cap < 2 ^ 63

namespace Backoff

variable (b : Backoff) (attempt : Int)

/-- The first delay, by default 50 ms. -/
def delay : Int := if b.base ≤ 0 then 50000000 else b.base

/-- The longest delay, by default 5 s. -/
def maxDelay : Int := if b.cap ≤ 0 then 5000000000 else b.cap

/-- The first delay, shifted to the left as an `int64`. -/
def shifted : Int := Int.bmod (b.delay * 2 ^ attempt.toNat) (2 ^ 64)

def next : Int × Backoff :=
  (if attempt.toNat ≥ 62 then b.maxDelay
    else if b.shifted attempt ≤ 0 ∨ b.shifted attempt > b.maxDelay then b.maxDelay
    else b.shifted attempt, { b with attempts := attempt.toNat + 1 })

def documented : Int := min (b.delay * 2 ^ attempt.toNat) b.maxDelay

/-- No bits are lost, or what is left is not taken for a delay below the cap. -/
def Exact : Prop :=
  if attempt.toNat ≥ 62 then b.maxDelay ≤ b.delay * 2 ^ attempt.toNat
  else b.delay * 2 ^ attempt.toNat < 2 ^ 63 ∨ b.shifted attempt ≤ 0 ∨ b.maxDelay ≤ b.shifted attempt

theorem delay_pos : 0 < b.delay := by
  unfold delay
  split_ifs <;> omega

theorem maxDelay_lt : b.maxDelay < 2 ^ 63 := by
  have hc := b.cap_lt
  unfold maxDelay
  split_ifs <;> omega

theorem next_eq_documented_iff : (b.next attempt).1 = b.documented attempt ↔ b.Exact attempt := by
  have hm := b.maxDelay_lt
  have hx : 0 < b.delay * 2 ^ attempt.toNat := Int.mul_pos b.delay_pos (Int.pow_pos (by decide))
  have he (hs : b.delay * 2 ^ attempt.toNat < 2 ^ 63) : b.shifted attempt =
      b.delay * 2 ^ attempt.toNat :=
    Int.bmod_eq_of_le (by omega) (by omega)
  unfold next documented Exact
  split_ifs with hlate hlost
  · exact eq_comm.trans min_eq_right_iff
  · rw [eq_comm, min_eq_right_iff]
    omega
  · by_cases hs : b.delay * 2 ^ attempt.toNat < 2 ^ 63
    · rw [he hs] at hlost ⊢
      exact iff_of_true (min_eq_left (by omega)).symm (.inl hs)
    · rw [min_eq_right (by omega)]
      omega

/-- The delay is the documented one exactly then, it is never above the cap, and then later ones are
not shorter. -/
theorem next_exact_iff : ((b.next attempt).1 = b.documented attempt ↔ b.Exact attempt) ∧
    (b.next attempt).1 ≤ b.maxDelay ∧
      ∀ later ≥ attempt, b.Exact attempt → b.Exact later →
        (b.next attempt).1 ≤ (b.next later).1 := by
  refine ⟨b.next_eq_documented_iff attempt, ?_, fun later hl h h' => ?_⟩
  · unfold next
    dsimp only
    split_ifs <;> omega
  · rw [(b.next_eq_documented_iff _).mpr h, (b.next_eq_documented_iff _).mpr h']
    refine min_le_min_right _ (Int.mul_le_mul_of_nonneg_left ?_ b.delay_pos.le)
    exact_mod_cast Nat.pow_le_pow_right Nat.two_pos (Int.toNat_le_toNat hl)

/-- A delay that comes out shorter than the first. -/
theorem next_mistaken :
    let b : Backoff :=
      { base := 2 ^ 33 + 1, cap := 2 ^ 42, base_lt := by decide, cap_lt := by decide }
    (b.next 31).1 = 2 ^ 31 ∧ b.documented 31 = 2 ^ 42 ∧ (b.next 0).1 = 2 ^ 33 + 1 := by
  decide

end Backoff

end Celeris.Driver
