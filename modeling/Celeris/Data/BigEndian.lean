import Mathlib.Data.List.Induction
import Mathlib.Tactic.Positivity

/-!
# Numbers as bytes

Fixed-width numbers with the highest byte first: `bytes` writes them and `value`
reads them back. A machine integer of `w` bits is read from a number
as the one congruent to it between `-2^(w-1)` and `2^(w-1) - 1`.
-/

namespace BigEndian

open List Nat UInt8 Int

def value (b : List UInt8) : Nat := b.foldl (fun n c => n * 256 + c.toNat) 0

/-- The low `k` bytes of a number, the highest first. -/
def bytes : (k : Nat) → Nat → List UInt8
  | 0, _ => []
  | k + 1, n => bytes k (n / 256) ++ [UInt8.ofNat n]

/-- The number of `w` bits that stands for an integer. -/
def unsigned (w : Nat) (x : Int) : Nat := (x % 2 ^ w).toNat

/-- The integer that a number of `w` bits stands for. -/
def signed (w n : Nat) : Int := Int.bmod n (2 ^ w)

@[simp] theorem value_nil : value [] = 0 := rfl

@[simp] theorem value_concat (b : List UInt8) (c : UInt8) :
    value (b ++ [c]) = value b * 256 + c.toNat := by
  rw [value, foldl_append]
  rfl

@[simp] theorem length_bytes (k n : Nat) : (bytes k n).length = k := by
  induction k generalizing n with
  | zero => rfl
  | succ k ih => rw [bytes, length_append, ih, length_singleton]

variable {k : Nat} {x : Int}

/-- What is written is read back. -/
theorem value_bytes {n : Nat} (hn : n < 256 ^ k) : value (bytes k n) = n := by
  induction k generalizing n with
  | zero =>
    rw [bytes, value_nil]
    omega
  | succ k ih =>
    have hh : n / 256 < 256 ^ k := Nat.div_lt_of_lt_mul (by rwa [pow_succ, Nat.mul_comm] at hn)
    have hl : (UInt8.ofNat n).toNat = n % 256 := UInt8.toNat_ofNat'
    rw [bytes, value_concat, ih hh, hl]
    omega

theorem value_lt (b : List UInt8) : value b < 256 ^ b.length := by
  induction b using reverseRecOn with
  | nil => exact one_pos
  | append_singleton b c ih =>
    have hc : c.toNat < 256 := c.toNat_lt
    rw [value_concat, length_append, length_singleton, pow_succ]
    omega

/-- What is read is written back. -/
theorem bytes_value {b : List UInt8} (h : b.length = k) : bytes k (value b) = b := by
  induction b using reverseRecOn generalizing k with
  | nil =>
    rw [← h]
    rfl
  | append_singleton b c ih =>
    rw [length_append, length_singleton] at h
    have hc : c.toNat < 256 := c.toNat_lt
    have hh : (value b * 256 + c.toNat) / 256 = value b := by omega
    have hl : UInt8.ofNat (value b * 256 + c.toNat) = c := by
      apply UInt8.toNat_inj.mp
      rw [UInt8.toNat_ofNat']
      omega
    rw [← h, value_concat, bytes, hh, hl, ih rfl]

/-- Only the low bytes of a number are written. -/
theorem bytes_mod (k n : Nat) : bytes k (n % 256 ^ k) = bytes k n := by
  induction k generalizing n with
  | zero => rfl
  | succ k ih =>
    have hh : n % 256 ^ (k + 1) / 256 = n / 256 % 256 ^ k := by rw [pow_succ',
      mod_mul_right_div_self]
    have hl : UInt8.ofNat (n % 256 ^ (k + 1)) = UInt8.ofNat n := by
      apply UInt8.toNat_inj.mp
      rw [UInt8.toNat_ofNat', UInt8.toNat_ofNat', pow_succ']
      exact mod_mul_right_mod ..
    rw [bytes, bytes, hh, hl, ih]

theorem cast_unsigned (w : Nat) (x : Int) : (unsigned w x : Int) = x % 2 ^ w :=
  toNat_of_nonneg (emod_nonneg x (by positivity))

theorem unsigned_lt (w : Nat) (x : Int) : unsigned w x < 2 ^ w := by
  have hlt : x % 2 ^ w < 2 ^ w := emod_lt_of_pos x (by positivity)
  rw [← cast_unsigned] at hlt
  exact_mod_cast hlt

/-- An integer in range is the one its number stands for. -/
theorem signed_unsigned {w : Nat} (hl : -2 ^ w ≤ 2 * x) (hh : 2 * x < 2 ^ w) :
    signed w (unsigned w x) = x := by
  rw [signed, cast_unsigned]
  have hm : bmod (x % 2 ^ w) (2 ^ w) = bmod x (2 ^ w) := by
    have := emod_bmod x (2 ^ w)
    exact_mod_cast this
  rw [hm]
  apply bmod_eq_of_le_mul_two
  all_goals push_cast
  · omega
  · omega

/-- An integer in range is read back. -/
theorem signed_value_bytes (hl : -2 ^ (8 * k) ≤ 2 * x) (hh : 2 * x < 2 ^ (8 * k)) :
    signed (8 * k) (value (bytes k (unsigned (8 * k) x))) = x := by
  have hlt := unsigned_lt (8 * k) x
  rw [pow_mul] at hlt
  rw [value_bytes hlt, signed_unsigned hl hh]

/-- Integers in range are told apart by their bytes. -/
theorem bytes_unsigned_inj {y : Int} (hx : -2 ^ (8 * k) ≤ 2 * x ∧ 2 * x < 2 ^ (8 * k))
    (hy : -2 ^ (8 * k) ≤ 2 * y ∧ 2 * y < 2 ^ (8 * k)) :
    bytes k (unsigned (8 * k) x) = bytes k (unsigned (8 * k) y) ↔ x = y := by
  refine ⟨fun h => ?_, fun h => by rw [h]⟩
  rw [← signed_value_bytes hx.1 hx.2, h, signed_value_bytes hy.1 hy.2]

end BigEndian
