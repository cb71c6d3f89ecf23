import Mathlib.Algebra.CharP.Two
import Mathlib.Algebra.Polynomial.Div
import Mathlib.Algebra.Field.ZMod
import Mathlib.Algebra.Polynomial.OfFn

/-!
# Cyclic redundancy checks

The bits of a word are the coefficients of a polynomial over `ZMod 2`, the lowest bit that of degree
zero. A register of `n` bits that is shifted to the left, and takes the exclusive or with a fixed
word when a bit leaves it, is multiplied by `X` modulo the polynomial `X ^ n` plus that word.
-/

open Polynomial

namespace Crc

variable {n k : Nat} {c d : BitVec n}

noncomputable def poly (c : BitVec n) : (ZMod 2)[X] := ofFn n fun i => if c.getLsbD i then 1 else 0

/-- The polynomial that a register with the word `g` divides by. -/
noncomputable def divisor (g : BitVec n) : (ZMod 2)[X] := X ^ n + poly g

def shift (g c : BitVec n) : BitVec n := if c.getLsbD (n - 1) then c <<< 1 ^^^ g else c <<< 1

theorem coeff_poly (i : Nat) : (poly c).coeff i = if c.getLsbD i then 1 else 0 := by
  rcases lt_or_ge i n with hi | hi
  · exact ofFn_coeff_eq_val_of_lt _ hi
  · rw [poly, ofFn_coeff_eq_zero_of_ge _ hi, BitVec.getLsbD_of_ge c i hi]
    rfl

theorem poly_zero : poly 0#n = 0 := by
  ext i
  simp [coeff_poly]

theorem poly_xor : poly (c ^^^ d) = poly c + poly d := by
  ext i
  rw [coeff_add, coeff_poly, coeff_poly, coeff_poly, BitVec.getLsbD_xor]
  cases c.getLsbD i <;> cases d.getLsbD i <;> decide

/-- A word moved up in a wider register. -/
theorem poly_setWidth_shiftLeft {m : Nat} (h : n + k ≤ m) :
    poly (c.setWidth m <<< k) = X ^ k * poly c := by
  ext i
  rw [coeff_X_pow_mul', coeff_poly, coeff_poly, BitVec.getLsbD_shiftLeft, BitVec.getLsbD_setWidth]
  by_cases hk : k ≤ i
  · by_cases hn : i - k < n
    · simp [hk, show i < m by omega, show i - k < m by omega]
    · simp [hk, BitVec.getLsbD_of_ge c (i - k) (by omega)]
  · simp [hk]

/-- The bit that leaves the register is the coefficient of `X ^ n`. -/
theorem X_mul_poly (h : 0 < n) :
    X * poly c = poly (c <<< 1) + if c.getLsbD (n - 1) then X ^ n else 0 := by
  ext i
  rw [coeff_add, coeff_poly, BitVec.getLsbD_shiftLeft]
  cases i with
  | zero => cases c.getLsbD (n - 1) <;> simp [h.ne]
  | succ i =>
    rw [coeff_X_mul, coeff_poly]
    rcases lt_trichotomy (i + 1) n with hi | rfl | hi
    · cases c.getLsbD (n - 1) <;> simp [hi, hi.ne, coeff_X_pow]
    · rw [Nat.add_sub_cancel]
      cases c.getLsbD i <;> simp
    · have hge : c.getLsbD i = false := BitVec.getLsbD_of_ge c i (by omega)
      cases c.getLsbD (n - 1) <;> simp [hge, hi.ne', hi.not_gt, coeff_X_pow]

theorem degree_poly_lt : (poly c).degree < n := ofFn_degree_lt _

variable {g : BitVec n}

theorem degree_divisor : (divisor g).degree = n := by
  rw [divisor, degree_add_eq_left_of_degree_lt, degree_X_pow]
  rw [degree_X_pow]
  exact degree_poly_lt

theorem monic_divisor : (divisor g).Monic := monic_X_pow_add degree_poly_lt

/-- A shift multiplies by `X`. -/
theorem divisor_dvd_shift (h : 0 < n) : divisor g ∣ X * poly c - poly (shift g c) := by
  rw [X_mul_poly h, shift]
  cases c.getLsbD (n - 1) with
  | false => simp
  | true =>
    simp only [if_true, poly_xor, CharTwo.sub_eq_add]
    rw [add_add_add_comm, CharTwo.add_self_eq_zero, zero_add]
    exact dvd_rfl

theorem divisor_dvd_shifts (h : 0 < n) : divisor g ∣ X ^ k * poly c - poly ((shift g)^[k] c) := by
  induction k with
  | zero => simp
  | succ k ih =>
    rw [Function.iterate_succ_apply', pow_succ', mul_assoc]
    have hs := dvd_add (ih.mul_left X) (divisor_dvd_shift (g := g) (c := (shift g)^[k] c) h)
    rwa [mul_sub, sub_add_sub_cancel] at hs

/-- A register holds the remainder of what it is congruent to. -/
theorem poly_eq_modByMonic {p : (ZMod 2)[X]} (h : divisor g ∣ p - poly c) :
    poly c = p %ₘ divisor g := by
  rw [modByMonic_eq_of_dvd_sub monic_divisor h, (modByMonic_eq_self_iff monic_divisor).mpr]
  rw [degree_divisor]
  exact degree_poly_lt

end Crc
