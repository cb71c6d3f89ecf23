import Celeris.Conn.Wire
import Celeris.Data.BigEndian
import Mathlib.Algebra.BigOperators.Group.Finset.Basic
import Mathlib.Algebra.Order.Floor.Ring
import Mathlib.Data.Rat.Floor
import Mathlib.Tactic.FieldSimp

/-!
# Numerics (`internal/driver/postgres/protocol/types_numeric.go`)

PostgreSQL sends a `numeric` as digits in base 10000 with the weight of the first, a sign
word and the number of decimals to show; `decodeNumericBinary` writes it as a decimal
string. The digits it writes before and behind the point, read as one number, are the
digits of the `numeric` read as one, which is what makes the string denote its value.

The loop over the integer part counts in an `int16`. It gets `2^16` rounds, more than an
`int16` has values: a loop that does not end within them does not end.
-/

namespace Celeris.Postgres

open BigEndian H1 Client Conn List Option Nat Int

/-! ## The decoder -/

def numericPositive : Nat := 0x0000

def numericNegative : Nat := 0x4000

def numericNaN : Nat := 0xC000

/-- What happens instead of a result. -/
inductive Failure where
  | error (text : String)
  /-- A panic: an index out of range. -/
  | indexOutOfRange
  | endless
deriving DecidableEq, Repr

/-- `%04d`. -/
def format04d (n : Nat) : Bytes :=
  List.replicate (4 - (appendInt 10 n).length) 0x30 ++ appendInt 10 n

/-- The loop over the integer part. A negative index is below the length of `digits`, so it
is used. -/
def integerPart (digits : List Nat) (weight : Int) :
    (fuel : Nat) → (i : Int) → Bytes → Except Failure Bytes
  | 0, _, _ => .error .endless
  | fuel + 1, i, b =>
    if i ≤ weight then
      if i < 0 then .error .indexOutOfRange
      else
        let dg := digits.getD i.toNat 0
        integerPart digits weight fuel (Int.bmod (i + 1) (2 ^ 16))
          (b ++ if i = 0 then appendInt 10 dg else format04d dg)
    else .ok b

/-- The digits behind the point, as many as there are. -/
def fractionalPart (digits : List Nat) (weight : Int) : Bytes :=
  let pad := if weight < -1 then ((-weight - 1) * 4).toNat else 0
  List.replicate pad 0x30 ++ (digits.drop (weight + 1).toNat).flatMap format04d

/-- Digits behind the point, cut or extended to exactly `dscale` of them. -/
def toScale (dscale : Nat) (frac : Bytes) : Bytes :=
  (frac ++ List.replicate (dscale - frac.length) 0x30).take dscale

/-- The integer part behind a sign. -/
def integerString (digits : List Nat) (weight : Int) (minus : Bytes) : Except Failure Bytes :=
  if weight < 0 then .ok (minus ++ ascii "0") else integerPart digits weight (2 ^ 16) 0 minus

/-- The string of the fields of a `numeric`. -/
def numericString (digits : List Nat) (weight : Int) (sign : Nat) (dscale : Int) :
    Except Failure Bytes :=
  (integerString digits weight (if sign = numericNegative then ascii "-" else [])).map
    fun integer =>
    if dscale > 0 then integer ++ (ascii "." ++ toScale dscale.toNat (fractionalPart digits weight))
      else integer

/-- `binary.BigEndian.Uint16` at an offset. -/
def word (src : Bytes) (k : Nat) : Nat := value ((src.drop k).take 2)

def decodeNumericBinary (src : Bytes) : Except Failure Bytes :=
  let length := src.length
  if length < 8 then .error (.error s!"postgres/protocol: numeric header too short ({length})")
  else
    let ndigits := signed 16 (word src 0)
    let weight := signed 16 (word src 2)
    let sign := word src 4
    let dscale := signed 16 (word src 6)
    if sign = numericNaN then .ok (ascii "NaN")
    else if ndigits < 0 then .error (.error "postgres/protocol: numeric ndigits < 0")
    else if ndigits * 2 + 8 > length then .error (.error "postgres/protocol: numeric truncated")
    else numericString ((List.range ndigits.toNat).map fun i => word src (8 + 2 * i)) weight sign
      dscale

/-! ## Numerics and what they denote -/

/-- A `numeric` as PostgreSQL sends it. -/
structure Numeric where
  digits : List Nat
  weight : Int
  sign : Nat
  dscale : Nat
  digits_lt : ∀ d ∈ digits, d < 10000
  length_lt : digits.length < 2 ^ 15
  weight_ge : -2 ^ 15 ≤ weight
  weight_lt : weight < 2 ^ 15
  sign_lt : sign < 2 ^ 16
  dscale_lt : dscale < 2 ^ 15

namespace Numeric

/-- The bytes of a `numeric`. -/
def wire (n : Numeric) : Bytes :=
  bytes 2 n.digits.length ++ bytes 2 (unsigned 16 n.weight) ++ bytes 2 n.sign ++ bytes 2 n.dscale ++
    n.digits.flatMap (bytes 2)

/-- The value without the sign. -/
def magnitude (n : Numeric) : ℚ :=
  ∑ i ∈ Finset.range n.digits.length, (n.digits.getD i 0 : ℚ) * 10000 ^ (n.weight - i)

def withSign (n : Numeric) (x : ℚ) : ℚ := if n.sign = numericNegative then -x else x

/-- The value, with what is behind `dscale` decimals cut off. -/
def truncated (n : Numeric) : ℚ := n.withSign (⌊n.magnitude * 10 ^ n.dscale⌋ / 10 ^ n.dscale)

end Numeric

def readDigit (n : Nat) (c : UInt8) : Option Nat := (decDigit c).map fun d => n * 10 + d

def readDigits (s : Bytes) : Option Nat := s.foldlM readDigit 0

/-- The number a decimal string denotes: an optional minus, digits, and an optional point with
digits behind it. -/
def readDecimal (s : Bytes) : Option ℚ :=
  let unsigned := if s.head? = some 0x2d then s.tail else s
  let before := unsigned.takeWhile (· ≠ 0x2e)
  let behind := unsigned.drop (before.length + 1)
  if before = [] ∨ before.length < unsigned.length ∧ behind = [] then none
  else (readDigits (before ++ behind)).map fun (n : Nat) =>
    (if s.head? = some 0x2d then -1 else 1) * ((n : ℚ) / 10 ^ behind.length)

/-! ## Strings of digits -/

variable {s b before : Bytes} {n k weight : Nat} {ds digits : List Nat}

theorem foldlM_readDigit {a : Nat} :
    s.foldlM readDigit a = (readDigits s).map fun b => a * 10 ^ s.length + b := by
  induction s generalizing a with
  | nil => simp [readDigits]
  | cons c s ih =>
    unfold readDigits
    rw [foldlM_cons, foldlM_cons, readDigit, readDigit]
    cases decDigit c with
    | none => rfl
    | some d =>
      rw [map_some, map_some, bind_eq_bind, bind_some, bind_some, ih, ih, Option.map_map]
      congr 1
      funext b
      simp only [Function.comp_apply, length_cons, pow_succ]
      ring

theorem readDigits_append {t : Bytes} {a b : Nat} (hs : readDigits s = some a)
    (ht : readDigits t = some b) : readDigits (s ++ t) = some (a * 10 ^ t.length + b) := by
  rw [readDigits] at hs
  rw [readDigits, foldlM_append, hs, bind_eq_bind, bind_some, foldlM_readDigit, ht, map_some]

theorem readDigits_cons {c : UInt8} (h : readDigits (c :: s) = some n) :
    ∃ d b, decDigit c = some d ∧ readDigits s = some b ∧ n = d * 10 ^ s.length + b := by
  rw [readDigits, foldlM_cons, readDigit, bind_eq_bind, bind_eq_some_iff] at h
  obtain ⟨a, ha, h⟩ := h
  obtain ⟨d, hd, rfl⟩ := map_eq_some_iff.mp ha
  rw [foldlM_readDigit, map_eq_some_iff] at h
  obtain ⟨b, hb, rfl⟩ := h
  exact ⟨d, b, hd, hb, by rw [zero_mul, zero_add]⟩

theorem readDigits_lt (h : readDigits s = some n) : n < 10 ^ s.length := by
  induction s generalizing n with
  | nil =>
    cases h
    decide
  | cons c s ih =>
    obtain ⟨d, b, hd, hb, rfl⟩ := readDigits_cons h
    have hlt := ih hb
    calc d * 10 ^ s.length + b
        < d * 10 ^ s.length + 10 ^ s.length := by omega
      _ = (d + 1) * 10 ^ s.length := by ring
      _ ≤ 10 * 10 ^ s.length := mul_le_mul_right _ (decDigit_lt hd)
      _ = 10 ^ (c :: s).length := by rw [length_cons, pow_succ, mul_comm]

theorem isDigit_of_readDigits (h : readDigits s = some n) : ∀ c ∈ s, isDigit c = true := by
  induction s generalizing n with
  | nil => exact fun c hc => absurd hc not_mem_nil
  | cons c s ih =>
    obtain ⟨d, b, hd, hb, rfl⟩ := readDigits_cons h
    intro c' hc'
    rcases mem_cons.mp hc' with rfl | hm
    · rw [decDigit] at hd
      split_ifs at hd with hdi
      exact hdi
    · exact ih hb c' hm

/-- Cutting digits off the end divides. -/
theorem readDigits_left {t : Bytes} (h : readDigits (s ++ t) = some n) :
    readDigits s = some (n / 10 ^ t.length) := by
  rw [readDigits, foldlM_append, bind_eq_bind, bind_eq_some_iff] at h
  obtain ⟨a, ha, hr⟩ := h
  rw [foldlM_readDigit, map_eq_some_iff] at hr
  obtain ⟨b, hb, rfl⟩ := hr
  have hlt := readDigits_lt hb
  rw [readDigits, ha, mul_comm, mul_add_div (by positivity), div_eq_of_lt hlt, add_zero]

theorem readDigits_replicate (k : Nat) : readDigits (List.replicate k 0x30) = some 0 := by
  induction k with
  | zero => rfl
  | succ k ih =>
    have h := readDigits_append (s := [0x30]) (a := 0) rfl ih
    rwa [zero_mul] at h

theorem readDigits_appendInt (n : Nat) : readDigits (appendInt 10 n) = some n := by
  have h := readDecimal_appendInt n
  rw [readNumber] at h
  split_ifs at h
  exact h

theorem length_appendInt (hk : k ≠ 0) (hn : n < 10 ^ k) : (appendInt 10 n).length ≤ k := by
  rw [appendInt]
  split
  · rw [length_singleton]
    omega
  · rw [length_map, length_reverse]
    exact (digits_length_le_iff (by decide) n).mpr hn

theorem length_format04d (hn : n < 10000) : (format04d n).length = 4 := by
  have h := length_appendInt (k := 4) (by decide) hn
  rw [format04d, length_append, length_replicate]
  omega

theorem readDigits_format04d (n : Nat) : readDigits (format04d n) = some n := by
  have h := readDigits_append (readDigits_replicate (4 - (appendInt 10 n).length))
    (readDigits_appendInt n)
  rwa [zero_mul, zero_add] at h

/-- A string of digits with a point in it, and a minus before it, denotes what the digits
read. -/
theorem readDecimal_digits (negative : Bool) {behind : Bytes} (hbe : before ≠ [])
    (hread : readDigits (before ++ behind) = some n) :
    readDecimal ((if negative then ascii "-" else []) ++
        (before ++ if behind = [] then [] else ascii "." ++ behind)) =
      some ((if negative then -1 else 1) * ((n : ℚ) / 10 ^ behind.length)) := by
  have hd := isDigit_of_readDigits hread
  have hp : ∀ c ∈ before, decide (c ≠ 0x2e) = true := by
    intro c hc
    have hc' := hd c (mem_append_left _ hc)
    refine decide_eq_true fun h => ?_
    rw [h] at hc'
    cases hc'
  obtain ⟨c, before', rfl⟩ := exists_cons_of_ne_nil hbe
  have hm : c ≠ 0x2d := by
    rintro rfl
    have h := hd 0x2d (by simp)
    cases h
  set text := (c :: before') ++ if behind = [] then [] else ascii "." ++ behind with ht
  -- What stands before the first point, and what behind it.
  have hw : text.takeWhile (fun c => decide (c ≠ 0x2e)) = c :: before' := by
    rw [ht, takeWhile_append_of_pos hp]
    by_cases hb : behind = []
    · rw [if_pos hb, takeWhile_nil, append_nil]
    · rw [if_neg hb, show ascii "." = [0x2e] from rfl, singleton_append,
        takeWhile_cons_of_neg (by decide), append_nil]
  have hrest : text.drop ((c :: before').length + 1) = behind := by
    rw [ht, drop_append]
    split_ifs with hb
    · rw [hb]
      simp
    · simp [show ascii "." = [0x2e] from rfl]
  have hsh : ¬(c :: before' = [] ∨ (c :: before').length < text.length ∧ behind = []) := by
    rintro (h | ⟨h, hb⟩)
    · cases h
    · rw [ht, if_pos hb, append_nil] at h
      exact lt_irrefl _ h
  have hbody : ∀ s, (if s.head? = some 0x2d then s.tail else s) = text →
      readDecimal s = some ((if s.head? = some 0x2d then -1 else 1) *
        ((n : ℚ) / 10 ^ behind.length)) := by
    intro s hs
    unfold readDecimal
    dsimp only
    rw [hs, hw, hrest, if_neg hsh, hread, map_some]
  cases negative with
  | true =>
    have hhead : (ascii "-" ++ text).head? = some 0x2d := rfl
    rw [if_pos rfl, if_pos rfl, hbody _ (if_pos hhead), if_pos hhead]
  | false =>
    have hhead : ¬([] ++ text).head? = some 0x2d := fun h => hm (some.inj h)
    rw [if_neg Bool.false_ne_true, if_neg Bool.false_ne_true, hbody _ (if_neg hhead), if_neg hhead]

/-! ## Digits in base 10000 -/

def number (ds : List Nat) : Nat := ds.foldl (fun n d => n * 10000 + d) 0

theorem number_concat {d : Nat} : number (ds ++ [d]) = number ds * 10000 + d := by
  rw [number, foldl_append]
  rfl

theorem number_append_replicate : number (ds ++ List.replicate k 0) = number ds * 10000 ^ k := by
  induction k with
  | zero => simp
  | succ k ih =>
    rw [replicate_succ', ← append_assoc, number_concat, ih, pow_succ]
    ring

theorem readDigits_flatMap {es : List Nat} (hs : readDigits s = some (number es))
    (hds : ∀ d ∈ ds, d < 10000) :
    readDigits (s ++ ds.flatMap format04d) = some (number (es ++ ds)) := by
  induction ds using reverseRecOn with
  | nil => simpa using hs
  | append_singleton ds d ih =>
    have hi := ih fun d' hd' => hds d' (by simp [hd'])
    have hl := readDigits_append hi (readDigits_format04d d)
    rw [length_format04d (hds d (by simp)), show 10 ^ 4 = 10000 from rfl] at hl
    rw [flatMap_append, flatMap_singleton, ← append_assoc, hl, ← append_assoc, number_concat]

theorem length_flatMap_format04d (hds : ∀ d ∈ ds, d < 10000) :
    (ds.flatMap format04d).length = 4 * ds.length := by
  induction ds with
  | nil => rfl
  | cons d ds ih =>
    rw [flatMap_cons, length_append, length_format04d (hds d (by simp)),
      ih fun d' hd' => hds d' (by simp [hd']), length_cons]
    omega

/-- Digits of descending weights add up to the number they read, at the weight of the last. -/
theorem sum_eq_number {weight : Int} :
    ∑ i ∈ Finset.range ds.length, (ds.getD i 0 : ℚ) * 10000 ^ (weight - i) =
      number ds * 10000 ^ (weight + 1 - ds.length) := by
  induction ds using reverseRecOn with
  | nil => simp [number]
  | append_singleton ds d ih =>
    have hinit : ∑ i ∈ Finset.range ds.length, ((ds ++ [d]).getD i 0 : ℚ) * 10000 ^ (weight - i) =
        ∑ i ∈ Finset.range ds.length, (ds.getD i 0 : ℚ) * 10000 ^ (weight - i) := by
      refine Finset.sum_congr rfl fun i hi => ?_
      rw [getD_eq_getElem?_getD, getD_eq_getElem?_getD,
        getElem?_append_left (Finset.mem_range.mp hi)]
    have hp : (10000 : ℚ) ^ (weight + 1 - ds.length) = 10000 ^ (weight - ds.length) * 10000 := by
      rw [← zpow_add_one₀ (by norm_num)]
      ring_nf
    rw [length_append, length_singleton, Finset.sum_range_succ, hinit, ih, number_concat, hp,
      getD_eq_getElem?_getD, getElem?_concat_length, getD_some]
    push_cast
    ring_nf

/-! ## The parts of the string -/

/-- The digits written for one group of the integer part. -/
def group (digits : List Nat) (i : Nat) : Bytes :=
  if i = 0 then appendInt 10 (digits.getD i 0) else format04d (digits.getD i 0)

/-- A round of the loop. -/
theorem integerPart_step {i : Nat} (hi : i ≤ weight) {fuel : Nat} :
    integerPart digits weight (fuel + 1) i b =
      integerPart digits weight fuel (Int.bmod (i + 1) (2 ^ 16)) (b ++ group digits i) := by
  rw [integerPart, if_pos (by exact_mod_cast hi), if_neg (by omega), toNat_natCast, group]
  norm_cast

/-- The rounds up to the last. -/
theorem integerPart_run (hw : weight < 2 ^ 15) {i : Nat}
    (hk : i + k ≤ weight) (fuel : Nat) (b : Bytes) : integerPart digits weight (fuel + k) i b =
      integerPart digits weight fuel (i + k : Nat)
        (b ++ (List.range' i k).flatMap (group digits)) := by
  induction k generalizing i b with
  | zero => simp
  | succ k ih =>
    have hn : bmod ((i : Int) + 1) (2 ^ 16) = ((i + 1 : Nat) : Int) := by
      rw [bmod_eq_of_le_mul_two]
      all_goals omega
    rw [← add_assoc, integerPart_step (by omega), hn, ih (by omega), range'_succ,
      flatMap_cons, ← append_assoc, add_assoc, add_comm 1 k]

theorem integerPart_eq (hw : weight < 32767) :
    integerPart digits weight (2 ^ 16) 0 b =
      .ok (b ++ (List.range (weight + 1)).flatMap (group digits)) := by
  have hr := @integerPart_run weight weight digits (by omega) 0 (by omega)
    (2 ^ 16 - weight - 2 + 1 + 1) b
  rw [show 2 ^ 16 - weight - 2 + 1 + 1 + weight = 2 ^ 16 by omega, zero_add] at hr
  have hn : bmod ((weight : Int) + 1) (2 ^ 16) = weight + 1 := by
    rw [bmod_eq_of_le_mul_two]
    all_goals omega
  rw [show (0 : Int) = (0 : Nat) from rfl, hr, integerPart_step le_rfl, hn, integerPart,
    if_neg (by omega), append_assoc, range_eq_range', range'_1_concat, flatMap_append,
    flatMap_singleton, zero_add]

/-- At the largest weight the counter wraps before it passes the weight. -/
theorem integerPart_largest : integerPart digits 32767 (2 ^ 16) 0 b = .error .indexOutOfRange := by
  have hr := @integerPart_run 32767 32767 digits (by decide) 0 le_rfl (32767 + 1 + 1) b
  rw [show 32767 + 1 + 1 + 32767 = 2 ^ 16 by rfl, zero_add] at hr
  have hn : bmod (((32767 : Nat) : Int) + 1) (2 ^ 16) = -32768 := by decide
  rw [show (0 : Int) = (0 : Nat) from rfl, show (32767 : Int) = (32767 : Nat) from rfl, hr,
    integerPart_step le_rfl, hn, integerPart, if_pos (by decide), if_pos (by decide)]

theorem range_map_getD (digits : List Nat) (k : Nat) :
    (List.range k).map (fun i => digits.getD i 0) ++ digits.drop k =
      digits ++ List.replicate (k - digits.length) 0 := by
  induction digits generalizing k with
  | nil => simp
  | cons d digits ih =>
    cases k with
    | zero => simp
    | succ k =>
      have ht := ih k
      rw [List.range_succ_eq_map, List.map_cons, List.map_map, List.drop_succ_cons,
        List.cons_append, length_cons, Nat.add_sub_add_right, cons_append, ← ht]
      rfl

/-- The whole string of an integer part and what is behind the point. -/
theorem flatMap_group : (List.range (weight + 1)).flatMap (group digits) =
      appendInt 10 (digits.getD 0 0) ++
        ((List.range' 1 weight).map fun i => digits.getD i 0).flatMap format04d := by
  rw [range_eq_range', range'_succ, flatMap_cons, flatMap_map]
  congr 1
  refine flatMap_congr fun i hi => ?_
  have hp := (mem_range'_1.mp hi).1
  rw [group, if_neg (by omega)]

/-- Digits before and behind the point that read a magnitude. -/
structure Denotes (before behind : Bytes) (x : ℚ) : Prop where
  nonempty : before ≠ []
  reads : ∃ n : Nat, readDigits (before ++ behind) = some n ∧ x = n / 10 ^ behind.length

/-- Digits are cut and extended as the magnitude is. -/
theorem Denotes.toScale {behind : Bytes} {x : ℚ} (h : Denotes before behind x) {dscale : Nat} :
    Denotes before (toScale dscale behind) (⌊x * 10 ^ dscale⌋ / 10 ^ dscale) := by
  obtain ⟨n, hr, hx⟩ := h.reads
  have he := readDigits_append hr (readDigits_replicate (dscale - behind.length))
  rw [length_replicate, add_zero, append_assoc] at he
  set extended := behind ++ replicate (dscale - behind.length) 0x30 with hext
  have hl : extended.length = behind.length + (dscale - behind.length) := by
    rw [hext, length_append, length_replicate]
  have hc := he
  rw [← take_append_drop dscale extended, ← append_assoc] at hc
  refine ⟨h.nonempty, _, readDigits_left hc, ?_⟩
  have ht : (Celeris.Postgres.toScale dscale behind).length = dscale := by
    rw [Celeris.Postgres.toScale, ← hext, length_take]
    omega
  have hf : x * 10 ^ dscale = ((n * 10 ^ (dscale - behind.length) : Nat) : ℚ) /
      ((10 ^ (extended.drop dscale).length : Nat) : ℚ) := by
    have hp : (10 : ℚ) ^ dscale * 10 ^ (extended.drop dscale).length =
        10 ^ (dscale - behind.length) * 10 ^ behind.length := by
      rw [← pow_add, ← pow_add, length_drop]
      congr 1
      omega
    rw [hx, eq_div_iff (by positivity), div_mul_eq_mul_div, div_mul_eq_mul_div,
      div_eq_iff (by positivity)]
    push_cast
    rw [mul_assoc, hp, mul_assoc]
  rw [ht, hf, Rat.floor_natCast_div_natCast, ← natCast_ediv, cast_natCast]

theorem denotes_of_nonneg (hdi : ∀ d ∈ digits, d < 10000) :
    Denotes ((List.range (weight + 1)).flatMap (group digits)) (fractionalPart digits weight)
      (number digits * 10000 ^ ((weight : Int) + 1 - digits.length)) := by
  have hdigit : ∀ i, digits.getD i 0 < 10000 := by
    intro i
    rw [getD_eq_getElem?_getD]
    cases h : digits[i]? with
    | none => decide
    | some d => exact hdi d (mem_of_getElem? h)
  have hb : fractionalPart digits weight = (digits.drop (weight + 1)).flatMap format04d := by
    norm_cast
  have hl : (fractionalPart digits weight).length = 4 * (digits.length - (weight + 1)) := by
    rw [hb, length_flatMap_format04d fun d hd => hdi d (mem_of_mem_drop hd), length_drop]
  refine ⟨?_, number digits * 10000 ^ (weight + 1 - digits.length), ?_, ?_⟩
  · rw [flatMap_group]
    intro h
    exact absurd (append_eq_nil_iff.mp h).1 (readNumber_some (readDecimal_appendInt _)).1
  · have hf : readDigits (appendInt 10 (digits.getD 0 0)) = some (number [digits.getD 0 0]) := by
      rw [readDigits_appendInt, number, foldl_cons, foldl_nil, zero_mul, zero_add]
    have hr : ∀ d ∈ ((range' 1 weight).map fun i => digits.getD i 0) ++ digits.drop (weight + 1),
        d < 10000 :=
      forall_mem_append.mpr ⟨forall_mem_map.mpr fun i _ => hdigit i,
        fun d hd => hdi d (mem_of_mem_drop hd)⟩
    have hall := readDigits_flatMap hf hr
    have hdigitsAll : [digits.getD 0 0] ++
        (((range' 1 weight).map fun i => digits.getD i 0) ++ digits.drop (weight + 1)) =
          digits ++ replicate (weight + 1 - digits.length) 0 := by
      rw [← range_map_getD, range_eq_range', range'_succ, map_cons]
      rfl
    rw [hdigitsAll, number_append_replicate, flatMap_append, ← append_assoc] at hall
    rw [flatMap_group, hb, hall]
  · have hexp : (weight : Int) + 1 - digits.length =
        ((weight + 1 - digits.length : Nat) : Int) - ((digits.length - (weight + 1) : Nat) :
          Int) := by omega
    rw [hl, pow_mul, hexp, zpow_sub₀ (by norm_num), zpow_natCast, zpow_natCast]
    norm_num
    ring

theorem denotes_of_neg (hd : ∀ d ∈ digits, d < 10000) {weight : Int} (hw : weight < 0) :
    Denotes (ascii "0") (fractionalPart digits weight)
      (number digits * 10000 ^ (weight + 1 - digits.length)) := by
  have hb : fractionalPart digits weight =
      replicate (4 * (-weight - 1).toNat) 0x30 ++ digits.flatMap format04d := by
    rw [fractionalPart, show (weight + 1).toNat = 0 by omega, drop_zero]
    congr 2
    split_ifs
    all_goals omega
  have hl : (fractionalPart digits weight).length = 4 * ((-weight - 1).toNat + digits.length) := by
    rw [hb, length_append, length_replicate, length_flatMap_format04d hd]
    ring
  refine ⟨by decide, number digits, ?_, ?_⟩
  · have hz : readDigits (ascii "0" ++ replicate (4 * (-weight - 1).toNat) 0x30) =
        some (number []) :=
      readDigits_replicate (4 * (-weight - 1).toNat + 1)
    rw [hb, ← append_assoc]
    exact readDigits_flatMap hz hd
  · have he : weight + 1 - digits.length =
      -(((-weight - 1).toNat + digits.length : Nat) : Int) := by omega
    rw [hl, pow_mul, he, zpow_neg, zpow_natCast]
    ring

/-! ## The decoder on the wire -/

theorem word_append {rest : Bytes} (hb : before.length = k) (hn : n < 2 ^ 16) :
    word ((before ++ bytes 2 n) ++ rest) k = n := by
  rw [word, append_assoc, drop_left' hb, take_left' (length_bytes _ _), value_bytes hn]

theorem length_flatMap_bytes : (ds.flatMap (bytes 2)).length = 2 * ds.length := by
  induction ds with
  | nil => rfl
  | cons d ds ih =>
    rw [flatMap_cons, length_append, ih, length_bytes, length_cons]
    omega

namespace Numeric

variable (n : Numeric)

theorem length_wire : n.wire.length = 8 + 2 * n.digits.length := by
  rw [wire, length_append, length_flatMap_bytes]
  simp

/-- The digits stand behind the header, each in its place. -/
theorem word_digit {i : Nat} (hi : i < n.digits.length) :
    word n.wire (8 + 2 * i) = n.digits.get ⟨i, hi⟩ := by
  have hs : n.digits = n.digits.take i ++ n.digits.get ⟨i, hi⟩ :: n.digits.drop (i + 1) := by
    rw [get_eq_getElem, getElem_cons_drop, take_append_drop]
  have hb : n.digits.flatMap (bytes 2) = ((n.digits.take i).flatMap (bytes 2) ++
      bytes 2 (n.digits.get ⟨i, hi⟩)) ++ (n.digits.drop (i + 1)).flatMap (bytes 2) := by
    conv_lhs => rw [hs]
    rw [flatMap_append, flatMap_cons, append_assoc]
  have hlt := n.digits_lt _ (get_mem n.digits ⟨i, hi⟩)
  rw [wire, hb, ← append_assoc, ← append_assoc, word_append _ (by omega)]
  simp only [length_append, length_bytes, length_flatMap_bytes, length_take]
  omega

theorem word_digits :
    (List.range n.digits.length).map (fun i => word n.wire (8 + 2 * i)) = n.digits := by
  refine ext_getElem (by simp) fun i _ hi => ?_
  rw [getElem_map, getElem_range, word_digit n hi, get_eq_getElem]

theorem signed_word_length : signed 16 (word n.wire 0) = n.digits.length := by
  have hlt := n.length_lt
  rw [wire, append_assoc, append_assoc, append_assoc, ← nil_append (bytes 2 n.digits.length),
    word_append length_nil (by omega), signed, bmod_eq_of_le_mul_two]
  all_goals omega

theorem signed_word_weight : signed 16 (word n.wire 2) = n.weight := by
  have hge := n.weight_ge
  have hlt := n.weight_lt
  rw [wire, append_assoc, append_assoc, word_append (length_bytes _ _) (unsigned_lt 16 _),
    signed_unsigned]
  all_goals omega

theorem word_sign : word n.wire 4 = n.sign := by
  rw [wire, append_assoc, word_append _ n.sign_lt]
  simp

theorem signed_word_dscale : signed 16 (word n.wire 6) = n.dscale := by
  have hlt := n.dscale_lt
  have hl : (bytes 2 n.digits.length ++ bytes 2 (unsigned 16 n.weight) ++ bytes 2 n.sign).length =
      6 := by
    simp
  rw [wire, word_append hl (by omega), signed, bmod_eq_of_le_mul_two]
  all_goals omega

/-- The decoder, on the fields of a `numeric`. -/
theorem decode_wire (hs : n.sign ≠ numericNaN) :
    decodeNumericBinary n.wire = numericString n.digits n.weight n.sign n.dscale := by
  have hl := n.length_wire
  unfold decodeNumericBinary
  rw [if_neg (by omega), word_sign, if_neg hs, signed_word_length, signed_word_weight,
    signed_word_dscale, if_neg (by omega), if_neg (by omega), toNat_natCast, word_digits]

theorem magnitude_eq : n.magnitude = number n.digits * 10000 ^ (n.weight + 1 - n.digits.length) :=
  sum_eq_number

/-- Below the largest weight the integer part is written, and with what is behind the point it
denotes the magnitude. -/
theorem exists_integer (hwe : n.weight ≠ 32767) (minus : Bytes) :
    ∃ before, integerString n.digits n.weight minus = .ok (minus ++ before) ∧
      Denotes before (fractionalPart n.digits n.weight) n.magnitude := by
  rw [magnitude_eq]
  by_cases hn : n.weight < 0
  · exact ⟨ascii "0", if_pos hn, denotes_of_neg n.digits_lt hn⟩
  · have hlt := n.weight_lt
    obtain ⟨w, hw⟩ := eq_ofNat_of_zero_le (not_lt.mp hn)
    refine ⟨(List.range (w + 1)).flatMap (group n.digits), ?_, ?_⟩
    · rw [integerString, if_neg hn, hw, integerPart_eq (by omega)]
    · rw [hw]
      exact denotes_of_nonneg n.digits_lt

/-- Below the largest weight any `numeric` but NaN is read as the value its digits have, with a
minus if the sign word is the negative one. -/
theorem exists_decode (hsign : n.sign ≠ numericNaN) (hw : n.weight ≠ 32767) :
    ∃ s, decodeNumericBinary n.wire = .ok s ∧ readDecimal s = some n.truncated := by
  set minus := if n.sign = numericNegative then ascii "-" else [] with hm
  obtain ⟨before, hi, hd⟩ := n.exists_integer hw minus
  obtain ⟨k, hr, hv⟩ := hd.toScale.reads
  set behind := toScale n.dscale (fractionalPart n.digits n.weight) with hb
  have hs : behind = [] ↔ ¬(n.dscale : Int) > 0 := by
    rw [← length_eq_zero_iff, hb, toScale, length_take, length_append, length_replicate]
    omega
  refine ⟨minus ++ (before ++ if behind = [] then [] else ascii "." ++ behind), ?_, ?_⟩
  · rw [decode_wire n hsign, numericString, ← hm, hi, Except.map, toNat_natCast, ← hb]
    split
    · rename_i hp
      rw [if_neg (fun h => hs.mp h hp), append_assoc]
    · rename_i hp
      rw [if_pos (hs.mpr hp), append_nil]
  · have h := readDecimal_digits (decide (n.sign = numericNegative)) hd.nonempty hr
    rw [← hv] at h
    simp only [decide_eq_true_eq] at h
    rw [hm, h, truncated, withSign]
    split_ifs
    · rw [neg_one_mul]
    · rw [one_mul]

theorem decode_largest (hs : n.sign ≠ numericNaN) (hw : n.weight = 32767) :
    decodeNumericBinary n.wire = .error .indexOutOfRange := by
  rw [decode_wire n hs, numericString, integerString, hw, if_neg (by decide), integerPart_largest]
  rfl

/-- The decimals are enough for the digits. -/
def EndsWithin : Prop := 4 * (n.digits.length - n.weight - 1) ≤ n.dscale

/-- With enough decimals nothing is cut off. -/
theorem truncated_of_endsWithin (h : n.EndsWithin) : n.truncated = n.withSign n.magnitude := by
  rw [EndsWithin] at h
  have hi : ∃ k : Int, n.magnitude * 10 ^ n.dscale = k := by
    refine ⟨number n.digits * 10 ^ (n.dscale - 4 * (n.digits.length - n.weight - 1)).toNat, ?_⟩
    have hp : (10000 : ℚ) ^ (n.weight + 1 - n.digits.length) =
        10 ^ (4 * (n.weight + 1 - n.digits.length)) := by
      rw [zpow_mul]
      norm_num
    rw [magnitude_eq, hp, mul_assoc, ← zpow_natCast, ← zpow_add₀ (by norm_num)]
    push_cast
    rw [← zpow_natCast]
    congr 2
    omega
  obtain ⟨k, hk⟩ := hi
  rw [truncated, hk, floor_intCast, ← hk, mul_div_cancel_right₀ _ (by positivity)]

/-- The decoder returns the value, cut to the decimals, of a positive or negative `numeric`, the
value itself if it ends within them, and no number for a sign word it does not know. -/
structure Decoded : Prop where
  exact : n.sign = numericPositive ∨ n.sign = numericNegative →
    ∃ s, decodeNumericBinary n.wire = .ok s ∧ readDecimal s = some n.truncated ∧
      (n.EndsWithin → readDecimal s = some (n.withSign n.magnitude))
  unknown : n.sign ≠ numericPositive → n.sign ≠ numericNegative → n.sign ≠ numericNaN →
    ∀ s, decodeNumericBinary n.wire = .ok s → readDecimal s = none

end Numeric

/-- A `numeric` is decoded exactly unless its weight is the largest, where the counter of the
loop wraps, or its sign word is not known, where it is read as positive. -/
theorem numeric_decoded_iff (n : Numeric) : n.Decoded ↔ n.sign = numericNaN ∨
      ((n.sign = numericPositive ∨ n.sign = numericNegative) ↔ n.weight ≠ 32767) := by
  constructor
  · intro h
    by_cases hnan : n.sign = numericNaN
    · exact .inl hnan
    refine .inr ⟨fun hsign hw => ?_, fun hw => ?_⟩
    · obtain ⟨s, hs, _⟩ := h.exact hsign
      rw [n.decode_largest hnan hw] at hs
      cases hs
    · by_contra hsign
      rw [not_or] at hsign
      obtain ⟨s, hs, hr⟩ := n.exists_decode hnan hw
      rw [h.unknown hsign.1 hsign.2 hnan s hs] at hr
      cases hr
  · intro h
    constructor
    · intro hsign
      have hnan : n.sign ≠ numericNaN := by
        rcases hsign with hsign | hsign <;> rw [hsign] <;> decide
      obtain ⟨s, hs, hr⟩ := n.exists_decode hnan ((h.resolve_left hnan).mp hsign)
      exact ⟨s, hs, hr, fun he => by rw [hr, n.truncated_of_endsWithin he]⟩
    · intro hp hn hnan s hs
      have hw : n.weight = 32767 := by
        by_contra hw
        rcases (h.resolve_left hnan).mpr hw with hsign | hsign
        · exact hp hsign
        · exact hn hsign
      rw [n.decode_largest hnan hw] at hs
      cases hs

/-- The positive infinity, as the server sends it. -/
def infinity : Numeric where
  digits := []
  weight := 0
  sign := 0xD000
  dscale := 0
  digits_lt := by simp
  length_lt := by decide
  weight_ge := by decide
  weight_lt := by decide
  sign_lt := by decide
  dscale_lt := by decide

/-- A zero of the largest weight. -/
def largestWeight : Numeric where
  digits := []
  weight := 32767
  sign := numericPositive
  dscale := 0
  digits_lt := by simp
  length_lt := by decide
  weight_ge := by decide
  weight_lt := by decide
  sign_lt := by decide
  dscale_lt := by decide

/-- Infinity is returned as the number zero, and the largest weight is not decoded. -/
theorem infinity_not_decoded :
    decodeNumericBinary infinity.wire = .ok (ascii "0") ∧ ¬infinity.Decoded ∧
      ¬largestWeight.Decoded := by
  have hz : decodeNumericBinary infinity.wire = .ok (ascii "0") := by decide
  refine ⟨hz, fun h => ?_, fun h => ?_⟩
  · have hn := h.unknown (by decide) (by decide) (by decide) _ hz
    have hr : readDecimal (ascii "0") = some _ :=
      @readDecimal_digits (ascii "0") 0 false [] (by decide) rfl
    cases hn
  · obtain ⟨s, hs, _⟩ := h.exact (.inl rfl)
    rw [largestWeight.decode_largest (by decide) rfl] at hs
    cases hs

end Celeris.Postgres
