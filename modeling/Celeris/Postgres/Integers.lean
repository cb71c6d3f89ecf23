import Celeris.Conn.Wire
import Celeris.Data.BigEndian

/-!
# Integers (`internal/driver/postgres/protocol/types.go`)

The codecs of `int2`, `int4` and `int8` in binary, and the one in text that they share. The types
`int` and `uint` have 64 bits. Of the package `strconv` the model takes over that `AppendInt` writes
and `ParseInt` reads decimal numbers exactly.

`asInt64` refuses a `uint64` that no `int64` holds, and wraps a `uint` around.
-/

namespace Celeris.Postgres

open BigEndian Conn Client H1 List

/-! ## The codecs -/

/-- The integer types of Go. -/
inductive IntType where
  | int | int8 | int16 | int32 | int64 | uint | uint8 | uint16 | uint32 | uint64 | uintptr
deriving DecidableEq, Repr

/-- The numbers that a type holds. -/
def IntType.Holds (n : Int) : IntType → Prop
  | .int8 => -2 ^ 7 ≤ n ∧ n < 2 ^ 7
  | .int16 => -2 ^ 15 ≤ n ∧ n < 2 ^ 15
  | .int32 => -2 ^ 31 ≤ n ∧ n < 2 ^ 31
  | .int | .int64 => -2 ^ 63 ≤ n ∧ n < 2 ^ 63
  | .uint8 => 0 ≤ n ∧ n < 2 ^ 8
  | .uint16 => 0 ≤ n ∧ n < 2 ^ 16
  | .uint32 => 0 ≤ n ∧ n < 2 ^ 32
  | .uint | .uint64 | .uintptr => 0 ≤ n ∧ n < 2 ^ 64

/-- An integer of Go. -/
structure GoInt where
  type : IntType
  n : Int
  holds : type.Holds n

/-- A conversion to `int64`. -/
def int64 (x : Int) : Int := Int.bmod x (2 ^ 64)

def asInt64 (v : GoInt) : Except String Int :=
  let n := v.n
  match v.type with
  | .uint64 => if n > 2 ^ 63 - 1 then .error s!"postgres/protocol: uint64 {n} overflows int64"
      else .ok (int64 n)
  | .uintptr => .error "postgres/protocol: cannot encode uintptr as integer"
  | _ => .ok (int64 n)

/-- The encoders, by what they refuse and what they write. -/
def encodeAs (refused : Int → Option String) (write : Int → Bytes) (dst : Bytes) (v : GoInt) :
    Except String Bytes :=
  match asInt64 v with
  | .error e => .error e
  | .ok n => (refused n).elim (.ok (dst ++ write n)) .error

/-- The check of a type of `k` bytes. -/
def overflow (name : String) (k : Nat) (n : Int) : Option String :=
  if n < -2 ^ (8 * k - 1) ∨ n > 2 ^ (8 * k - 1) - 1 then
    some s!"postgres/protocol: {name} overflow {n}" else none

/-- The bytes of an integer of `k` bytes. -/
def writeBytes (k : Nat) (n : Int) : Bytes := bytes k (unsigned (8 * k) n)

def encodeInt2Binary : Bytes → GoInt → Except String Bytes :=
  encodeAs (overflow "int2" 2) (writeBytes 2)

def encodeInt4Binary : Bytes → GoInt → Except String Bytes :=
  encodeAs (overflow "int4" 4) (writeBytes 4)

def encodeInt8Binary : Bytes → GoInt → Except String Bytes :=
  encodeAs (fun _ => none) (writeBytes 8)

/-- `strconv.AppendInt` in decimal. -/
def formatInt (n : Int) : Bytes :=
  if n < 0 then 0x2D :: appendInt 10 n.natAbs else appendInt 10 n.natAbs

def encodeIntText : Bytes → GoInt → Except String Bytes := encodeAs (fun _ => none) formatInt

/-- The binary decoders, which `DecodeIntBinary` has once more inside. -/
def decodeWidth (name : String) (k : Nat) (src : Bytes) : Except String Int :=
  let length := src.length
  if length ≠ k then .error s!"postgres/protocol: {name} length = {length}"
    else .ok (signed (8 * k) (value src))

def decodeInt2Binary : Bytes → Except String Int := decodeWidth "int2" 2

def decodeInt4Binary : Bytes → Except String Int := decodeWidth "int4" 4

def decodeInt8Binary : Bytes → Except String Int := decodeWidth "int8" 8

/-- Whether there is a minus, and what is behind the sign. -/
def sign : Bytes → Bool × Bytes
  | 0x2D :: ds => (true, ds)
  | 0x2B :: ds => (false, ds)
  | ds => (false, ds)

def withSign (neg : Bool) (n : Nat) : Int := if neg then -n else n

def readInt (src : Bytes) : Option Int :=
  (readNumber 10 decDigit (sign src).2).map (withSign (sign src).1)

/-- `strconv.ParseInt` in decimal for 64 bits. -/
def parseInt (src : Bytes) : Except String Int :=
  match readInt src with
  | some x => if -2 ^ 63 ≤ x ∧ x ≤ 2 ^ 63 - 1 then .ok x else .error "value out of range"
  | none => .error "invalid syntax"

/-- The loop of `decodeIntText`; nothing where it leaves the string to `strconv`. -/
def intTextLoop (neg : Bool) (n : Nat) : Bytes → Option Nat
  | [] => some n
  | c :: ds =>
    match decDigit c with
    | none => none
    | some d =>
      let maxPos := 2 ^ 63 - 1
      if n > maxPos / 10 then none
      else
        let n := (n * 10 + d) % 2 ^ 64
        if n > maxPos ∧ (¬ neg ∨ n ≠ maxPos + 1) then none else intTextLoop neg n ds

def decodeIntText (src : Bytes) : Except String Int :=
  let (neg, ds) := sign src
  if ds = [] then .error "invalid syntax"
  else
    match intTextLoop neg 0 ds with
    | none => parseInt src
    | some n => .ok (if neg then int64 (-int64 n) else int64 n)

/-- If an integer is encoded at all, the same integer is decoded. -/
def Kept (encode : Bytes → GoInt → Except String Bytes) (decode : Bytes → Except String Int)
    (v : GoInt) : Prop :=
  ∀ dst b, encode dst v = .ok b → ∃ w, b = dst ++ w ∧ decode w = .ok v.n

/-! ## The text -/

variable {x : Int} {neg : Bool} {n : Nat} {ds src : Bytes}

theorem int64_of_fits (hl : -2 ^ 63 ≤ x) (hh : x < 2 ^ 63) : int64 x = x := by
  apply Int.bmod_eq_of_le_mul_two
  all_goals omega

/-- What the loop returns is the number of the digits, and an `int64` holds it with its sign. -/
theorem intTextLoop_some {m : Nat} (h : intTextLoop neg n ds = some m)
    (hn : n < 2 ^ 63 ∨ neg = true ∧ n = 2 ^ 63) :
    ds.foldlM (fun n c => (decDigit c).map fun d => n * 10 + d) n = some m ∧
      (m < 2 ^ 63 ∨ neg = true ∧ m = 2 ^ 63) := by
  induction ds generalizing n with
  | nil =>
    cases h
    exact ⟨rfl, hn⟩
  | cons c ds ih =>
    rw [intTextLoop] at h
    rw [foldlM_cons]
    cases hd : decDigit c with rw [hd] at h
    | none => cases h
    | some d =>
      have hlt := decDigit_lt hd
      dsimp only at h
      split_ifs at h with hb ho
      rw [Nat.mod_eq_of_lt (by omega)] at h ho
      refine ih h ?_
      cases neg <;> simp at ho ⊢ <;> omega

theorem parseInt_iff :
    parseInt src = .ok x ↔ readInt src = some x ∧ -2 ^ 63 ≤ x ∧ x ≤ 2 ^ 63 - 1 := by
  unfold parseInt
  cases readInt src with
  | none => exact iff_of_false nofun fun h => nomatch h.1
  | some y =>
    dsimp only
    split_ifs with hy
    · constructor
      · rintro ⟨⟩
        exact ⟨rfl, hy⟩
      · rintro ⟨⟨⟩, -⟩
        rfl
    · refine iff_of_false nofun ?_
      rintro ⟨⟨⟩, h⟩
      exact hy h

/-- The conversions of the loop's result, the lowest `int64` included. -/
theorem int64_withSign (hn : n < 2 ^ 63 ∨ neg = true ∧ n = 2 ^ 63) :
    (if neg then int64 (-int64 n) else int64 n) = withSign neg n ∧
      -2 ^ 63 ≤ withSign neg n ∧ withSign neg n ≤ 2 ^ 63 - 1 := by
  unfold withSign
  obtain hn | ⟨rfl, rfl⟩ := hn
  · have hp : int64 n = n := int64_of_fits (by omega) (by omega)
    have hm : int64 (-n) = -n := int64_of_fits (by omega) (by omega)
    rw [hp, hm]
    split_ifs
    all_goals exact ⟨rfl, by omega, by omega⟩
  · decide

/-- The decoder does what `strconv` does. -/
theorem decodeIntText_eq : decodeIntText src = parseInt src := by
  unfold decodeIntText parseInt readInt
  dsimp only
  by_cases hd : (sign src).2 = []
  · rw [if_pos hd, hd]
    rfl
  · rw [if_neg hd]
    cases hl : intTextLoop (sign src).1 0 (sign src).2 with
    | none => rfl
    | some n =>
      obtain ⟨hf, hn⟩ := intTextLoop_some hl (.inl (by decide))
      obtain ⟨hw, hr⟩ := int64_withSign hn
      rw [readNumber, if_neg (by simpa using hd), hf]
      simp only [Option.map_some, hw, if_pos hr]

theorem sign_of_not_mem (hm : 0x2D ∉ ds) (hp : 0x2B ∉ ds) : sign ds = (false, ds) := by
  unfold sign
  split <;> simp_all

theorem readInt_formatInt {n : Int} : readInt (formatInt n) = some n := by
  have hd : ∀ d < 10, decDigit (digitByte d) = some d := by decide
  have hr := readDecimal_appendInt n.natAbs
  unfold readInt
  by_cases h : n < 0
  · rw [formatInt, if_pos h, sign, hr]
    simp only [Option.map_some, withSign, if_true, Option.some.injEq]
    omega
  · rw [formatInt, if_neg h, sign_of_not_mem (not_mem_appendInt (by decide) hd (by decide))
      (not_mem_appendInt (by decide) hd (by decide)), hr]
    simp only [Option.map_some, withSign, Bool.false_eq_true, if_false, Option.some.injEq]
    omega

/-! ## The integers -/

variable {n : Int} {v : GoInt}

theorem decodeWidth_writeBytes {name : String} {k : Nat} (hl : -2 ^ (8 * k) ≤ 2 * n)
    (hh : 2 * n < 2 ^ (8 * k)) : decodeWidth name k (writeBytes k n) = .ok n := by
  rw [decodeWidth, writeBytes, length_bytes, signed_value_bytes hl hh]
  simp

theorem decodeIntText_formatInt (hl : -2 ^ 63 ≤ n) (hh : n < 2 ^ 63) :
    decodeIntText (formatInt n) = .ok n :=
  decodeIntText_eq.trans (parseInt_iff.mpr ⟨readInt_formatInt, hl, by omega⟩)

/-- A `uint` that no `int64` holds. -/
def GoInt.Wraps (v : GoInt) : Prop := v.type = .uint ∧ 2 ^ 63 ≤ v.n

theorem GoInt.range (v : GoInt) : -2 ^ 63 ≤ v.n ∧ v.n < 2 ^ 64 := by
  have hv := v.holds
  unfold IntType.Holds at hv
  split at hv
  all_goals omega

theorem asInt64_ok (h : asInt64 v = .ok n) : n = int64 v.n ∧ (v.n < 2 ^ 63 ∨ v.Wraps) := by
  have hv := v.holds
  unfold asInt64 at h
  cases ht : v.type with simp only [ht, IntType.Holds] at h hv
  | uint =>
    cases h
    exact ⟨rfl, (lt_or_ge v.n (2 ^ 63)).imp_right (.intro ht)⟩
  | uint64 =>
    split_ifs at h
    cases h
    exact ⟨rfl, .inl (by omega)⟩
  | uintptr => cases h
  | _ =>
    cases h
    exact ⟨rfl, .inl (by omega)⟩

theorem int64_of_wraps (h : v.Wraps) : v.n - 2 ^ 64 = int64 v.n := by
  obtain ⟨-, hv⟩ := v.range
  obtain ⟨-, hl⟩ := h
  rw [← int64_of_fits (x := v.n - 2 ^ 64) (by omega) (by omega), int64, int64]
  exact Int.sub_bmod_right ..

/-- Encoders that refuse what is below some number, or not below the same without its sign. -/
theorem kept_iff {refused : Int → Option String} {write : Int → Bytes}
    {decode : Bytes → Except String Int} {low : Int}
    (hr : ∀ n, -2 ^ 63 ≤ n → n < 2 ^ 63 → (refused n = none ↔ low ≤ n ∧ n < -low))
    (hd : ∀ n, low ≤ n → n < -low → decode (write n) = .ok n) :
    Kept (encodeAs refused write) decode v ↔ ¬ (v.Wraps ∧ low ≤ v.n - 2 ^ 64) := by
  have hl : -2 ^ 63 ≤ int64 v.n := Int.le_bmod (by decide)
  have hh : int64 v.n < 2 ^ 63 := Int.bmod_lt (by decide)
  constructor
  · rintro h ⟨hv, hn⟩
    have hw := int64_of_wraps hv
    rw [hw] at hn
    have hb : int64 v.n < -low := by have := v.range; omega
    have he : encodeAs refused write [] v = .ok ([] ++ write (int64 v.n)) := by
      simp [encodeAs, asInt64, hv.1, (hr _ hl hh).mpr ⟨hn, hb⟩]
    obtain ⟨w, hs, hd'⟩ := h _ _ he
    rw [append_cancel_left hs.symm, hd _ hn hb] at hd'
    have := Except.ok.inj hd'
    omega
  · intro h dst b hb
    unfold encodeAs at hb
    split at hb
    · cases hb
    · rename_i n hn
      obtain ⟨rfl, hv⟩ := asInt64_ok hn
      cases hf : refused (int64 v.n) with rw [hf] at hb
      | some e => cases hb
      | none =>
        cases hb
        obtain ⟨h₁, h₂⟩ := (hr _ hl hh).mp hf
        refine ⟨_, rfl, (hd _ h₁ h₂).trans (congrArg Except.ok ?_)⟩
        obtain hv | hv := hv
        · exact int64_of_fits v.range.1 hv
        · rw [← int64_of_wraps hv] at h₁
          exact (h ⟨hv, h₁⟩).elim

/-- An integer is kept by an encoder and its decoder unless it is a `uint` that wraps around to an
integer that the encoder takes, and the text decoder is exact. -/
theorem integers_kept_iff (v : GoInt) (src : Bytes) (x : Int) :
    (Kept encodeInt2Binary decodeInt2Binary v ↔ ¬ (v.Wraps ∧ -2 ^ 15 ≤ v.n - 2 ^ 64)) ∧
      (Kept encodeInt4Binary decodeInt4Binary v ↔ ¬ (v.Wraps ∧ -2 ^ 31 ≤ v.n - 2 ^ 64)) ∧
      (Kept encodeInt8Binary decodeInt8Binary v ↔ ¬ v.Wraps) ∧
        (Kept encodeIntText decodeIntText v ↔ ¬ v.Wraps) ∧
      (decodeIntText src = .ok x ↔ readInt src = some x ∧ -2 ^ 63 ≤ x ∧ x ≤ 2 ^ 63 - 1) := by
  have hw : v.Wraps ↔ v.Wraps ∧ -2 ^ 63 ≤ v.n - 2 ^ 64 :=
    (and_iff_left_of_imp fun h => by have := h.2; omega).symm
  have ho : ∀ {name k n}, overflow name k n = none ↔ -2 ^ (8 * k - 1) ≤ n ∧
      n < -(-2 ^ (8 * k - 1)) := by
    intro name k n
    unfold overflow
    split_ifs with h
    · exact iff_of_false nofun (by omega)
    · exact iff_of_true rfl (by omega)
  refine ⟨kept_iff (fun n _ _ => ho) ?_, kept_iff (fun n _ _ => ho) ?_, ?_, ?_, ?_⟩
  · exact fun n hl hh => decodeWidth_writeBytes (by omega) (by omega)
  · exact fun n hl hh => decodeWidth_writeBytes (by omega) (by omega)
  · rw [hw]
    refine kept_iff (fun n hl hh => iff_of_true rfl ⟨hl, hh⟩) fun n hl hh => ?_
    exact decodeWidth_writeBytes (by omega) (by omega)
  · rw [hw]
    exact kept_iff (fun n hl hh => iff_of_true rfl ⟨hl, hh⟩) fun n hl hh => decodeIntText_formatInt
      hl hh
  · rw [decodeIntText_eq, parseInt_iff]

/-- The highest `uint` is encoded as -1. -/
theorem uint_changed :
    encodeInt2Binary [] ⟨.uint, 2 ^ 64 - 1, by constructor <;> decide⟩ = .ok [0xFF, 0xFF] ∧
    decodeInt2Binary [0xFF, 0xFF] = .ok (-1) := by
  decide +kernel

end Celeris.Postgres
