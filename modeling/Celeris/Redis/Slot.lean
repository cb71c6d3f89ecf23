import Celeris.Data.Crc
import Celeris.H1.Fields

/-!
# Slots of a cluster (`driver/redis/cluster_slot.go`)

The slot of a key is the checksum of its hash tag, if it has one that is not empty, and of the whole
key otherwise. The checksum is compared with the division of polynomials over two elements that
defines it.
-/

open Polynomial

namespace Celeris.Redis

open Crc

/-- A round of the inner loop of `crc16`. -/
def crcBit (crc : BitVec 16) : BitVec 16 :=
  if crc &&& 0x8000 ≠ 0 then crc <<< 1 ^^^ 0x1021 else crc <<< 1

def crcByte (crc : BitVec 16) (b : UInt8) : BitVec 16 :=
  crcBit^[8] (crc ^^^ b.toBitVec.setWidth 16 <<< 8)

/-- The CRC-CCITT (XMODEM) checksum. -/
def crc16 (data : Bytes) : BitVec 16 := data.foldl crcByte 0

/-- The part of a key that `Slot` hashes. -/
def hashTag (key : Bytes) : Bytes :=
  match H1.cut 0x7b key with
  | none => key
  | some (_, rest) =>
    match H1.cut 0x7d rest with
    | none => key
    | some (tag, _) => if 0 < tag.length then tag else key

def slot (key : Bytes) : BitVec 16 := crc16 (hashTag key) % 16384

/-! ## The checksum -/

/-- The polynomial of the bits of a string, the highest bit of its first byte first. -/
noncomputable def bits (data : Bytes) : (ZMod 2)[X] :=
  data.foldl (fun p b => X ^ 8 * p + poly b.toBitVec) 0

theorem crcBit_eq (crc : BitVec 16) : crcBit crc = shift 0x1021 crc := by
  have hb : crc &&& 0x8000 ≠ 0 ↔ crc.getLsbD 15 = true := by
    rw [show (0x8000 : BitVec 16) = BitVec.twoPow 16 15 by rfl, BitVec.and_twoPow]
    cases crc.getLsbD 15 <;> decide
  simp only [crcBit, shift, hb]

theorem poly_one : poly 1#1 = 1 := by
  ext i
  rw [coeff_poly, coeff_one]
  cases i <;> simp

theorem divisor_eq : divisor (0x1021 : BitVec 16) = X ^ 16 + X ^ 12 + X ^ 5 + 1 := by
  have hk : (0x1021 : BitVec 16) =
      (1#1).setWidth 16 <<< 12 ^^^ (1#1).setWidth 16 <<< 5 ^^^ (1#1).setWidth 16 <<< 0 := by decide
  rw [divisor, hk, poly_xor, poly_xor, poly_setWidth_shiftLeft (by decide),
    poly_setWidth_shiftLeft (by decide), poly_setWidth_shiftLeft (by decide), poly_one]
  ring

/-- A byte more: the register is congruent to the bits so far, with room for the checksum. -/
theorem divisor_dvd_crc16 {data : Bytes} :
    divisor (0x1021 : BitVec 16) ∣ bits data * X ^ 16 - poly (crc16 data) := by
  induction data using List.reverseRecOn with
  | nil => simp [bits, crc16, poly_zero]
  | append_singleton data b ih =>
    have hb : bits (data ++ [b]) = X ^ 8 * bits data + poly b.toBitVec := by
      rw [bits, List.foldl_append]
      rfl
    have hc : crc16 (data ++ [b]) = (shift 0x1021)^[8]
        (crc16 data ^^^ b.toBitVec.setWidth 16 <<< 8) := by
      rw [crc16, List.foldl_append, ← funext crcBit_eq]
      rfl
    have hs := divisor_dvd_shifts (g := (0x1021 : BitVec 16)) (k := 8)
      (c := crc16 data ^^^ b.toBitVec.setWidth 16 <<< 8) (by decide)
    rw [poly_xor, poly_setWidth_shiftLeft (by decide)] at hs
    rw [hb, hc]
    convert dvd_add (ih.mul_left (X ^ 8)) hs using 1
    ring

/-! ## The tag -/

/-- The text between the first opening brace of a key and the first closing one behind it. -/
def Tagged (key tag : Bytes) : Prop :=
  ∃ before behind, key = before ++ 0x7b :: (tag ++ 0x7d :: behind) ∧ 0x7b ∉ before ∧ 0x7d ∉ tag

variable {key tag : Bytes}

theorem hashTag_of_tagged (h : Tagged key tag) :
    hashTag key = if 0 < tag.length then tag else key := by
  obtain ⟨before, behind, rfl, hb, ht⟩ := h
  simp only [hashTag, H1.cut_append hb, H1.cut_append ht]

theorem hashTag_of_untagged (h : ∀ tag, Tagged key tag → tag = []) : hashTag key = key := by
  unfold hashTag
  cases ho : H1.cut 0x7b key with
  | none => rfl
  | some x =>
    obtain ⟨hk, hb⟩ := H1.cut_eq_some ho
    cases hc : H1.cut 0x7d x.2 with
    | none => simp only [hc]
    | some y =>
      obtain ⟨hr, ht⟩ := H1.cut_eq_some hc
      have hnil : y.1 = [] := h y.1 ⟨x.1, y.2, by rw [hk, hr], hb, ht⟩
      simp [hc, hnil]

/-- The checksum is the remainder of the bits times `X ^ 16`, and the slot of a key is that of its
tag, if it has one that is not empty, so that keys with one tag share a slot. -/
theorem slot_checksum :
    (∀ data, poly (crc16 data) = bits data * X ^ 16 %ₘ (X ^ 16 + X ^ 12 + X ^ 5 + 1)) ∧
    (∀ key tag, Tagged key tag → tag ≠ [] → slot key = crc16 tag % 16384) ∧
    (∀ key, (∀ tag, Tagged key tag → tag = []) → slot key = crc16 key % 16384) ∧
    ∀ key key' tag, Tagged key tag → Tagged key' tag → tag ≠ [] → slot key = slot key' := by
  have ht (key tag : Bytes) (h : Tagged key tag) (hne : tag ≠ []) : slot key =
      crc16 tag % 16384 := by
    rw [slot, hashTag_of_tagged h, if_pos (List.length_pos_of_ne_nil hne)]
  refine ⟨fun data => ?_, ht, fun key h => ?_, fun key key' tag h h' hne => ?_⟩
  · rw [poly_eq_modByMonic divisor_dvd_crc16, divisor_eq]
  · rw [slot, hashTag_of_untagged h]
  · rw [ht key tag h hne, ht key' tag h' hne]

end Celeris.Redis
