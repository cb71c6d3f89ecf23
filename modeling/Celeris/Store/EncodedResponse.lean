import Celeris.Data.Bytes
import Celeris.Data.Codec

/-!
# Stored responses (`middleware/store/encode.go`)

The cache and the idempotency middleware store a response as bytes: a version, the status, the
number of headers, each header as its name and value behind their lengths, and the body. The
lengths and the number have 16 bits and are written without a look at their size.

What is read always fits these fields. So a response that fits is read back, and one that does
not is either refused or read as another: `roundTrips_iff` says which.
-/

namespace Celeris.Store

open Option BigEndian Codec List Nat

def responseWireVersion : UInt8 := 1

structure EncodedResponse where
  status : Nat
  headers : List (Bytes × Bytes)
  body : Bytes
deriving DecidableEq, Repr

/-! ## Writing -/

/-- `binary.BigEndian.PutUint16` of `uint16(n)`. -/
def putUint16 (n : Nat) : Bytes := bytes 2 n

/-- What `AppendTo` appends for a header. -/
def appendHeader (h : Bytes × Bytes) : Bytes :=
  putUint16 h.1.length ++ h.1 ++ (putUint16 h.2.length ++ h.2)

def EncodedResponse.appendTo (r : EncodedResponse) (dst : Bytes) : Bytes :=
  dst ++ [responseWireVersion] ++ putUint16 r.status ++ putUint16 r.headers.length ++
    r.headers.flatMap appendHeader ++ r.body

def EncodedResponse.encode (r : EncodedResponse) : Bytes := r.appendTo []

/-! ## Reading -/

/-- `binary.BigEndian.Uint16` of the two bytes at the front. -/
def uint16 (b : Bytes) : Nat := value (b.take 2)

/-- One round of the loop of `DecodeResponse`: a header and the bytes behind it. -/
def readHeader (b : Bytes) : Option ((Bytes × Bytes) × Bytes) :=
  if b.length < 2 then none
  else
    let kLen := uint16 b
    let b := b.drop 2
    if b.length < kLen + 2 then none
    else
      let key := b.take kLen
      let b := b.drop kLen
      let vLen := uint16 b
      let b := b.drop 2
      if b.length < vLen then none else some ((key, b.take vLen), b.drop vLen)

/-- The loop of `DecodeResponse`. -/
def readHeaders : Nat → Bytes → Option (List (Bytes × Bytes) × Bytes)
  | 0, b => some ([], b)
  | n + 1, b => do
      let (h, b) ← readHeader b
      let (hs, b) ← readHeaders n b
      some (h :: hs, b)

def decodeResponse (buf : Bytes) : Option EncodedResponse :=
  if buf.length < 5 then none
  else if buf.head? ≠ some responseWireVersion then none
  else do
    let (headers, body) ← readHeaders (uint16 (buf.drop 3)) (buf.drop 5)
    some { status := uint16 (buf.drop 1), headers := headers, body := body }

/-! ## What is read -/

/-- A header whose lengths fit their fields. -/
def Short (h : Bytes × Bytes) : Prop := h.1.length < 65536 ∧ h.2.length < 65536

instance (h : Bytes × Bytes) : Decidable (Short h) := inferInstanceAs (Decidable (_ ∧ _))

def header : Codec (Bytes × Bytes) := (Codec.block 2).pair (.block 2)

variable {b : Bytes} {n : Nat} {r : EncodedResponse}

theorem block_decode (h : 2 ≤ b.length) : (Codec.block 2).decode b =
      if uint16 b ≤ (b.drop 2).length then
        some ((b.drop 2).take (uint16 b), (b.drop 2).drop (uint16 b))
      else none := by
  simp only [block, nat, if_pos h, bind_some]
  rfl

theorem block_decode_short (h : ¬ 2 ≤ b.length) : (Codec.block 2).decode b = none := by
  simp [block, nat, if_neg h]

theorem readHeader_eq : readHeader b = header.decode b := by
  unfold readHeader header Codec.pair
  simp only
  split
  · rw [block_decode_short (by omega)]
    rfl
  rw [block_decode (by omega)]
  by_cases hn : uint16 b ≤ (b.drop 2).length
  · rw [if_pos hn, bind_some]
    simp only
    have hd : ((b.drop 2).drop (uint16 b)).length = (b.drop 2).length - uint16 b := length_drop ..
    split
    · rw [block_decode_short (by omega)]
      rfl
    · rw [block_decode (by omega)]
      split
      · rename_i hv
        rw [if_neg (not_le.mpr hv)]
        rfl
      · rename_i hv
        rw [if_pos (not_lt.mp hv)]
        rfl
  · rw [if_pos (by omega), if_neg hn]
    rfl

theorem readHeaders_eq : readHeaders n b = header.readMany n b := by
  induction n generalizing b with
  | zero => rfl
  | succ n ih =>
    rw [readHeaders, readMany, readHeader_eq]
    refine bind_congr fun x _ => ?_
    change (readHeaders n x.2).bind _ = _
    rw [ih, map_eq_bind]
    rfl

/-- Headers that fit are read from their bytes, and from no others. -/
theorem readHeaders_eq_some_iff {rest : Bytes} {hs : List (Bytes × Bytes)} :
    readHeaders n b = some (hs, rest) ↔
      hs.length = n ∧ (∀ h ∈ hs, Short h) ∧ b = hs.flatMap appendHeader ++ rest := by
  rw [readHeaders_eq]
  exact header.readMany_iff

theorem bytes_two : bytes 2 n = [UInt8.ofNat (n / 256), UInt8.ofNat n] := rfl

/-- What the bytes of a response are read as. -/
theorem decodeResponse_encode : decodeResponse r.encode =
      (readHeaders (r.headers.length % 65536) (r.headers.flatMap appendHeader ++ r.body)).map
        fun x => { status := r.status % 65536, headers := x.1, body := x.2 } := by
  have hv (n : Nat) : value (bytes 2 n) = n % 65536 := by
    rw [← bytes_mod]
    exact value_bytes (mod_lt _ (by decide))
  have he : r.encode = responseWireVersion :: (bytes 2 r.status ++
      (bytes 2 r.headers.length ++ (r.headers.flatMap appendHeader ++ r.body))) := by
    simp [EncodedResponse.encode, EncodedResponse.appendTo, putUint16]
  rw [he, ← hv, ← hv, bytes_two, bytes_two]
  rw [decodeResponse, if_neg (by simp), if_neg (by simp), map_eq_bind]
  rfl

/-! ## Round trips -/

def EncodedResponse.Representable (r : EncodedResponse) : Prop :=
  r.headers.length < 65536 ∧ ∀ h ∈ r.headers, Short h

instance (r : EncodedResponse) : Decidable r.Representable := inferInstanceAs (Decidable (_ ∧ _))

/-- The headers and the body of a response, written out with 16-bit lengths, are also those of as
many headers as its 16-bit number says, all of which fit, and of a body. -/
def EncodedResponse.ReframesAs (r : EncodedResponse) (hs : List (Bytes × Bytes)) (body : Bytes) :
    Prop :=
  hs.length = r.headers.length % 65536 ∧ (∀ h ∈ hs, Short h) ∧
    r.headers.flatMap appendHeader ++ r.body = hs.flatMap appendHeader ++ body

def EncodedResponse.Reframes (r : EncodedResponse) : Prop := ∃ hs body, r.ReframesAs hs body

/-- What is read is any way to take the bytes apart. -/
theorem mem_decodeResponse_encode {r' : EncodedResponse} : r' ∈ decodeResponse r.encode ↔
    ∃ hs body, r.ReframesAs hs body ∧ { status := r.status % 65536, headers := hs, body := body } =
      r' := by
  simp only [Option.mem_def, decodeResponse_encode, map_eq_some_iff, Prod.exists,
    readHeaders_eq_some_iff]
  rfl

/-- Decoding gives back the response or fails. -/
def EncodedResponse.RoundTrips (r : EncodedResponse) : Prop :=
  decodeResponse r.encode = some r ∨ decodeResponse r.encode = none

theorem decodeResponse_encode_of_representable (hs : r.status ≤ 65535)
    (h : r.Representable) : decodeResponse r.encode = some r := by
  have hr : readHeaders r.headers.length (r.headers.flatMap appendHeader ++ r.body) =
      some (r.headers, r.body) :=
    readHeaders_eq_some_iff.mpr ⟨rfl, h.2, rfl⟩
  rw [decodeResponse_encode, mod_eq_of_lt h.1, hr, map_some, mod_eq_of_lt (by omega)]

/-- What is read is always small enough. -/
theorem representable_of_decodeResponse {r' : EncodedResponse}
    (h : decodeResponse r.encode = some r') : r'.Representable := by
  obtain ⟨hs, body, ⟨hl, hsh, -⟩, rfl⟩ := mem_decodeResponse_encode.mp h
  refine ⟨?_, hsh⟩
  rw [hl]
  exact mod_lt _ (by decide)

theorem decodeResponse_encode_eq_none_iff : decodeResponse r.encode = none ↔ ¬ r.Reframes := by
  rw [eq_none_iff_forall_not_mem]
  constructor
  · rintro h ⟨hs, body, hr⟩
    exact h _ (mem_decodeResponse_encode.mpr ⟨hs, body, hr, rfl⟩)
  · rintro h r' hr
    obtain ⟨hs, body, hr, -⟩ := mem_decodeResponse_encode.mp hr
    exact h ⟨hs, body, hr⟩

/-- A response is read back or refused exactly if it fits, or its bytes do not fall into headers
and a body in another way. -/
theorem roundTrips_iff (r : EncodedResponse) (hstatus : r.status ≤ 65535) :
    r.RoundTrips ↔ r.Representable ∨ ¬ r.Reframes := by
  rw [EncodedResponse.RoundTrips, decodeResponse_encode_eq_none_iff]
  constructor
  · rintro (h | h)
    · exact .inl (representable_of_decodeResponse h)
    · exact .inr h
  · rintro (h | h)
    · exact .inl (decodeResponse_encode_of_representable hstatus h)
    · exact .inr h

def greeting : EncodedResponse :=
  { status := 200, headers := [(ascii "x", ascii "y")], body := ascii "hi" }

theorem roundTrips_iff_greeting : greeting.status ≤ 65535 ∧ greeting.RoundTrips :=
  ⟨by decide, (roundTrips_iff greeting (by decide)).mpr (.inl (by decide))⟩

def oneHeader (value : Bytes) : EncodedResponse :=
  { status := 200, headers := [(ascii "x", value)], body := [] }

theorem decodeResponse_oneHeader {value : Bytes} (h : value.length = 65536) :
    decodeResponse (oneHeader value).encode =
      some { status := 200, headers := [(ascii "x", [])], body := value } := by
  have hf : (oneHeader value).headers.flatMap appendHeader ++ (oneHeader value).body =
      [(ascii "x", [])].flatMap appendHeader ++ value := by
    simp [oneHeader, appendHeader, putUint16, bytes_two, h]
  have hr : readHeaders 1 ((oneHeader value).headers.flatMap appendHeader ++
    (oneHeader value).body) =
      some ([(ascii "x", [])], value) :=
    readHeaders_eq_some_iff.mpr ⟨rfl, by decide, hf⟩
  rw [decodeResponse_encode]
  exact congrArg _ hr

/-- A response with a header of 64 KiB is read as another. -/
theorem longHeader_not_roundTrips : (oneHeader (List.replicate 65536 0x61)).status ≤ 65535 ∧
      ¬ (oneHeader (List.replicate 65536 0x61)).RoundTrips := by
  have hr := decodeResponse_oneHeader (length_replicate (n := 65536) (a := (0x61 : UInt8)))
  refine ⟨by decide, ?_⟩
  rintro (h | h)
  · rw [hr, some.injEq, EncodedResponse.mk.injEq] at h
    have hv : ([] : Bytes) = replicate 65536 0x61 := (Prod.mk.inj (cons.inj h.2.1).1).2
    exact absurd (congrArg length hv) (by rw [length_replicate]; decide)
  · rw [hr] at h
    cases h

end Celeris.Store
