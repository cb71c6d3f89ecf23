import Celeris.Memcached.Commands
import Celeris.RateLimit.TokenBucket

/-!
# The memcached store (`middleware/ratelimit/memcachedstore`)

`Allow` and `Undo` read the bucket of a key with its token, work out the next one, and write it
with an `add` or a `cas`, which fails if the key has changed in between. They are written here as
what is done with the reply to each command, so that other clients can come in between two
commands.
-/

namespace Celeris.RateLimit

open Memcached BigEndian

variable {K : Type} [Field K] [LinearOrder K] [IsStrictOrderedRing K] [FloorRing K]
  [Int64Conversion K]

def maxCASRetries : Nat := 24

/-! ## Allow -/

/-- The errors of `Allow` and `Undo`. -/
inductive StoreError where
  | client (e : ClientError)
  /-- The blob in the store is not a bucket. -/
  | badBucket
  /-- The retries are used up. -/
  | exhausted
deriving DecidableEq, Repr

/-- Where a call of `Allow` is. -/
inductive Phase (K : Type) where
  /-- Before `Gets`. -/
  | gets
  /-- Before the bucket is written, over the item with a token or, if it is 0, over none. -/
  | write (cas : UInt64) (state : Bucket K) (allowed : Bool)
  | returned (result : Except StoreError Decision)

/-- A call of `Allow`. -/
structure Call (K : Type) where
  now : Int
  attempt : Nat := 0
  phase : Phase K := .gets

/-- The next round of the loop, if there is one. -/
def Call.retry (c : Call K) : Call K :=
  if c.attempt < maxCASRetries then { c with attempt := c.attempt + 1, phase := .gets }
  else { c with phase := .returned (.error .exhausted) }

/-- `Allow`, with what `Gets` returns. -/
def Call.got (l : Limit K) (c : Call K) (reply : Except ClientError CASItem) : Call K :=
  match reply with
  | .ok item =>
    let (allowed, state) :=
      memcachedRefill l ((decodeBucket item.value).getD ⟨l.burst, c.now⟩) c.now
    { c with phase := .write item.cas state allowed }
  | .error .cacheMiss =>
    let (allowed, state) := memcachedRefill l ⟨l.burst, c.now⟩ c.now
    { c with phase := .write 0 state allowed }
  | .error e => { c with phase := .returned (.error (.client e)) }

/-- `Allow`, with what `AddBytes` returns. -/
def Call.added (l : Limit K) (c : Call K) (state : Bucket K) (allowed : Bool)
    (reply : Except ClientError Unit) : Call K :=
  match reply with
  | .ok () => { c with phase := .returned (.ok (allowDecision l c.now state allowed)) }
  | .error .notStored => c.retry
  | .error e => { c with phase := .returned (.error (.client e)) }

/-- `Allow`, with what `CASBytes` returns. -/
def Call.swapped (l : Limit K) (c : Call K) (state : Bucket K) (allowed : Bool)
    (reply : Except ClientError Bool) : Call K :=
  match reply with
  | .error e => { c with phase := .returned (.error (.client e)) }
  | .ok false => c.retry
  | .ok true => { c with phase := .returned (.ok (allowDecision l c.now state allowed)) }

/-! ## The replies -/

/-- What `Gets` returns for an item of the store. -/
def getsReply (key : Bytes) : Option Item → Except ClientError CASItem
  | none => .error .cacheMiss
  | some it => .ok ⟨key, it.value, it.flags, it.cas⟩

/-- What `AddBytes` returns, in a dialect. -/
def addReply (binary : Bool) : Option Item → Except ClientError Unit
  | none => .ok ()
  | some _ => .error (if binary then .casConflict else .notStored)

/-- What `CASBytes` returns, in either dialect. -/
def casReply (cas : UInt64) : Option Item → Except ClientError Bool
  | none => .error .cacheMiss
  | some it => if it.cas = cas then .ok true else .error .casConflict

/-! ## What is stored -/

theorem signed_value_bytes {x : Int} (hl : -2 ^ 63 ≤ x) (hh : x < 2 ^ 63) :
    signed 64 (value (bytes 8 (unsigned 64 x))) = x := by
  rw [value_bytes (unsigned_lt 64 x), signed_unsigned (by omega) (by omega)]

/-- A bucket is read back with its tokens cut to millionths. -/
theorem decodeBucket_encodeBucket {l : Limit K} (hbu : l.burst * 10 ^ 6 < 2 ^ 63) {b : Bucket K}
    (hb : l.Holds b) (hlow : -2 ^ 63 ≤ b.last) (hh : b.last < 2 ^ 63) :
    ∃ tokens : K, decodeBucket (encodeBucket b) = some ⟨tokens, b.last⟩ ∧ 0 ≤ tokens ∧
      tokens ≤ b.tokens := by
  have hs : b.tokens * 10 ^ 6 < 2 ^ 63 := by
    have hc : (l.burst : K) * 10 ^ 6 < 2 ^ 63 := by exact_mod_cast hbu
    have hle : b.tokens * 10 ^ 6 ≤ l.burst * 10 ^ 6 :=
      mul_le_mul_of_nonneg_right hb.2 (by positivity)
    exact hle.trans_lt hc
  have hn : 0 ≤ b.tokens * 10 ^ 6 := mul_nonneg hb.1 (by positivity)
  have hf := toInt64_eq_floor hn hs
  have hp : 0 ≤ ⌊b.tokens * 10 ^ 6⌋ := Int.floor_nonneg.mpr hn
  have hlt : ⌊b.tokens * 10 ^ 6⌋ < 2 ^ 63 := by
    rw [Int.floor_lt]
    exact_mod_cast hs
  refine ⟨(⌊b.tokens * 10 ^ 6⌋ : K) / 10 ^ 6, ?_, ?_, ?_⟩
  · have hl (n : Nat) : (bytes 8 n).length = 8 := length_bytes 8 n
    rw [decodeBucket, encodeBucket, if_neg (by simp [hl]), List.take_left' (hl _),
      List.drop_left' (hl _), signed_value_bytes hlow hh, hf, signed_value_bytes (by omega) hlt]
  · exact div_nonneg (Int.cast_nonneg hp) (by positivity)
  · rw [div_le_iff₀ (by positivity)]
    exact Int.floor_le _

/-- What is stored for a call does what the call may do. -/
theorem Abides.stored {l : Limit K} (hb : l.burst * 10 ^ 6 < 2 ^ 63) {now : Int} {b b' : Bucket K}
    {allowed : Bool} (h : Abides l now b allowed b') (hl : -2 ^ 63 ≤ now) (hh : now < 2 ^ 63) :
    ∃ b'', decodeBucket (encodeBucket b') = some b'' ∧ Abides l now b allowed b'' := by
  obtain ⟨tokens, hd, hn, hle⟩ :=
    decodeBucket_encodeBucket hb h.holds (h.last ▸ hl) (h.last ▸ hh)
  refine ⟨_, hd, h.last, ⟨hn, hle.trans h.holds.2⟩, ?_⟩
  have hs := h.spent
  linarith

end Celeris.RateLimit
