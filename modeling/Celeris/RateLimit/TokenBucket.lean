import Celeris.Data.BigEndian
import Celeris.Data.Bytes
import Mathlib.Algebra.Order.Archimedean.Basic
import Mathlib.Tactic.FieldSimp
import Mathlib.Tactic.Linarith
import Mathlib.Tactic.Positivity

/-!
# Token buckets (`middleware/ratelimit`)

A bucket holds tokens and the time of its last refill. A call first adds what has come in since
then, up to the size of the bucket, and then takes a token if there is one. There are three
implementations of such a call: `shardedLimiter.allow`, the loop of the memcached store and the
script of the Redis store. The arithmetic on tokens is that of an ordered field in place of
`float64`; times are `int64` numbers of nanoseconds.

`Abides` says what a call may do to a bucket when time has not stepped back, and each
implementation does. What follows from it about any number of calls is said once, of `Balanced`
accounts.
-/

namespace Celeris.RateLimit

open BigEndian

variable {K : Type} [Field K] [LinearOrder K] [IsStrictOrderedRing K] [FloorRing K]

/-- The conversion `int64(x)` of a number. Below 0 and from `2^63` on nothing is asked of it. -/
class Int64Conversion (K : Type) [Field K] [LinearOrder K] [IsStrictOrderedRing K]
  [FloorRing K] where
  toInt64 : K → Int
  toInt64_eq_floor : ∀ {x : K}, 0 ≤ x → x < 2 ^ 63 → toInt64 x = ⌊x⌋

export Int64Conversion (toInt64 toInt64_eq_floor)

/-- The conversion on `amd64`: towards 0, and to `-2^63` where the number is out of range. -/
instance : Int64Conversion ℚ where
  toInt64 x := if -2 ^ 63 ≤ x ∧ x < 2 ^ 63 then (if 0 ≤ x then ⌊x⌋ else ⌈x⌉) else -2 ^ 63
  toInt64_eq_floor := by
    intro x hn hlt
    have hl : -2 ^ 63 ≤ x := by linarith
    rw [if_pos ⟨hl, hlt⟩, if_pos hn]

/-- A rate and a burst, as they are configured. -/
structure Limit (K : Type) [Field K] [LinearOrder K] where
  rps : K
  burst : Nat
  rps_pos : 0 < rps
  burst_pos : 0 < burst

/-- `bucket`, `bucketState` and the hash of the script. -/
structure Bucket (K : Type) where
  tokens : K
  last : Int
deriving DecidableEq, Repr

/-- What a call returns. -/
structure Decision where
  allowed : Bool
  remaining : Int
  /-- The time of the reset. -/
  reset : Int
deriving DecidableEq, Repr

/-- The sum of two `int64`. -/
def add64 (a b : Int) : Int := Int.bmod (a + b) (2 ^ 64)

/-- The difference of two `int64`. -/
def sub64 (a b : Int) : Int := Int.bmod (a - b) (2 ^ 64)

/-- Nanoseconds in a second, which is also `time.Second`. -/
def second : K := 10 ^ 9

omit [FloorRing K] in
theorem second_pos : 0 < (second : K) := by
  unfold second
  positivity

/-! ## The implementations -/

/-- `shardedLimiter.allow`, of the bucket of a key. -/
def shardedAllow [Int64Conversion K] (l : Limit K) (b : Option (Bucket K)) (now : Int) :
    Decision × Bucket K :=
  match b with
  | none =>
    (⟨true, l.burst - 1, add64 now (toInt64 (second / l.rps))⟩, ⟨l.burst - 1, now⟩)
  | some b =>
    let elapsed : K := (sub64 now b.last : K) / second
    let elapsed := if elapsed < 0 then 0 else elapsed
    let tokens := b.tokens + elapsed * l.rps
    let tokens := if tokens > l.burst then (l.burst : K) else tokens
    if tokens < 1 then
      (⟨false, 0, add64 now (toInt64 ((1 - tokens) / l.rps * second))⟩, ⟨tokens, now⟩)
    else
      (⟨true, toInt64 (tokens - 1), add64 now (toInt64 (second / l.rps))⟩, ⟨tokens - 1, now⟩)

/-- The refill in `Store.Allow` of the memcached store, and whether the call is allowed. -/
def memcachedRefill (l : Limit K) (state : Bucket K) (now : Int) : Bool × Bucket K :=
  let elapsed : K := (sub64 now state.last : K) / second
  let tokens :=
    if elapsed > 0 then
      let tokens := state.tokens + elapsed * l.rps
      if tokens > l.burst then (l.burst : K) else tokens
    else state.tokens
  if tokens ≥ 1 then (true, ⟨tokens - 1, now⟩) else (false, ⟨tokens, now⟩)

/-- What `Allow` of the memcached store returns when its bucket is written. -/
def allowDecision [Int64Conversion K] (l : Limit K) (now : Int) (state : Bucket K)
    (allowed : Bool) : Decision :=
  let missing := if 1 - state.tokens < 0 then 0 else 1 - state.tokens
  ⟨allowed, toInt64 state.tokens, add64 now (toInt64 (missing * 10 ^ 9 / l.rps))⟩

/-- `encodeBucketInto` of the memcached store. -/
def encodeBucket [Int64Conversion K] (b : Bucket K) : Bytes :=
  bytes 8 (unsigned 64 b.last) ++
    bytes 8 (unsigned 64 (toInt64 (b.tokens * 10 ^ 6)))

def decodeBucket (raw : Bytes) : Option (Bucket K) :=
  if raw.length ≠ 16 then none
  else some
    { last := signed 64 (value (raw.take 8))
      tokens := (signed 64 (value (raw.drop 8)) : K) / 10 ^ 6 }

/-- The script of the Redis store. -/
def luaTokenBucket (l : Limit K) (state : Option (Bucket K)) (now : Int) : Decision × Bucket K :=
  let state := state.getD ⟨l.burst, now⟩
  let elapsed : K := ((now : K) - state.last) / second
  let tokens := if elapsed > 0 then min (l.burst : K) (state.tokens + elapsed * l.rps)
    else state.tokens
  let allowed := decide (tokens ≥ 1)
  let tokens := if tokens ≥ 1 then tokens - 1 else tokens
  let missing := if 1 - tokens < 0 then 0 else 1 - tokens
  (⟨allowed, ⌊tokens⌋, now + ⌈missing * second / l.rps⌉⟩, ⟨tokens, now⟩)

/-! ## What a call may do -/

def Limit.income (l : Limit K) (start stop : Int) : K := l.rps * ((stop : K) - start) / second

omit [IsStrictOrderedRing K] in
theorem Limit.income_add (l : Limit K) (a b c : Int) :
    l.income a b + l.income b c = l.income a c := by
  unfold income
  ring

variable {a b last first : Int} {allowed : Bool} {granted : Nat}

theorem Limit.income_nonneg (l : Limit K) (h : a ≤ b) : 0 ≤ l.income a b := by
  have hab : (0 : K) ≤ (b : K) - a := sub_nonneg.mpr (Int.cast_le.mpr h)
  exact div_nonneg (mul_nonneg l.rps_pos.le hab) second_pos.le

theorem Limit.income_le (l : Limit K) {c d : Int} (h : c ≤ a) (h' : b ≤ d) :
    l.income a b ≤ l.income c d := by
  have hs : l.income c d = l.income c a + l.income a b + l.income b d := by
    rw [l.income_add, l.income_add]
  have hl := l.income_nonneg h
  have hr := l.income_nonneg h'
  linarith

/-- A bucket that is not over its size nor in debt. -/
def Limit.Holds (l : Limit K) (b : Bucket K) : Prop := 0 ≤ b.tokens ∧ b.tokens ≤ l.burst

/-- A call at a time leaves a bucket with no more than was there and has come in, less the token
that it takes. -/
structure Abides (l : Limit K) (now : Int) (b : Bucket K) (allowed : Bool) (b' : Bucket K) :
    Prop where
  last : b'.last = now
  holds : l.Holds b'
  spent : b'.tokens + (if allowed then 1 else 0) ≤ b.tokens + l.income b.last now

variable {b : Bucket K} {now : Int} {elapsed : K} {l : Limit K}

/-- As long as time does not step back, its difference is not overstated. -/
theorem sub64_le (h : last ≤ now) : sub64 now last ≤ now - last := by
  unfold sub64
  rw [Int.bmod_def]
  split_ifs <;> omega

theorem elapsed_le (h : last ≤ now) :
    (sub64 now last : K) / second * l.rps ≤ l.income last now := by
  have hsub : (sub64 now last : K) ≤ (now : K) - last := by exact_mod_cast sub64_le h
  calc (sub64 now last : K) / second * l.rps = l.rps * sub64 now last / second := by ring
    _ ≤ l.rps * ((now : K) - last) / second := by
      have hr := l.rps_pos.le
      have hs := second_pos (K := K)
      gcongr

/-- The tokens after a refill. -/
def Limit.fill (l : Limit K) (b : Bucket K) (elapsed : K) : K :=
  min l.burst (b.tokens + max 0 elapsed * l.rps)

def spend (tokens : K) (now : Int) : Bucket K := ⟨if 1 ≤ tokens then tokens - 1 else tokens, now⟩

/-- A call that fills up and takes a token does what it may, if it does not overstate the time. -/
theorem fill_abides (hb : l.Holds b) (h : b.last ≤ now)
    (he : elapsed * l.rps ≤ l.income b.last now) :
    Abides l now b (decide (1 ≤ l.fill b elapsed)) (spend (l.fill b elapsed) now) := by
  have hin : max 0 elapsed * l.rps ≤ l.income b.last now := by
    rw [max_mul_of_nonneg _ _ l.rps_pos.le, zero_mul]
    exact max_le (l.income_nonneg h) he
  have hn : 0 ≤ l.fill b elapsed := by
    refine le_min (Nat.cast_nonneg _) (add_nonneg hb.1 ?_)
    exact mul_nonneg (le_max_left ..) l.rps_pos.le
  have hbu : l.fill b elapsed ≤ l.burst := min_le_left ..
  have hf : l.fill b elapsed ≤ b.tokens + l.income b.last now :=
    (min_le_right ..).trans (by linarith)
  by_cases ho : 1 ≤ l.fill b elapsed
  · rw [spend, if_pos ho, decide_eq_true ho]
    exact ⟨rfl, ⟨sub_nonneg.mpr ho, by linarith⟩, by simpa using hf⟩
  · rw [spend, if_neg ho, decide_eq_false ho]
    exact ⟨rfl, ⟨hn, hbu⟩, by simpa using hf⟩

omit [IsStrictOrderedRing K] [FloorRing K] in
/-- Without time nothing is filled up. -/
theorem ite_fill (hb : l.Holds b) :
    (if elapsed > 0 then min (l.burst : K) (b.tokens + elapsed * l.rps) else b.tokens) =
      l.fill b elapsed := by
  rw [Limit.fill]
  split_ifs with h
  · rw [max_eq_right h.le]
  · rw [max_eq_left (not_lt.mp h), zero_mul, add_zero, min_eq_right hb.2]

theorem shardedAllow_some [Int64Conversion K] :
    (shardedAllow l (some b) now).1.allowed =
      decide (1 ≤ l.fill b ((sub64 now b.last : K) / second)) ∧
      (shardedAllow l (some b) now).2 = spend (l.fill b ((sub64 now b.last : K) / second)) now := by
  unfold shardedAllow spend
  simp only [gt_iff_lt, ← min_def_lt, ← max_def_lt']
  rw [← Limit.fill]
  by_cases ho : 1 ≤ l.fill b ((sub64 now b.last : K) / second)
  · rw [if_neg (not_lt.mpr ho), if_pos ho, decide_eq_true ho]
    exact ⟨rfl, rfl⟩
  · rw [if_pos (not_le.mp ho), if_neg ho, decide_eq_false ho]
    exact ⟨rfl, rfl⟩

omit [IsStrictOrderedRing K] [FloorRing K] in
theorem memcachedRefill_eq (hb : l.Holds b) :
    memcachedRefill l b now = (decide (1 ≤ l.fill b ((sub64 now b.last : K) / second)),
      spend (l.fill b ((sub64 now b.last : K) / second)) now) := by
  unfold memcachedRefill spend
  simp only [gt_iff_lt, ← min_def_lt, ite_fill hb, ge_iff_le]
  split_ifs with ho
  · rw [decide_eq_true ho]
  · rw [decide_eq_false ho]

omit [IsStrictOrderedRing K] in
theorem luaTokenBucket_some (hb : l.Holds b) :
    (luaTokenBucket l (some b) now).1.allowed =
      decide (1 ≤ l.fill b (((now : K) - b.last) / second)) ∧
      (luaTokenBucket l (some b) now).2 = spend (l.fill b (((now : K) - b.last) / second)) now := by
  unfold luaTokenBucket spend
  simp [ite_fill hb]

/-- A call of the in-process limiter does what it may; a new bucket begins full. -/
theorem shardedAllow_abides [Int64Conversion K] {b : Option (Bucket K)}
    (hb : ∀ x ∈ b, l.Holds x ∧ x.last ≤ now) :
    Abides l now (b.getD ⟨l.burst, now⟩) (shardedAllow l b now).1.allowed
      (shardedAllow l b now).2 := by
  cases b with
  | none =>
    have hbu : (1 : K) ≤ l.burst := Nat.one_le_cast.mpr l.burst_pos
    refine ⟨rfl, ⟨sub_nonneg.mpr hbu, sub_le_self _ zero_le_one⟩, ?_⟩
    simp [shardedAllow, Limit.income]
  | some b =>
    obtain ⟨hh, hl⟩ := hb b rfl
    rw [shardedAllow_some.1, shardedAllow_some.2]
    exact fill_abides hh hl (elapsed_le hl)

omit [FloorRing K] in
theorem holds_full : l.Holds ⟨l.burst, now⟩ := ⟨Nat.cast_nonneg _, le_refl _⟩

theorem luaTokenBucket_abides {b : Option (Bucket K)} (hb : ∀ x ∈ b, l.Holds x ∧ x.last ≤ now) :
    Abides l now (b.getD ⟨l.burst, now⟩) (luaTokenBucket l b now).1.allowed
      (luaTokenBucket l b now).2 := by
  have hin {b : Bucket K} (hh : l.Holds b) (hl : b.last ≤ now) :
      Abides l now b (luaTokenBucket l (some b) now).1.allowed
        (luaTokenBucket l (some b) now).2 := by
    rw [(luaTokenBucket_some hh).1, (luaTokenBucket_some hh).2]
    refine fill_abides hh hl (le_of_eq ?_)
    unfold Limit.income
    ring
  cases b with
  | none => exact hin holds_full (le_refl now)
  | some b => exact hin (hb b rfl).1 (hb b rfl).2

/-! ## Accounts -/

/-- What was granted since a time and what is left is no more than a full bucket and what has come
in. -/
structure Balanced (l : Limit K) (first : Int) (granted : Nat) (b : Bucket K) : Prop where
  holds : l.Holds b
  le_last : first ≤ b.last
  granted_add : granted + b.tokens ≤ l.burst + l.income first b.last

omit [FloorRing K] in
theorem Abides.balanced
    (h : Abides l now ⟨l.burst, now⟩ allowed b) : Balanced l now (if allowed then 1 else 0) b := by
  refine ⟨h.holds, h.last.ge, ?_⟩
  have hs := h.spent
  rw [h.last]
  push_cast
  linarith

theorem Balanced.call {b' : Bucket K}
    (hb : Balanced l first granted b) (hn : b.last ≤ now) (h : Abides l now b allowed b') :
    Balanced l first (granted + if allowed then 1 else 0) b' := by
  refine ⟨h.holds, h.last ▸ hb.le_last.trans hn, ?_⟩
  have hs := h.spent
  have hbe := hb.granted_add
  have hi := l.income_add first b.last now
  rw [h.last]
  push_cast
  linarith

omit [FloorRing K] in
theorem Balanced.granted_le
    (h : Balanced l first granted b) : (granted : K) ≤ l.burst + l.income first b.last := by
  have ht := h.holds.1
  have hb := h.granted_add
  linarith

end Celeris.RateLimit
