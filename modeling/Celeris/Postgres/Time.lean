import Celeris.Data.Bytes
import Celeris.Data.BigEndian

/-!
# Dates and timestamps (`internal/driver/postgres/protocol/types_time.go`)

The binary codecs of `date`, `timestamp` and `timestamptz`. PostgreSQL counts days and
microseconds from 2000-01-01 UTC, so a `time.Time` is here the number of nanoseconds
since that instant. Of the package `time` the model takes over that a `Duration` is an
`int64` of nanoseconds whose products wrap, that `Add` is exact and that `Sub`
saturates.

Both codecs go through a `Duration`, which holds 292 years: they are exact within it and
wrong everywhere else, and the instants that stand for the infinities are outside.
-/

namespace Celeris.Postgres

open BigEndian Int

/-! ## The package `time` -/

/-- `time.Time`: nanoseconds since 2000-01-01 00:00:00 UTC. -/
structure Time where
  ns : Int
deriving DecidableEq, Repr

/-- `time.Duration`: nanoseconds. -/
abbrev Duration := Int

/-- Arithmetic of a Go `int64` wraps. -/
def wrap (x : Int) : Duration := Int.bmod x (2 ^ 64)

def Time.add (t : Time) (d : Duration) : Time := ⟨t.ns + d⟩

/-- `Time.Sub`, which saturates. -/
def Time.sub (t u : Time) : Duration := max (-2 ^ 63) (min (t.ns - u.ns) (2 ^ 63 - 1))

def microsecond : Duration := 1000

/-- 24 times `time.Hour`. -/
def day : Duration := 24 * 3600 * 10 ^ 9

/-- The days from 2000-01-01 to the first day of a year. -/
def daysBeforeYear (year : Int) : Int :=
  365 * (year - 2000) + ((year - 1) / 4 - (year - 1) / 100 + (year - 1) / 400) - 484

def isLeap (year : Int) : Bool := year % 4 = 0 && (year % 100 ≠ 0 || year % 400 = 0)

def monthDays (year : Int) : List Int :=
  [31, if isLeap year then 29 else 28, 31, 30, 31, 30, 31, 31, 30, 31, 30, 31]

/-- `time.Date`, in UTC. -/
def date (year : Int) (month : Nat) (dayOfMonth hour min sec : Int) : Time :=
  ⟨(daysBeforeYear year + ((monthDays year).take (month - 1)).sum + (dayOfMonth - 1)) * day +
    ((hour * 60 + min) * 60 + sec) * 10 ^ 9⟩

/-- `Time.AddDate` by days. -/
def Time.addDays (t : Time) (days : Int) : Time := ⟨t.ns + days * day⟩

/-- Midnight before an instant: the `time.Date` of its year, month and day. -/
def Time.midnight (t : Time) : Time := ⟨t.ns - t.ns % day⟩

/-! ## Constants -/

def pgEpoch : Time := date 2000 1 1 0 0 0

def pgInfinity : Time := date 9999 12 31 23 59 59

def pgNegInfinity : Time := date (-4713) 1 1 0 0 0

def pgTimestampInfinity : Int := 2 ^ 63 - 1

def pgTimestampNegInfinity : Int := -2 ^ 63

def pgDateInfinity : Int := 2 ^ 31 - 1

def pgDateNegInfinity : Int := -2 ^ 31

/-- A value to encode, `resolveValuer` behind it: a time, or one of another type. -/
inductive Value where
  | time (t : Time)
  | other (typeName : String)
deriving DecidableEq, Repr

/-! ## Dates -/

def decodeDateBinary (src : Bytes) : Except String Time :=
  let length := src.length
  if length ≠ 4 then .error s!"postgres/protocol: date length = {length}"
  else
    let days := signed 32 (value src)
    if days = pgDateInfinity then .ok pgInfinity
    else if days = pgDateNegInfinity then .ok pgNegInfinity
    else .ok (pgEpoch.addDays days)

def encodeDateBinary (dst : Bytes) : Value → Except String Bytes
  | .other typeName => .error s!"postgres/protocol: encode date: unsupported {typeName}"
  | .time t =>
    let delta := t.midnight.sub pgEpoch
    let days := if delta.tmod day < 0 then delta.tdiv day - 1 else delta.tdiv day
    .ok (dst ++ bytes 4 (unsigned 32 days))

/-! ## Timestamps -/

def decodeTimestampBinary (src : Bytes) : Except String Time :=
  let length := src.length
  if length ≠ 8 then .error s!"postgres/protocol: timestamp length = {length}"
  else
    let micros := signed 64 (value src)
    if micros = pgTimestampInfinity then .ok pgInfinity
    else if micros = pgTimestampNegInfinity then .ok pgNegInfinity
    else .ok (pgEpoch.add (wrap (micros * microsecond)))

def encodeTimestampBinary (dst : Bytes) : Value → Except String Bytes
  | .other typeName => .error s!"postgres/protocol: encode timestamp: unsupported {typeName}"
  | .time t =>
    let d := t.sub pgEpoch
    let micros := if d < 0 ∧ d.tmod microsecond ≠ 0 then d.tdiv microsecond - 1
      else d.tdiv microsecond
    .ok (dst ++ bytes 8 (unsigned 64 micros))

/-! ## What the codecs compute -/

variable {x unit : Int}

/-- The correction of the truncated quotient makes it the floor. -/
theorem floor_eq (hu : 0 < unit) :
    (if x.tmod unit < 0 then x.tdiv unit - 1 else x.tdiv unit) = x / unit := by
  rw [tmod_eq_emod, tdiv_eq_ediv, sign_eq_one_of_pos hu]
  have hm := emod_nonneg x hu.ne'
  have hlt := emod_lt_of_pos x hu
  split_ifs
  all_goals omega

theorem pgEpoch_eq : pgEpoch = ⟨0⟩ := by decide

/-- An instant in nanoseconds, as far as a `Duration` holds it. -/
def clamp (x : Int) : Int := max (-2 ^ 63) (min x (2 ^ 63 - 1))

theorem encodeTimestampBinary_eq (dst : Bytes) (x : Int) :
    encodeTimestampBinary dst (.time ⟨x⟩) =
      .ok (dst ++ bytes 8 (unsigned 64 (clamp x / 1000))) := by
  have hc : ∀ d : Int, (d < 0 ∧ d.tmod microsecond ≠ 0) = (d.tmod microsecond < 0) := by
    intro d
    rw [tmod_eq_emod]
    unfold microsecond
    split_ifs with h
    all_goals
      apply propext
      omega
  unfold encodeTimestampBinary
  simp only [hc]
  rw [floor_eq (by decide), Time.sub, pgEpoch_eq]
  rw [sub_zero, clamp, microsecond]

theorem encodeDateBinary_eq (dst : Bytes) (x : Int) :
    encodeDateBinary dst (.time ⟨x⟩) =
      .ok (dst ++ bytes 4 (unsigned 32 (clamp (x - x % day) / day))) := by
  unfold encodeDateBinary
  dsimp only
  rw [floor_eq (by decide), Time.sub, Time.midnight, pgEpoch_eq]
  rw [sub_zero, clamp]

theorem decodeTimestampBinary_bytes (hl : -2 ^ 63 ≤ x) (hh : x < 2 ^ 63) :
    decodeTimestampBinary (bytes 8 (unsigned 64 x)) =
      if x = pgTimestampInfinity then .ok pgInfinity
      else if x = pgTimestampNegInfinity then .ok pgNegInfinity
      else .ok ⟨wrap (x * 1000)⟩ := by
  have hr := signed_value_bytes (k := 8) (x := x) (by omega) (by omega)
  unfold decodeTimestampBinary
  dsimp only
  rw [length_bytes, if_neg (by decide), hr, pgEpoch_eq, Time.add, microsecond]
  rw [zero_add]

theorem decodeDateBinary_bytes (hl : -2 ^ 31 ≤ x) (hh : x < 2 ^ 31) :
    decodeDateBinary (bytes 4 (unsigned 32 x)) =
      if x = pgDateInfinity then .ok pgInfinity
      else if x = pgDateNegInfinity then .ok pgNegInfinity
      else .ok ⟨x * day⟩ := by
  have hr := signed_value_bytes (k := 4) (x := x) (by omega) (by omega)
  unfold decodeDateBinary
  dsimp only
  rw [length_bytes, if_neg (by decide), hr, pgEpoch_eq, Time.addDays]
  rw [zero_add]

/-! ## Exactness -/

/-- A wire value of `k` bytes is exact: it is decoded to its instant, and the instant encoded
to it; of one that stands for an infinity only that it comes back. -/
def Exact (k : Nat) (decode : Bytes → Except String Time)
    (encode : Bytes → Value → Except String Bytes) (infinities : List Int) (unit x : Int) : Prop :=
  let src := bytes k (unsigned (8 * k) x)
  if x ∈ infinities then ∃ t, decode src = .ok t ∧ ∀ dst, encode dst (.time t) = .ok (dst ++ src)
  else decode src = .ok ⟨x * unit⟩ ∧ ∀ dst, encode dst (.time ⟨x * unit⟩) = .ok (dst ++ src)

/-- A `timestamp` of so many microseconds. -/
def TimestampExact (micros : Int) : Prop :=
  Exact 8 decodeTimestampBinary encodeTimestampBinary [pgTimestampInfinity, pgTimestampNegInfinity]
    microsecond micros

/-- A `date` of so many days. -/
def DateExact (days : Int) : Prop :=
  Exact 4 decodeDateBinary encodeDateBinary [pgDateInfinity, pgDateNegInfinity] day days

/-- A wire value is exact where it stands for an instant and is what the instant is encoded to. -/
theorem exact_iff {k : Nat} {decode : Bytes → Except String Time}
    {encode : Bytes → Value → Except String Bytes} {encoded : Int → Int} {decoded inf neg : Int}
    (hd : decode (bytes k (unsigned (8 * k) x)) =
      if x = inf then .ok pgInfinity else if x = neg then .ok pgNegInfinity else .ok ⟨decoded⟩)
    (he : ∀ dst t, encode dst (.time ⟨t⟩) = .ok (dst ++ bytes k (unsigned (8 * k) (encoded t))))
    (hx : -2 ^ (8 * k) ≤ 2 * x ∧ 2 * x < 2 ^ (8 * k))
    (hr : ∀ t, -2 ^ (8 * k) ≤ 2 * encoded t ∧ 2 * encoded t < 2 ^ (8 * k))
    (hi : encoded pgInfinity.ns ≠ inf) (hn : encoded pgNegInfinity.ns ≠ neg) :
    Exact k decode encode [inf, neg] unit x ↔ x ≠ inf ∧ x ≠ neg ∧ decoded = x * unit ∧
      encoded (x * unit) = x := by
  have hs : ∀ t, (∀ dst, encode dst (.time t) = .ok (dst ++ bytes k (unsigned (8 * k) x))) ↔
      encoded t.ns = x := by
    intro t
    rw [← bytes_unsigned_inj (hr _) hx]
    refine ⟨fun h => ?_, fun h dst => by rw [he, h]⟩
    simpa using (he [] t.ns).symm.trans (h [])
  unfold Exact
  simp only [hd, hs]
  by_cases h : x = inf
  · simp [h, hi]
  by_cases h' : x = neg
  · have hne : neg ≠ inf := fun hn => h (h'.trans hn)
    simp [h', hne, hn]
  · simp [h, h']

theorem timestampExact_iff (hlow : -2 ^ 63 ≤ x) (hh : x < 2 ^ 63) :
    TimestampExact x ↔ -9223372036854775 ≤ x ∧ x ≤ 9223372036854775 := by
  rw [TimestampExact, exact_iff (decodeTimestampBinary_bytes hlow hh) encodeTimestampBinary_eq
    (by omega) (fun t => by unfold clamp; omega) (by decide) (by decide)]
  unfold clamp pgTimestampInfinity pgTimestampNegInfinity microsecond wrap
  constructor
  · rintro ⟨-, -, hb, -⟩
    rw [bmod_def] at hb
    split_ifs at hb
    all_goals omega
  · rintro ⟨hl, hm⟩
    have hw : bmod (x * 1000) (2 ^ 64) = x * 1000 := by
      apply bmod_eq_of_le_mul_two
      all_goals omega
    rw [hw]
    omega

theorem dateExact_iff (hlow : -2 ^ 31 ≤ x) (hh : x < 2 ^ 31) :
    DateExact x ↔ -106752 ≤ x ∧ x ≤ 106751 := by
  rw [DateExact, exact_iff (decodeDateBinary_bytes hlow hh) encodeDateBinary_eq (by omega)
    (fun t => by unfold clamp day; omega) (by decide) (by decide)]
  -- the lowest `Duration` is a little above -106752 days, and its floor is that day
  unfold clamp pgDateInfinity pgDateNegInfinity day
  omega

/-- The codecs are exact for the counts that a `Duration` of nanoseconds holds, and for no
others; -106752 days is below it, and comes back all the same. -/
theorem times_exact_iff (timestamp : BitVec 64) (day : BitVec 32) :
    (TimestampExact timestamp.toInt ↔
      -9223372036854775 ≤ timestamp.toInt ∧ timestamp.toInt ≤ 9223372036854775) ∧
    (DateExact day.toInt ↔ -106752 ≤ day.toInt ∧ day.toInt ≤ 106751) :=
  ⟨timestampExact_iff timestamp.le_toInt timestamp.toInt_lt,
    dateExact_iff day.le_toInt day.toInt_lt⟩

/-- 2300-01-01 as a timestamp comes as an instant in 1715, and as a date is written as one in
2292; neither infinity comes back. -/
theorem year2300_not_exact :
    decodeTimestampBinary (bytes 8 9467107200000000) = .ok ⟨9467107200000000000 - 2 ^ 64⟩ ∧
    ¬TimestampExact (9467107200000000#64).toInt ∧
    encodeDateBinary [] (.time (date 2300 1 1 0 0 0)) = .ok (bytes 4 106751) ∧
      ¬DateExact (109573#32).toInt ∧
    ¬TimestampExact (BitVec.intMax 64).toInt ∧ ¬TimestampExact (BitVec.intMin 64).toInt ∧
    ¬DateExact (BitVec.intMax 32).toInt ∧ ¬DateExact (BitVec.intMin 32).toInt := by
  have ht : ∀ x : BitVec 64, ¬ (-9223372036854775 ≤ x.toInt ∧ x.toInt ≤ 9223372036854775) →
      ¬TimestampExact x.toInt :=
    fun x => (timestampExact_iff x.le_toInt x.toInt_lt).not.mpr
  have hd : ∀ x : BitVec 32, ¬ (-106752 ≤ x.toInt ∧ x.toInt ≤ 106751) → ¬DateExact x.toInt :=
    fun x => (dateExact_iff x.le_toInt x.toInt_lt).not.mpr
  exact ⟨by decide, ht _ (by decide), by decide, hd _ (by decide), ht _ (by decide),
    ht _ (by decide), hd _ (by decide), hd _ (by decide)⟩

end Celeris.Postgres
