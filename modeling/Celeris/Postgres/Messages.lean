import Celeris.Data.Bytes
import Celeris.Data.Codec

/-!
# Frontend messages of the PostgreSQL driver (`internal/driver/postgres/protocol`)

The writer puts messages into a buffer: a type byte, a length that is filled in when the
message is finished, and fields. Nothing is refused: a string is written up to its terminator
whatever bytes it holds, and a length or a count is cut to the width of its field.

The server reads the stream by the grammar of the protocol, which is given here as a codec.
It recovers what was written exactly if no string holds a zero byte, no list is longer than its
16-bit count can say, and no message is longer than its 32-bit length can say.
-/

namespace Celeris.Postgres

open Option Codec List BigEndian

/-! ## The writer -/

structure Writer where
  buf : Bytes := []
  msgStart : Nat := 0
  inMessage : Bool := false
  startupMsg : Bool := false
deriving DecidableEq, Repr

namespace Writer

/-- `StartMessage`; none where it panics. -/
def startMessage (w : Writer) (msgType : UInt8) : Option Writer :=
  if w.inMessage then none
  else some ⟨w.buf ++ [msgType, 0, 0, 0, 0], w.buf.length, true, false⟩

/-- `FinishMessage`: the length is written over its place; none where it panics. -/
def finishMessage (w : Writer) : Option Writer :=
  if w.inMessage then
    let lenOffset := if w.startupMsg then w.msgStart else w.msgStart + 1
    let length := UInt32.ofNat (w.buf.length - lenOffset)
    some { w with
      buf := w.buf.take lenOffset ++ bytes 4 length.toNat ++ w.buf.drop (lenOffset + 4)
      inMessage := false }
  else none

def reset (_ : Writer) : Writer := {}

def writeBytes (w : Writer) (b : Bytes) : Writer := { w with buf := w.buf ++ b }

def writeByte (w : Writer) (b : UInt8) : Writer := w.writeBytes [b]

/-- `WriteInt16`, for the bits of the number. -/
def writeInt16 (w : Writer) (v : UInt16) : Writer := w.writeBytes (bytes 2 v.toNat)

/-- `WriteInt32`, for the bits of the number. -/
def writeInt32 (w : Writer) (v : UInt32) : Writer := w.writeBytes (bytes 4 v.toNat)

def writeString (w : Writer) (s : Bytes) : Writer := (w.writeBytes s).writeBytes [0]

end Writer

/-! ## Messages -/

/-- What a `Describe` is about. -/
inductive Target where
  | statement
  | portal
deriving DecidableEq, Repr

/-- The byte of a target: `S` or `P`. -/
def Target.byte : Target → UInt8
  | .statement => 0x53
  | .portal => 0x50

/-- The messages that carry queries. A parameter is none where it is `nil`, the SQL `NULL`. -/
inductive Message where
  | query (sql : Bytes)
  | parse (name query : Bytes) (paramOIDs : List UInt32)
  | bind (portal stmt : Bytes) (paramFormats : List UInt16) (paramValues : List (Option Bytes))
      (resultFormats : List UInt16)
  | describe (kind : Target) (name : Bytes)
  | execute (portal : Bytes) (maxRows : UInt32)
  | sync
deriving DecidableEq, Repr

/-- The type byte: `Q`, `P`, `B`, `D`, `E` or `S`. -/
def Message.msgType : Message → UInt8
  | .query .. => 0x51
  | .parse .. => 0x50
  | .bind .. => 0x42
  | .describe .. => 0x44
  | .execute .. => 0x45
  | .sync => 0x53

namespace Writer

/-- `WriteQuery`, after the reset. -/
def appendQuery (w : Writer) (sql : Bytes) : Option Writer := do
  let w ← w.startMessage 0x51
  (w.writeString sql).finishMessage

def appendParse (w : Writer) (name query : Bytes) (paramOIDs : List UInt32) : Option Writer := do
  let w ← w.startMessage 0x50
  let w := w.writeString name
  let w := w.writeString query
  let w := w.writeInt16 (UInt16.ofNat paramOIDs.length)
  let w := paramOIDs.foldl writeInt32 w
  w.finishMessage

/-- A parameter of `AppendBind`. -/
def writeParam (w : Writer) : Option Bytes → Writer
  | none => w.writeInt32 0xFFFFFFFF
  | some v => (w.writeInt32 (UInt32.ofNat v.length)).writeBytes v

def appendBind (w : Writer) (portal stmt : Bytes) (paramFormats : List UInt16)
    (paramValues : List (Option Bytes)) (resultFormats : List UInt16) : Option Writer := do
  let w ← w.startMessage 0x42
  let w := w.writeString portal
  let w := w.writeString stmt
  let w := w.writeInt16 (UInt16.ofNat paramFormats.length)
  let w := paramFormats.foldl writeInt16 w
  let w := w.writeInt16 (UInt16.ofNat paramValues.length)
  let w := paramValues.foldl writeParam w
  let w := w.writeInt16 (UInt16.ofNat resultFormats.length)
  let w := resultFormats.foldl writeInt16 w
  w.finishMessage

def appendDescribe (w : Writer) (kind : Target) (name : Bytes) : Option Writer := do
  let w ← w.startMessage 0x44
  let w := w.writeByte kind.byte
  let w := w.writeString name
  w.finishMessage

def appendExecute (w : Writer) (portal : Bytes) (maxRows : UInt32) : Option Writer := do
  let w ← w.startMessage 0x45
  let w := w.writeString portal
  let w := w.writeInt32 maxRows
  w.finishMessage

def appendSync (w : Writer) : Option Writer := do
  let w ← w.startMessage 0x53
  w.finishMessage

def append (w : Writer) : Message → Option Writer
  | .query sql => w.appendQuery sql
  | .parse name query paramOIDs => w.appendParse name query paramOIDs
  | .bind portal stmt paramFormats paramValues resultFormats =>
    w.appendBind portal stmt paramFormats paramValues resultFormats
  | .describe kind name => w.appendDescribe kind name
  | .execute portal maxRows => w.appendExecute portal maxRows
  | .sync => w.appendSync

/-- The bytes of messages that are appended to a buffer after it has been reset. -/
def batch (w : Writer) (ms : List Message) : Option Bytes := (ms.foldlM append w.reset).map buf

end Writer

/-- What is written on a connection: the buffer is reset for every batch of messages. -/
def transmit : List (List Message) → Option Bytes
  | [] => some []
  | ms :: batches => do
    let b ← Writer.batch {} ms
    let rest ← transmit batches
    return b ++ rest

/-! ## The arguments of a query -/

/-- The arguments that `encodeOne` tells apart; a number that is not an integer, and a time,
are given by their text. -/
inductive Arg where
  | null
  | bool (b : Bool)
  | int (n : Int)
  | float (text : Bytes)
  | string (s : Bytes)
  | bytes (b : Option Bytes)
  | time (text : Bytes)
  | other
deriving DecidableEq, Repr

/-- `encodeOne`: the value and its format, text (0) or binary (1); none where it is an error. -/
def encodeOne : Arg → Option (Option Bytes × UInt16)
  | .null => some (none, 1)
  | .bool b => some (some [if b then 1 else 0], 1)
  | .int n => some (some (ascii (toString n)), 0)
  | .float text => some (some text, 0)
  | .string s => some (some s, 0)
  | .bytes b => some (b, 1)
  | .time text => some (some text, 0)
  | .other => none

/-- `encodeArgs`: the values and the formats. -/
def encodeArgs : List Arg → Option (List (Option Bytes) × List UInt16)
  | [] => some ([], [])
  | a :: args => do
    let (b, fmtCode) ← encodeOne a
    let (values, formats) ← encodeArgs args
    return (b :: values, fmtCode :: formats)

/-- The messages of an extended query; a statement without a name is parsed first. -/
def extendedQuery (stmtName query : Bytes) (args : List Arg) (resultFormats : List UInt16)
    (hasDescribe : Bool) :
    Option (List Message) := do
  let (values, formats) ← encodeArgs args
  return (if stmtName = [] then [.parse [] query []] else []) ++
    [.bind [] stmtName formats values resultFormats] ++
    (if hasDescribe then [.describe .portal []] else []) ++ [.execute [] 0, .sync]

/-! ## The grammar of the server -/

namespace Grammar

def int16 : Codec UInt16 :=
  (Codec.nat 2).map UInt16.ofNat UInt16.toNat (fun _ => UInt16.ofNat_toNat)
    fun _ hx => UInt16.toNat_ofNat_of_lt' hx

def int32 : Codec UInt32 :=
  (Codec.nat 4).map UInt32.ofNat UInt32.toNat (fun _ => UInt32.ofNat_toNat)
    fun _ hx => UInt32.toNat_ofNat_of_lt' hx

/-- A parameter: its length, which is all ones for `NULL` and not negative otherwise, and its
bytes. -/
def param : Codec (Option Bytes) where
  encode
    | none => bytes 4 (2 ^ 32 - 1)
    | some v => bytes 4 v.length ++ v
  decode b := ((Codec.nat 4).decode b).bind fun x =>
    if x.1 = 2 ^ 32 - 1 then some (none, x.2)
    else if 2 ^ 31 ≤ x.1 ∨ x.2.length < x.1 then none
    else some (some (x.2.take x.1), x.2.drop x.1)
  Valid v := ∀ b ∈ v, b.length < 2 ^ 31
  decode_iff {b v rest} := by
    rw [Option.bind_eq_some_iff]
    constructor
    · rintro ⟨⟨n, b'⟩, hn, h⟩
      obtain ⟨hlt, rfl⟩ := (Codec.nat 4).decode_iff.mp hn
      by_cases hnull : n = 2 ^ 32 - 1
      · rw [if_pos hnull] at h
        cases h
        exact ⟨nofun, by rw [hnull]; rfl⟩
      · rw [if_neg hnull] at h
        obtain ⟨hlen, h⟩ := Option.ite_none_left_eq_some.mp h
        obtain ⟨hsmall, hlong⟩ := not_or.mp hlen
        cases h
        have htake : (b'.take n).length = n := length_take_of_le (not_lt.mp hlong)
        refine ⟨?_, ?_⟩
        · rintro v hv
          cases hv
          rw [htake]
          exact not_le.mp hsmall
        · dsimp only
          rw [htake, append_assoc, take_append_drop]
          rfl
    · rintro ⟨hvalid, rfl⟩
      cases v with
      | none => exact ⟨(2 ^ 32 - 1, rest),
          (Codec.nat 4).decode_iff.mpr ⟨(by decide : 2 ^ 32 - 1 < 256 ^ 4), rfl⟩, rfl⟩
      | some v =>
        have hlen : v.length < 2 ^ 31 := hvalid v rfl
        refine ⟨(v.length, v ++ rest), (Codec.nat 4).decode_iff.mpr ⟨?_, append_assoc ..⟩, ?_⟩
        · exact hlen.trans (by decide)
        · have hfits : ¬ (2 ^ 31 ≤ v.length ∨ (v ++ rest).length < v.length) := by
            rw [length_append]
            omega
          rw [if_neg (by dsimp only; omega), if_neg hfits, take_left, drop_left]

/-- What a `Describe` is about. -/
def target : Codec Target where
  encode t := [t.byte]
  decode
    | [] => none
    | c :: b => if c = 0x53 then some (.statement, b) else if c = 0x50 then some (.portal, b)
        else none
  Valid _ := True
  decode_iff {b t rest} := by
    cases b with
    | nil => exact iff_of_false nofun fun h => by cases h.2
    | cons c b =>
      constructor
      · intro h
        dsimp only at h
        split_ifs at h with hs hp <;> cases h
        · exact ⟨trivial, by rw [hs]; rfl⟩
        · exact ⟨trivial, by rw [hp]; rfl⟩
      · rintro ⟨-, hb⟩
        obtain ⟨rfl, rfl⟩ : c = t.byte ∧ b = rest := cons.inj hb
        cases t <;> rfl

def nothing : Codec Unit where
  encode _ := []
  decode b := some ((), b)
  Valid _ := True
  decode_iff {b x rest} := by
    rw [Option.some.injEq, Prod.mk.injEq, nil_append]
    exact ⟨fun h => ⟨trivial, h.2⟩, fun h => ⟨rfl, h.2⟩⟩

/-- The body of a `Parse`: name, query, types of the parameters. -/
def parse : Codec (Bytes × Bytes × List UInt32) :=
  Codec.string.pair (Codec.string.pair (int32.list 2))

/-- The body of a `Bind`: portal, statement, formats and values of the parameters, formats of
the results. -/
def bind : Codec (Bytes × Bytes × List UInt16 × List (Option Bytes) × List UInt16) :=
  Codec.string.pair (Codec.string.pair ((int16.list 2).pair ((param.list 2).pair (int16.list 2))))

/-- The body of a `Describe`. -/
def describe : Codec (Target × Bytes) := target.pair Codec.string

/-- The body of an `Execute`: portal and number of rows. -/
def execute : Codec (Bytes × UInt32) := Codec.string.pair int32

/-- The message with this type byte whose body is all of these bytes. -/
def readBody (msgType : UInt8) (b : Bytes) : Option Message :=
  if msgType = 0x51 then (Codec.string.exact b).map .query
  else if msgType = 0x50 then (parse.exact b).map fun x => .parse x.1 x.2.1 x.2.2
  else if msgType = 0x42 then (bind.exact b).map
    fun x => .bind x.1 x.2.1 x.2.2.1 x.2.2.2.1 x.2.2.2.2
  else if msgType = 0x44 then (describe.exact b).map fun x => .describe x.1 x.2
  else if msgType = 0x45 then (execute.exact b).map fun x => .execute x.1 x.2
  else if msgType = 0x53 then (nothing.exact b).map fun _ => .sync
  else none

end Grammar

def Message.body : Message → Bytes
  | .query sql => Codec.string.encode sql
  | .parse name sql paramOIDs => Grammar.parse.encode (name, sql, paramOIDs)
  | .bind portal stmt paramFormats paramValues resultFormats =>
    Grammar.bind.encode (portal, stmt, paramFormats, paramValues, resultFormats)
  | .describe kind name => Grammar.describe.encode (kind, name)
  | .execute portal maxRows => Grammar.execute.encode (portal, maxRows)
  | .sync => []

/-- The strings of a message hold no zero byte, its lists are not longer than 16 bits can say,
and its parameters not longer than 31 bits can. -/
def Message.Proper : Message → Prop
  | .query sql => 0 ∉ sql
  | .parse name sql paramOIDs => 0 ∉ name ∧ 0 ∉ sql ∧ paramOIDs.length < 2 ^ 16
  | .bind portal stmt paramFormats paramValues resultFormats =>
    0 ∉ portal ∧ 0 ∉ stmt ∧ paramFormats.length < 2 ^ 16 ∧
      (paramValues.length < 2 ^ 16 ∧ ∀ v ∈ paramValues, ∀ b ∈ v, b.length < 2 ^ 31) ∧
      resultFormats.length < 2 ^ 16
  | .describe _ name => 0 ∉ name
  | .execute portal _ => 0 ∉ portal
  | .sync => True

namespace Grammar

theorem int32_valid {x : UInt32} : int32.Valid x := x.toNat_lt

theorem list_int16_valid {xs : List UInt16} : (int16.list 2).Valid xs ↔ xs.length < 2 ^ 16 :=
  and_iff_left fun x _ => x.toNat_lt

theorem parse_valid {name query : Bytes} {paramOIDs : List UInt32} :
    parse.Valid (name, query, paramOIDs) ↔ (Message.parse name query paramOIDs).Proper :=
  and_congr_right fun _ => and_congr_right fun _ => and_iff_left fun _ _ => int32_valid

theorem bind_valid {portal stmt : Bytes} {paramFormats : List UInt16}
    {paramValues : List (Option Bytes)} {resultFormats : List UInt16} :
    bind.Valid (portal, stmt, paramFormats, paramValues, resultFormats) ↔
      (Message.bind portal stmt paramFormats paramValues resultFormats).Proper :=
  and_congr_right fun _ => and_congr_right fun _ => and_congr list_int16_valid
    (and_congr_right fun _ => list_int16_valid)

theorem map_exact_iff {α : Type} {c : Codec α} {f : α → Message} {b : Bytes} {m : Message} :
    (c.exact b).map f = some m ↔ ∃ x, c.Valid x ∧ b = c.encode x ∧ f x = m := by
  simp only [map_eq_some_iff, c.exact_iff, and_assoc]

/-- A body is read as a message exactly if it is the body of that message, and a proper one. -/
theorem readBody_iff {t : UInt8} {b : Bytes} {m : Message} :
    readBody t b = some m ↔ t = m.msgType ∧ m.Proper ∧ b = m.body := by
  constructor
  · intro h
    unfold readBody at h
    split_ifs at h with ht ht ht ht ht ht
    all_goals obtain ⟨x, hv, hb, rfl⟩ := map_exact_iff.mp h
    · exact ⟨ht, hv, hb⟩
    · exact ⟨ht, parse_valid.mp hv, hb⟩
    · exact ⟨ht, bind_valid.mp hv, hb⟩
    · exact ⟨ht, hv.2, hb⟩
    · exact ⟨ht, hv.1, hb⟩
    · exact ⟨ht, hv, hb⟩
  · rintro ⟨rfl, hp, rfl⟩
    cases m with
    | query sql => exact map_exact_iff.mpr ⟨sql, hp, rfl, rfl⟩
    | parse name query paramOIDs => exact map_exact_iff.mpr ⟨_, parse_valid.mpr hp, rfl, rfl⟩
    | bind portal stmt paramFormats paramValues resultFormats =>
      exact map_exact_iff.mpr ⟨_, bind_valid.mpr hp, rfl, rfl⟩
    | describe kind name => exact map_exact_iff.mpr ⟨(kind, name), ⟨trivial, hp⟩, rfl, rfl⟩
    | execute portal maxRows => exact map_exact_iff.mpr ⟨(portal, maxRows), ⟨hp, int32_valid⟩, rfl,
        rfl⟩
    | sync => rfl

/-- A message: its type, the length of its body and of the length itself, which is not
negative, and its body. -/
def message : Codec Message where
  encode m := m.msgType :: (bytes 4 (4 + m.body.length) ++ m.body)
  decode
    | [] => none
    | t :: b => ((Codec.nat 4).decode b).bind fun x =>
      if x.1 < 4 ∨ 2 ^ 31 ≤ x.1 ∨ 4 + x.2.length < x.1 then none
      else (readBody t (x.2.take (x.1 - 4))).map fun m => (m, x.2.drop (x.1 - 4))
  Valid m := m.Proper ∧ 4 + m.body.length < 2 ^ 31
  decode_iff {b m rest} := by
    cases b with
    | nil => exact iff_of_false nofun fun h => by cases h.2
    | cons t b =>
      dsimp only
      rw [Option.bind_eq_some_iff]
      constructor
      · rintro ⟨⟨n, b'⟩, hn, h⟩
        obtain ⟨-, rfl⟩ := (Codec.nat 4).decode_iff.mp hn
        obtain ⟨hlen, h⟩ := Option.ite_none_left_eq_some.mp h
        obtain ⟨m', hm, heq⟩ := Option.map_eq_some_iff.mp h
        cases heq
        obtain ⟨rfl, hproper, hbody⟩ := readBody_iff.mp hm
        have hsize : 4 + m.body.length = n := by
          rw [← hbody, length_take_of_le (by omega)]
          omega
        refine ⟨⟨hproper, by omega⟩, ?_⟩
        rw [hsize, ← hbody, cons_append, append_assoc, take_append_drop]
        rfl
      · rintro ⟨⟨hproper, hsize⟩, hb⟩
        obtain ⟨rfl, rfl⟩ : t = m.msgType ∧ b = bytes 4 (4 + m.body.length) ++ m.body ++ rest :=
          cons.inj hb
        refine ⟨(4 + m.body.length, m.body ++ rest),
          (Codec.nat 4).decode_iff.mpr ⟨hsize.trans (by decide), append_assoc ..⟩, ?_⟩
        have hfits : ¬ (4 + m.body.length < 4 ∨ 2 ^ 31 ≤ 4 + m.body.length ∨
            4 + (m.body ++ rest).length < 4 + m.body.length) := by
          rw [length_append]
          omega
        rw [if_neg hfits]
        dsimp only
        rw [Nat.add_sub_cancel_left, take_left, drop_left, readBody_iff.mpr ⟨rfl, hproper, rfl⟩]
        rfl

end Grammar

/-! ## What the writer writes -/

namespace Writer

variable {w : Writer}

@[simp] theorem writeBytes_nil : w.writeBytes [] = w := by rw [writeBytes, append_nil]

@[simp] theorem writeBytes_writeBytes {a b : Bytes} :
    (w.writeBytes a).writeBytes b = w.writeBytes (a ++ b) := by
  rw [writeBytes, writeBytes, writeBytes, append_assoc]

theorem foldl_writeBytes {α : Type} {f : Writer → α → Writer} {g : α → Bytes}
    (hf : ∀ w x, f w x = w.writeBytes (g x))
    (w : Writer) {xs : List α} : xs.foldl f w = w.writeBytes (xs.flatMap g) := by
  induction xs generalizing w with
  | nil => rw [flatMap_nil, writeBytes_nil, foldl_nil]
  | cons x xs ih => rw [foldl_cons, ih, hf, writeBytes_writeBytes, flatMap_cons]

theorem writeInt16_ofNat {n : Nat} : w.writeInt16 (UInt16.ofNat n) = w.writeBytes (bytes 2 n) := by
  exact congrArg w.writeBytes (bytes_mod 2 n)

theorem writeInt32_ofNat {n : Nat} : w.writeInt32 (UInt32.ofNat n) = w.writeBytes (bytes 4 n) := by
  exact congrArg w.writeBytes (bytes_mod 4 n)

theorem writeParam_eq (w : Writer) {v : Option Bytes} :
    w.writeParam v = w.writeBytes (Grammar.param.encode v) := by
  cases v with
  | none => rfl
  | some v =>
    rw [writeParam, writeInt32_ofNat, writeBytes_writeBytes]
    rfl

/-- The writer after a message with this type and this body. -/
def wrote (w : Writer) (t : UInt8) (b : Bytes) : Writer :=
  ⟨w.buf ++ t :: (bytes 4 (4 + b.length) ++ b), w.buf.length, false, false⟩

/-- A message is started, filled and finished. -/
theorem finish_start (hw : w.inMessage = false) {t : UInt8} {b : Bytes} :
    ((w.startMessage t).bind fun w => (w.writeBytes b).finishMessage) = some (w.wrote t b) := by
  have hbuf : w.buf ++ [t, 0, 0, 0, 0] ++ b = (w.buf ++ [t]) ++ ([0, 0, 0, 0] ++ b) := by simp
  have hf : (w.buf ++ [t]).length = w.buf.length + 1 := by simp
  have ht : (w.buf ++ [t, 0, 0, 0, 0] ++ b).take (w.buf.length + 1) = w.buf ++ [t] := by
    rw [hbuf, take_left' hf]
  have hd : (w.buf ++ [t, 0, 0, 0, 0] ++ b).drop (w.buf.length + 1 + 4) = b := by
    rw [hbuf, ← drop_drop, drop_left' hf]
    rfl
  have hl : (w.buf ++ [t, 0, 0, 0, 0] ++ b).length - (w.buf.length + 1) = 4 + b.length := by
    simp only [length_append, length_cons, length_nil]
    omega
  simp only [startMessage, hw, Bool.false_eq_true, if_false, bind_some, writeBytes, finishMessage,
    if_true, ht, hd, hl, UInt32.toNat_ofNat']
  have hb : bytes 4 ((4 + b.length) % 2 ^ 32) = bytes 4 (4 + b.length) :=
    bytes_mod 4 _
  rw [hb, wrote, append_assoc, append_assoc]
  rfl

theorem append_eq (hw : w.inMessage = false) {m : Message} :
    w.append m = some (w.wrote m.msgType m.body) := by
  have hi := foldl_writeBytes (f := writeInt16) fun _ _ => rfl
  have hin := foldl_writeBytes (f := writeInt32) fun _ _ => rfl
  have hp := foldl_writeBytes writeParam_eq
  rw [← finish_start hw]
  cases m with
  | query sql =>
    simp only [append, appendQuery, writeString, writeBytes_writeBytes]
    rfl
  | parse name query paramOIDs =>
    simp only [append, appendParse, writeString, writeBytes_writeBytes, writeInt16_ofNat, hin,
      append_assoc,
      Message.body, Grammar.parse, Grammar.int32, Codec.pair, Codec.string, Codec.list, Codec.map,
        Codec.nat]
    rfl
  | bind portal stmt paramFormats paramValues resultFormats =>
    simp only [append, appendBind, writeString, writeBytes_writeBytes, writeInt16_ofNat, hi, hp,
      append_assoc, Message.body, Grammar.bind, Grammar.int16, Codec.pair, Codec.string, Codec.list,
        Codec.map,
      nat]
    rfl
  | describe kind name =>
    simp only [append, appendDescribe, writeByte, writeString, writeBytes_writeBytes, append_assoc]
    rfl
  | execute portal maxRows =>
    simp only [append, appendExecute, writeInt32, writeString, writeBytes_writeBytes, append_assoc,
      Message.body, Grammar.execute, Grammar.int32, Codec.pair, Codec.string, Codec.map, Codec.nat]
    rfl
  | sync =>
    simp only [append, appendSync, Message.body, writeBytes_nil]
    rfl

/-- A batch is the frames of its messages. -/
theorem batch_eq {ms : List Message} : w.batch ms = some (ms.flatMap Grammar.message.encode) := by
  have hf : ∀ w : Writer, w.inMessage = false →
      (ms.foldlM append w).map buf = some (w.buf ++ ms.flatMap Grammar.message.encode) := by
    induction ms with
    | nil =>
      intro w _
      rw [flatMap_nil, append_nil]
      rfl
    | cons m ms ih =>
      intro w hw
      rw [foldlM_cons, append_eq hw, flatMap_cons, ← append_assoc]
      exact ih (w.wrote m.msgType m.body) rfl
  exact hf w.reset rfl

end Writer

/-! ## What the server reads -/

theorem transmit_eq {batches : List (List Message)} :
    transmit batches = some (batches.flatten.flatMap Grammar.message.encode) := by
  induction batches with
  | nil => rfl
  | cons ms batches ih =>
    rw [transmit, Writer.batch_eq, ih, flatten_cons, flatMap_append]
    rfl

variable {ms : List Message} {args : List Arg} {values : List (Option Bytes)}

theorem stream_transmit_iff : Grammar.message.stream (ms.flatMap Grammar.message.encode) = some ms ↔
      ∀ m ∈ ms, m.Proper ∧ 4 + m.body.length < 2 ^ 31 := by
  rw [Grammar.message.stream_iff fun m => cons_ne_nil _ _]
  exact and_iff_left rfl

/-- The writer refuses nothing, and the server recovers the messages that were written exactly
if no string of them holds a zero byte, no list is longer than its count can say, and no message
is longer than its length can say. -/
theorem recovered_iff (batches : List (List Message)) :
    ∃ b, transmit batches = some b ∧ (Grammar.message.stream b = some batches.flatten ↔
      ∀ m ∈ batches.flatten, m.Proper ∧ 4 + m.body.length < 2 ^ 31) :=
  ⟨_, transmit_eq, stream_transmit_iff⟩

/-- The text of a query holds bytes that the server reads as the type of a parameter. -/
theorem parse_misread : (transmit [[.parse [] [0x71, 0, 0, 1, 0] []]]).bind Grammar.message.stream =
      some [.parse [] [0x71] [0]] := by
  decide

/-! ### Extended queries -/

theorem encodeArgs_length {formats : List UInt16} (h : encodeArgs args = some (values, formats)) :
    values.length = args.length ∧ formats.length = args.length := by
  induction args generalizing values formats with
  | nil =>
    cases h
    exact ⟨rfl, rfl⟩
  | cons a args ih =>
    obtain ⟨x, -, h⟩ := bind_eq_some_iff.mp h
    obtain ⟨y, hy, h⟩ := bind_eq_some_iff.mp h
    cases h
    obtain ⟨hv, hf⟩ := ih hy
    exact ⟨congrArg (· + 1) hv, congrArg (· + 1) hf⟩

/-- A parameter is shorter than the message that binds it. -/
theorem length_le_of_mem (portal stmt : Bytes) (formats results : List UInt16)
    {b : Bytes} (h : some b ∈ values) :
    b.length ≤ (Message.bind portal stmt formats values results).body.length := by
  obtain ⟨before, after, rfl⟩ := append_of_mem h
  simp only [Message.body, Grammar.bind, pair, list, Grammar.param, flatMap_append, flatMap_cons,
    length_append]
  omega

/-- An extended query is recovered exactly if its strings hold no zero byte, it has less than
2^16 arguments and result formats, and its messages are not too long. -/
theorem extendedQuery_recovered_iff {stmtName query : Bytes} {resultFormats : List UInt16}
    {ha : Bool} (h : extendedQuery stmtName query args resultFormats ha = some ms) :
    ∃ values formats b, encodeArgs args = some (values, formats) ∧ transmit [ms] = some b ∧
      (Grammar.message.stream b = some ms ↔
        (stmtName = [] → 0 ∉ query ∧ query.length + 8 < 2 ^ 31) ∧ 0 ∉ stmtName ∧
          args.length < 2 ^ 16 ∧ resultFormats.length < 2 ^ 16 ∧
          4 + (Message.bind [] stmtName formats values resultFormats).body.length < 2 ^ 31) := by
  obtain ⟨⟨values, formats⟩, hargs, h⟩ := bind_eq_some_iff.mp h
  cases h
  obtain ⟨hva, hf⟩ := encodeArgs_length hargs
  refine ⟨values, formats, _, hargs, transmit_eq, ?_⟩
  rw [flatten_singleton, stream_transmit_iff]
  have hp : (∀ m ∈ if stmtName = [] then [Message.parse [] query []] else [],
      m.Proper ∧ 4 + m.body.length < 2 ^ 31) ↔
        (stmtName = [] → 0 ∉ query ∧ query.length + 8 < 2 ^ 31) := by
    by_cases hname : stmtName = []
    · have hsize : 4 + (Message.parse [] query []).body.length = query.length + 8 := by
        simp only [Message.body, Grammar.parse, pair, string, list, length_append,
          length_bytes, flatMap_nil, length_nil, length_singleton]
        omega
      simp only [hname, if_true, forall_mem_singleton, hsize, Message.Proper, not_mem_nil,
        not_false_eq_true, length_nil, true_and, forall_const]
      exact and_congr_left fun _ => and_iff_left (by decide)
    · rw [if_neg hname]
      exact iff_of_true nofun fun h => (hname h).elim
  have hbind : (Message.bind [] stmtName formats values resultFormats).Proper ∧
      4 + (Message.bind [] stmtName formats values resultFormats).body.length < 2 ^ 31 ↔
      0 ∉ stmtName ∧ args.length < 2 ^ 16 ∧ resultFormats.length < 2 ^ 16 ∧
        4 + (Message.bind [] stmtName formats values resultFormats).body.length < 2 ^ 31 := by
    simp only [Message.Proper, hva, hf]
    constructor
    · rintro ⟨⟨-, hstmt, hc, -, hr⟩, hsize⟩
      exact ⟨hstmt, hc, hr, hsize⟩
    · rintro ⟨hstmt, hc, hr, hsize⟩
      refine ⟨⟨not_mem_nil, hstmt, hc, ⟨hc, fun v hv b hb => ?_⟩, hr⟩, hsize⟩
      cases hb
      have hlen := length_le_of_mem [] stmtName formats resultFormats hv
      omega
  have hfi : ∀ m ∈ (if ha then [Message.describe .portal []] else []) ++ [.execute [] 0, .sync],
      m.Proper ∧ 4 + m.body.length < 2 ^ 31 := by
    cases ha <;> simp [Message.Proper, Message.body, Grammar.describe, Grammar.execute,
      Grammar.target, Codec.pair, Codec.string, Grammar.int32, Codec.map, Codec.nat]
  rw [append_assoc, forall_mem_append, forall_mem_append, hp, forall_mem_singleton, hbind]
  exact and_iff_left hfi

theorem extendedQuery_recovered_select : ∃ ms b,
    extendedQuery [] (ascii "SELECT $1, $2") [.int 42, .null] [0, 1] true = some ms ∧
      transmit [ms] = some b ∧ Grammar.message.stream b = some ms := by
  have hq : extendedQuery [] (ascii "SELECT $1, $2") [.int 42, .null] [0, 1] true = some _ := rfl
  obtain ⟨values, formats, b, ha, hb, hi⟩ := extendedQuery_recovered_iff hq
  cases ha
  exact ⟨_, b, hq, hb, hi.mpr (by decide)⟩

end Celeris.Postgres
