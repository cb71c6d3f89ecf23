import Celeris.Data.BigEndian
import Celeris.WebSocket.Utf8Stream
import Mathlib.Tactic.Common

/-!
# Reading one frame (`middleware/websocket/frame.go`, `conn.go`)

The bytes that a client sends lie in front of the connection's buffered reader. They
arrive in pieces: `Read` hands out what has arrived, at least one byte and at most what is
asked for, and the sizes of these pieces are given from outside. `ReadFull` and `Peek` wait
until they have all that they ask for, or the stream has ended.

A frame is taken from the buffer at once when it is small (`readFrameFast`), and otherwise
in steps (`readFrameSlow`). The text of an uncompressed message is validated there, piece
by piece. Neither the pieces nor the choice between the two ways can be seen in what is
read (`readFrameSlow_eq`, `readFrameFast_eq`).
-/

open Computability

namespace Celeris.WebSocket

open Except Option

/-! ## Fallible steps -/

section Fallible

variable {ε α β : Type} {x : Except ε α} {f : α → Except ε β}

theorem bind_eq_ok {y : β} : x >>= f = .ok y ↔ ∃ z, x = .ok z ∧ f z = .ok y := by
  cases x <;> simp [bind, Except.bind]

theorem bind_eq_error {e : ε} : x >>= f = .error e ↔ x = .error e ∨ ∃ z, x = .ok z ∧
    f z = .error e := by
  cases x <;> simp [bind, Except.bind]

end Fallible

/-! ## Frames -/

/-- The four bits of a frame that say what it carries. -/
abbrev Opcode := UInt8

def opContinuation : Opcode := 0x0
def opText : Opcode := 0x1
def opBinary : Opcode := 0x2
def opClose : Opcode := 0x8
def opPing : Opcode := 0x9
def opPong : Opcode := 0xA

/-- Close, ping and pong, and the opcodes reserved for others like them. -/
def isControl (o : Opcode) : Bool := 0x8 ≤ o

/-- The errors that a read returns. -/
inductive FrameError where
  | protocol
  | frameTooLarge
  | reservedBits
  | fragmentedControl
  | controlTooLarge
  | invalidUTF8
  | readLimit
  /-- The stream has ended, after none of the bytes asked for. -/
  | eof
  /-- The stream has ended after some of them. -/
  | unexpectedEOF
  /-- The error of the inflater. -/
  | inflate
  /-- The error of a control frame's handler. -/
  | handler (text : String)
  deriving DecidableEq, Repr

/-- The text of an error that a close frame may quote. -/
def FrameError.text : FrameError → String
  | .protocol => "websocket: protocol error"
  | .frameTooLarge => "websocket: frame payload too large"
  | .reservedBits => "websocket: reserved bits set"
  | .fragmentedControl => "websocket: fragmented control frame"
  | .controlTooLarge => "websocket: control frame payload > 125"
  | .invalidUTF8 => "websocket: invalid UTF-8 in text frame"
  | .readLimit => "websocket: message exceeds read limit"
  | .eof => "EOF"
  | .unexpectedEOF => "unexpected EOF"
  | .inflate => "flate: corrupt input"
  | .handler text => text

def closeProtocolError : Nat := 1002
def closeInvalidPayload : Nat := 1007
def closeMessageTooBig : Nat := 1009

/-- How a read fails: the error, and the code and text of the close frame that it has written. -/
structure Failure where
  err : FrameError
  close : Option (Nat × String)
  deriving DecidableEq, Repr

def Failure.silent (err : FrameError) : Failure := ⟨err, none⟩

/-- `frameHeader`. -/
structure Header where
  fin : Bool
  rsv1 : Bool
  rsv2 : Bool
  rsv3 : Bool
  opcode : Opcode
  masked : Bool
  length : Nat
  mask : Bytes
  deriving DecidableEq, Repr

/-- The header that the first two bytes of a frame give, with the short length and no mask yet. -/
def header (b0 b1 : UInt8) : Header where
  fin := b0 &&& 0x80 != 0
  rsv1 := b0 &&& 0x40 != 0
  rsv2 := b0 &&& 0x20 != 0
  rsv3 := b0 &&& 0x10 != 0
  opcode := b0 &&& 0x0F
  masked := b1 &&& 0x80 != 0
  length := (b1 &&& 0x7F).toNat
  mask := []

/-- `io.ReadFull` of `n` bytes: what is read and what is left. -/
def readFull (n : Nat) (b : Bytes) : Except Failure (Bytes × Bytes) :=
  if n ≤ b.length then .ok (b.take n, b.drop n)
  else .error (.silent (if b = [] then .eof else .unexpectedEOF))

/-- The length of a frame whose first bytes announce a longer one. -/
def readLength (h : Header) (b : Bytes) : Except Failure (Header × Bytes) :=
  if h.length < 126 then .ok (h, b)
  else if h.length = 126 then do
    let (n, b) ← readFull 2 b
    .ok ({ h with length := BigEndian.value n }, b)
  else do
    let (n, b) ← readFull 8 b
    -- the length is a signed number of 64 bits
    if 2 ^ 63 ≤ BigEndian.value n then .error (.silent .frameTooLarge)
    else .ok ({ h with length := BigEndian.value n }, b)

def readMask (h : Header) (b : Bytes) : Except Failure (Header × Bytes) :=
  if h.masked then do
    let (m, b) ← readFull 4 b
    .ok ({ h with mask := m }, b)
  else .ok (h, b)

/-- `readFrameHeader`: the header, and the bytes after it. -/
def readFrameHeader : Bytes → Except Failure (Header × Bytes)
  | [] => .error (.silent .eof)
  | [_] => .error (.silent .unexpectedEOF)
  | b0 :: b1 :: b => do
      let (h, b) ← readLength (header b0 b1) b
      readMask h b

def validateFrameHeader (h : Header) (compressionEnabled : Bool) : Option FrameError :=
  if h.rsv2 || h.rsv3 then some .reservedBits
  else if h.rsv1 && !compressionEnabled then some .reservedBits
  else if h.rsv1 && isControl h.opcode then some .reservedBits
  else if h.opcode ∉ [opContinuation, opText, opBinary, opClose, opPing, opPong] then some .protocol
  else if isControl h.opcode then
    if !h.fin then some .fragmentedControl
    else if h.length > 125 then some .controlTooLarge
    else none
  else none

/-- `maskBytesOffset`: take off the mask of bytes that stand at an offset in the payload. -/
def unmask (mask : Bytes) (pos : Nat) (b : Bytes) : Bytes :=
  b.mapIdx fun i x => x ^^^ mask.getD ((pos + i) % 4) 0

variable {mask b p rest : Bytes} {pos : Nat} {b0 b1 : UInt8}

@[simp] theorem length_unmask : (unmask mask pos b).length = b.length :=
  List.length_mapIdx

theorem unmask_append {a : Bytes} :
    unmask mask pos (a ++ b) = unmask mask pos a ++ unmask mask (pos + a.length) b := by
  rw [unmask, List.mapIdx_append]
  refine congrArg _ (congrArg (fun f => List.mapIdx f b) ?_)
  funext i x
  rw [Nat.add_assoc, Nat.add_comm a.length]

/-! ## The connection -/

/-- What is fixed for a connection. -/
structure Config where
  /-- Whether permessage-deflate has been negotiated. -/
  compressEnabled : Bool
  /-- Below the largest `int64`, at which `maxOutput+1` would wrap in `decompressMessage`. -/
  readLimit : Int
  /-- The size of the buffered reader. -/
  bufSize : Nat
  /-- The inflater: its output up to its end, and whether that end is an error. -/
  inflate : Bytes → Bytes × Bool

/-- What reading changes. -/
structure Conn where
  /-- The bytes of the client not yet taken. -/
  input : Bytes
  /-- The opcode of the message whose fragments are being read, or zero. -/
  readFrag : Opcode
  readFragBuf : Bytes
  readCompressed : Bool
  /-- The pending bytes of `readUTF8`. -/
  readUTF8 : Bytes
  deriving DecidableEq, Repr

variable {cfg : Config} {c : Conn} {h : Header} {sizes : List Nat}

def unmasked : Failure := ⟨.protocol, some (closeProtocolError, "unmasked client frame")⟩
def tooLarge : Failure := ⟨.readLimit, some (closeMessageTooBig, "message too large")⟩
def invalidUTF8 : Failure := ⟨.invalidUTF8, some (closeInvalidPayload, "invalid UTF-8")⟩

/-- The checks of a header that both ways of reading make. -/
def Config.check (cfg : Config) (h : Header) : Except Failure Unit :=
  match validateFrameHeader h cfg.compressEnabled with
  | some err => .error ⟨err, some (closeProtocolError, err.text)⟩
  | none =>
    if !h.masked then .error unmasked
    else if h.length > cfg.readLimit then .error tooLarge
    else .ok ()

/-- The payload is text of an uncompressed message, as far as the connection knows. -/
def Conn.streams (c : Conn) (h : Header) : Bool :=
  !h.rsv1 && !c.readCompressed &&
    (h.opcode == opText || (h.opcode == opContinuation && c.readFrag == opText))

/-- The pieces in which `Read` hands out some bytes, one more than the given size each; what is
left when no size is left comes at once. -/
def chunks : List Nat → Bytes → List Bytes
  | _, [] => []
  | [], x :: b => [x :: b]
  | n :: sizes, x :: b => (x :: b).take (n + 1) :: chunks sizes ((x :: b).drop (n + 1))

/-- Validate the pieces of a payload, the first of them at `pos`. -/
def feedChunks (h : Header) : Nat → Bytes → List Bytes → Option Bytes
  | _, pending, [] => some pending
  | pos, pending, chunk :: rest =>
    match feed pending (unmask h.mask pos chunk) (pos + chunk.length == h.length && h.fin) with
    | none => none
    | some pending => feedChunks h (pos + chunk.length) pending rest

/-- The payload of a frame, validated as it arrives. -/
def Conn.readText (c : Conn) (h : Header) (b : Bytes) (sizes : List Nat) :
    Except Failure (Header × Bytes × Conn) :=
  match feedChunks h 0 (if h.opcode = opText then [] else c.readUTF8)
    (chunks sizes (b.take h.length)) with
  | none => .error invalidUTF8
  | some pending =>
    if b.length < h.length then .error (.silent .eof)
    else .ok (h, unmask h.mask 0 (b.take h.length),
      { c with input := b.drop h.length, readUTF8 := pending })

/-- The payload of any other frame. -/
def Conn.readPayload (c : Conn) (h : Header) (b : Bytes) :
    Except Failure (Header × Bytes × Conn) := do
  let (payload, b) ← readFull h.length b
  .ok (h, unmask h.mask 0 payload, { c with input := b })

def Conn.readFrameSlow (cfg : Config) (c : Conn) (sizes : List Nat) :
    Except Failure (Header × Bytes × Conn) := do
  let (h, b) ← readFrameHeader c.input
  cfg.check h
  if c.streams h then c.readText h b sizes else c.readPayload h b

/-- `Peek`: the next bytes, if the buffer can hold so many and they come. -/
def Config.peek (cfg : Config) (n : Nat) (b : Bytes) : Option Bytes :=
  if n ≤ cfg.bufSize ∧ n ≤ b.length then some (b.take n) else none

/-- The size of a header whose first bytes are known. -/
def Header.size (h : Header) : Nat :=
  2 + (if h.length = 126 then 2 else if h.length = 127 then 8 else 0) + (if h.masked then 4 else 0)

/-- The header of a frame that lies in the buffer as a whole. -/
def Header.peeked (h : Header) (buf : Bytes) : Header :=
  if h.masked then { h with mask := (buf.drop 2).take 4 } else h

/-- Take a frame that lies in the buffer as a whole. -/
def Conn.takeFrame (cfg : Config) (c : Conn) (h : Header) (buf : Bytes) :
    Except Failure (Header × Bytes × Conn) := do
  cfg.check (h.peeked buf)
  .ok (h.peeked buf, unmask (h.peeked buf).mask 0 (buf.drop h.size),
    { c with input := c.input.drop (h.size + h.length) })

def Conn.readFrameFast (cfg : Config) (c : Conn) (sizes : List Nat) :
    Except Failure (Header × Bytes × Conn) :=
  match cfg.peek 2 c.input with
  | some [b0, b1] =>
    if c.streams (header b0 b1) then c.readFrameSlow cfg sizes
    else if (header b0 b1).length < 126 ∧ (header b0 b1).size + (header b0 b1).length ≤ 4096 then
      match cfg.peek ((header b0 b1).size + (header b0 b1).length) c.input with
      | some buf => c.takeFrame cfg (header b0 b1) buf
      | none => c.readFrameSlow cfg sizes
    else c.readFrameSlow cfg sizes
  | _ => c.readFrameSlow cfg sizes

/-! ## The pieces do not matter -/

/-- Pieces of a payload, fed one by one, come to the same as all of it at once. -/
theorem feedChunks_chunks {q : Bytes} (hq : q ≠ []) (hlen : pos + q.length ≤ h.length) :
    feedChunks h pos p (chunks sizes q) = feed p (unmask h.mask pos q)
      (pos + q.length == h.length && h.fin) := by
  induction sizes generalizing pos p q with
  | nil =>
    cases q with
    | nil => exact (hq rfl).elim
    | cons x b =>
      rw [chunks, feedChunks]
      cases feed p (unmask h.mask pos (x :: b)) (pos + (x :: b).length == h.length && h.fin) <;> rfl
  | cons n sizes ih =>
    cases q with
    | nil => exact (hq rfl).elim
    | cons x b =>
      rw [chunks, feedChunks]
      by_cases hd : (x :: b).drop (n + 1) = []
      · have ht : (x :: b).take (n + 1) = x :: b :=
          List.take_of_length_le (List.drop_eq_nil_iff.mp hd)
        rw [hd, ht, chunks]
        cases feed p (unmask h.mask pos (x :: b)) (pos + (x :: b).length == h.length && h.fin) <;>
          rfl
      · have hsum : ((x :: b).take (n + 1)).length + ((x :: b).drop (n + 1)).length =
            (x :: b).length := by
          rw [← List.length_append, List.take_append_drop]
        have hpos : 0 < ((x :: b).drop (n + 1)).length := List.length_pos_iff.mpr hd
        -- a piece that is followed by another is not the last
        have hmid : (pos + ((x :: b).take (n + 1)).length == h.length) = false :=
          beq_eq_false_iff_ne.mpr (by omega)
        have hl : pos + ((x :: b).take (n + 1)).length + ((x :: b).drop (n + 1)).length =
            pos + (x :: b).length := by omega
        conv_rhs => rw [← List.take_append_drop (n + 1) (x :: b), unmask_append, feed_append,
          List.take_append_drop]
        rw [hmid, Bool.false_and]
        cases feed p (unmask h.mask pos ((x :: b).take (n + 1))) false with
        | none => rfl
        | some pending =>
          dsimp only [bind_some]
          rw [ih hd (by omega), hl]

/-- The payload of a text frame, fed at once. -/
theorem feedChunks_payload : feedChunks h 0 p (chunks sizes (b.take h.length)) =
      if b.take h.length = [] then some p
      else feed p (unmask h.mask 0 (b.take h.length)) (decide (h.length ≤ b.length) && h.fin) := by
  by_cases hn : b.take h.length = []
  · rw [if_pos hn, hn]
    cases sizes <;> rfl
  · have hle : (b.take h.length).length ≤ h.length := List.length_take_le ..
    have hw : ((b.take h.length).length == h.length) = decide (h.length ≤ b.length) := by
      rw [List.length_take, beq_eq_decide]
      exact decide_eq_decide.mpr (by omega)
    rw [if_neg hn, feedChunks_chunks hn (by omega), Nat.zero_add, hw]

/-- A frame is read alike in whatever pieces it arrives. -/
theorem Conn.readFrameSlow_eq (cfg : Config) (c : Conn) (sizes : List Nat) :
    c.readFrameSlow cfg sizes = c.readFrameSlow cfg [] := by
  unfold Conn.readFrameSlow Conn.readText
  simp [feedChunks_payload]

variable {n : Nat} {b : Bytes} {f : Failure}

theorem readFull_of_le (hn : n ≤ b.length) : readFull n b = .ok (b.take n, b.drop n) := if_pos hn

/-- The header of a frame of short length that lies in the buffer as a whole. -/
theorem readFrameHeader_peeked (hs : (header b0 b1).length < 126)
    (hn : (header b0 b1).size ≤ n) (hlen : n ≤ (b0 :: b1 :: b).length) :
    readFrameHeader (b0 :: b1 :: b) =
      .ok ((header b0 b1).peeked ((b0 :: b1 :: b).take n),
        (b0 :: b1 :: b).drop (header b0 b1).size) := by
  have hl : readLength (header b0 b1) b = .ok (header b0 b1, b) := if_pos hs
  rw [readFrameHeader, hl]
  generalize header b0 b1 = h at *
  change readMask h b = _
  rw [Header.size, if_neg (by omega), if_neg (by omega)] at hn ⊢
  cases hm : h.masked with
  | false =>
    have hnot : ¬ h.masked = true := Bool.eq_false_iff.mp hm
    rw [readMask, if_neg hnot, Header.peeked, if_neg hnot]
    rfl
  | true =>
    rw [hm, if_pos rfl] at hn
    obtain ⟨n, rfl⟩ := Nat.exists_eq_add_of_le' (show 2 ≤ n by omega)
    rw [List.length_cons, List.length_cons] at hlen
    have hf : readFull 4 b = .ok (b.take 4, b.drop 4) := readFull_of_le (by omega)
    have hmask : (b.take n).take 4 = b.take 4 := by rw [List.take_take, min_eq_left (by omega)]
    rw [readMask, if_pos hm, hf, Header.peeked, if_pos hm, List.take_succ_cons, List.take_succ_cons,
      List.drop_succ_cons, List.drop_succ_cons, List.drop_zero, hmask]
    rfl

/-- A frame of short length that lies in the buffer as a whole is read alike from there. -/
theorem Conn.takeFrame_eq (hc : c.input = b0 :: b1 :: b)
    (hs : c.streams (header b0 b1) = false) (hsh : (header b0 b1).length < 126)
    (hlen : (header b0 b1).size + (header b0 b1).length ≤ c.input.length) :
    c.takeFrame cfg (header b0 b1) (c.input.take ((header b0 b1).size + (header b0 b1).length)) =
      c.readFrameSlow cfg sizes := by
  have hh := readFrameHeader_peeked hsh (Nat.le_add_right ..) (hc ▸ hlen)
  rw [← hc] at hh
  generalize header b0 b1 = h at *
  have hpe : c.streams (h.peeked (c.input.take (h.size + h.length))) = false := by
    rw [← hs, Header.peeked]
    split_ifs <;> rfl
  have hl : (h.peeked (c.input.take (h.size + h.length))).length = h.length := by
    rw [Header.peeked]
    split_ifs <;> rfl
  have hp : (c.input.take (h.size + h.length)).drop h.size = (c.input.drop h.size).take
      h.length := by
    rw [List.drop_take, Nat.add_sub_cancel_left]
  unfold Conn.takeFrame Conn.readFrameSlow
  rw [hh, hp]
  generalize h.peeked (c.input.take (h.size + h.length)) = h' at *
  change _ = (cfg.check h').bind fun _ => _
  cases cfg.check h' with
  | error e => rfl
  | ok u =>
    have hf : readFull h.length (c.input.drop h.size) =
        .ok ((c.input.drop h.size).take h.length, (c.input.drop h.size).drop h.length) :=
      readFull_of_le (by rw [List.length_drop]; omega)
    rw [hpe, if_neg nofun, Conn.readPayload, hl, hf, List.drop_drop]
    rfl

/-- A frame is read alike from the buffer and in steps. -/
theorem Conn.readFrameFast_eq : c.readFrameFast cfg sizes = c.readFrameSlow cfg [] := by
  have hslow := c.readFrameSlow_eq cfg sizes
  unfold Conn.readFrameFast
  split
  next b0 b1 hp =>
    obtain ⟨⟨-, hl⟩, hi⟩ := ite_none_right_eq_some.mp hp
    obtain ⟨b, hb⟩ : ∃ b, c.input = b0 :: b1 :: b :=
      ⟨c.input.drop 2, by rw [← List.take_append_drop 2 c.input, some.inj hi]; rfl⟩
    split_ifs with hs hsm
    · exact hslow
    · split
      next buf hbuf =>
        obtain ⟨⟨-, hle⟩, hbuf⟩ := ite_none_right_eq_some.mp hbuf
        rw [← some.inj hbuf, Conn.takeFrame_eq hb (Bool.eq_false_iff.mpr hs) hsm.1 hle]
      next => exact hslow
    · exact hslow
  next => exact hslow

/-! ## What a frame yields

With the pieces gone, a frame is its header and the payload that has arrived for it. -/

/-- The payload of a frame, as far as it has arrived. -/
def Header.payload (h : Header) (b : Bytes) : Bytes := unmask h.mask 0 (b.take h.length)

def Header.complete (h : Header) (b : Bytes) : Bool := h.length ≤ b.length

/-- What the validator has pending when a frame begins. -/
def Conn.pending (c : Conn) (h : Header) : Bytes := if h.opcode = opText then [] else c.readUTF8

/-- What it has pending after the payload, or none if it refuses it. An empty payload is not fed. -/
def Conn.validated (c : Conn) (h : Header) (payload : Bytes) (final : Bool) : Option Bytes :=
  if c.streams h then if payload = [] then some (c.pending h) else feed (c.pending h) payload final
  else some c.readUTF8

/-- What a frame with a good header yields. -/
def Conn.yield (c : Conn) (h : Header) (b : Bytes) : Except Failure (Header × Bytes × Conn) :=
  match c.validated h (h.payload b) (h.complete b && h.fin) with
  | none => .error invalidUTF8
  | some pending =>
    if h.complete b then .ok (h, h.payload b,
      { c with input := b.drop h.length, readUTF8 := pending })
    else .error (.silent (if c.streams h || b.isEmpty then .eof else .unexpectedEOF))

theorem Header.payload_eq_nil : h.payload b = [] ↔ b.take h.length = [] := by
  rw [← List.length_eq_zero_iff, Header.payload, length_unmask, List.length_eq_zero_iff]

/-- The payload of text, in terms of what the validator makes of it. -/
theorem Conn.readText_eq (hs : c.streams h = true) : c.readText h b sizes = c.yield h b := by
  have hv : feedChunks h 0 (if h.opcode = opText then [] else c.readUTF8)
    (chunks sizes (b.take h.length)) =
      c.validated h (h.payload b) (h.complete b && h.fin) := by
    rw [feedChunks_payload, Conn.validated, if_pos hs]
    simp only [Header.payload_eq_nil]
    rfl
  rw [Conn.readText, Conn.yield, hv]
  cases c.validated h (h.payload b) (h.complete b && h.fin) with
  | none => rfl
  | some pending =>
    by_cases hle : h.length ≤ b.length
    · have hc : h.complete b = true := decide_eq_true hle
      dsimp only
      rw [if_neg (by omega), if_pos hc]
      rfl
    · have hc : ¬ h.complete b = true := by rwa [Header.complete, decide_eq_true_iff]
      dsimp only
      rw [if_pos (by omega), if_neg hc, hs]
      rfl

theorem Conn.readPayload_eq (hs : c.streams h = false) : c.readPayload h b = c.yield h b := by
  have hn : ¬ c.streams h = true := Bool.eq_false_iff.mp hs
  rw [Conn.readPayload, Conn.yield, Conn.validated, if_neg hn, readFull]
  by_cases hle : h.length ≤ b.length
  · have hc : h.complete b = true := decide_eq_true hle
    dsimp only
    rw [if_pos hle, if_pos hc]
    rfl
  · have hc : ¬ h.complete b = true := by rwa [Header.complete, decide_eq_true_iff]
    dsimp only
    rw [if_neg hle, if_neg hc, hs, Bool.false_or]
    cases b <;> rfl

/-- A frame is a header, the checks of it, and what its payload yields. -/
theorem Conn.readFrameFast_spec : c.readFrameFast cfg sizes =
      readFrameHeader c.input >>= fun x => cfg.check x.1 >>= fun _ => c.yield x.1 x.2 := by
  rw [Conn.readFrameFast_eq]
  refine bind_congr fun x => bind_congr fun _ => ?_
  cases hs : c.streams x.1 with
  | true => exact (if_pos rfl).trans (Conn.readText_eq hs)
  | false => exact (if_neg nofun).trans (Conn.readPayload_eq hs)

/-! ## Frames take bytes -/

theorem readFull_length {x : Bytes} (hok : readFull n b = .ok (x, rest)) :
    rest.length ≤ b.length := by
  unfold readFull at hok
  split_ifs at hok
  cases hok
  exact (List.drop_sublist ..).length_le

/-- A header has two bytes at least. -/
theorem readFrameHeader_length (hok : readFrameHeader b = .ok (h, rest)) :
    rest.length + 2 ≤ b.length := by
  match b with
  | [] => cases hok
  | [_] => cases hok
  | b0 :: b1 :: b =>
    obtain ⟨⟨h', b'⟩, hl, hm⟩ := bind_eq_ok.mp hok
    have hle : b'.length ≤ b.length := by
      unfold readLength at hl
      split_ifs at hl
      · cases hl
        exact le_rfl
      · obtain ⟨⟨_, _⟩, hf, hl⟩ := bind_eq_ok.mp hl
        cases hl
        exact readFull_length hf
      · obtain ⟨⟨_, _⟩, hf, hl⟩ := bind_eq_ok.mp hl
        dsimp only at hl
        split_ifs at hl
        cases hl
        exact readFull_length hf
    have hle' : rest.length ≤ b'.length := by
      change readMask h' b' = _ at hm
      unfold readMask at hm
      split_ifs at hm
      · obtain ⟨⟨_, _⟩, hf, hm⟩ := bind_eq_ok.mp hm
        cases hm
        exact readFull_length hf
      · cases hm
        exact le_rfl
    rw [List.length_cons, List.length_cons]
    omega

/-! ## How it fails -/

theorem readFull_error (he : readFull n b = .error f) :
    f = .silent .eof ∨ f = .silent .unexpectedEOF := by
  unfold readFull at he
  split_ifs at he with hn hb
  · exact .inl (error.inj he).symm
  · exact .inr (error.inj he).symm

/-- A header cannot be read because the stream ends, or because it announces too much. -/
theorem readFrameHeader_error (he : readFrameHeader b = .error f) :
    f = .silent .eof ∨ f = .silent .unexpectedEOF ∨ f = .silent .frameTooLarge := by
  have hl : ∀ {n : Nat} {b : Bytes}, readFull n b = .error f →
      f = .silent .eof ∨ f = .silent .unexpectedEOF ∨ f = .silent .frameTooLarge :=
    fun hf => (readFull_error hf).imp_right .inl
  match b with
  | [] => exact .inl (error.inj he).symm
  | [_] => exact .inr (.inl (error.inj he).symm)
  | b0 :: b1 :: b =>
    rcases bind_eq_error.mp he with he | ⟨⟨h, b⟩, -, he⟩
    · unfold readLength at he
      split_ifs at he
      · rcases bind_eq_error.mp he with hf | ⟨_, -, he⟩
        · exact hl hf
        · cases he
      · rcases bind_eq_error.mp he with hf | ⟨_, -, he⟩
        · exact hl hf
        · dsimp only at he
          split_ifs at he
          exact .inr (.inr (error.inj he).symm)
    · change readMask h b = _ at he
      unfold readMask at he
      split_ifs at he
      rcases bind_eq_error.mp he with hf | ⟨_, -, he⟩
      · exact hl hf
      · cases he

/-- The checks refuse a header for one of its bits, for its mask or for its length. -/
theorem Config.check_error (he : cfg.check h = .error f) : f = unmasked ∨ f = tooLarge ∨
      ∃ err ∈ [FrameError.reservedBits, .protocol, .fragmentedControl, .controlTooLarge],
        f = ⟨err, some (closeProtocolError, err.text)⟩ := by
  unfold Config.check at he
  cases hv : validateFrameHeader h cfg.compressEnabled with rw [hv] at he
  | some err =>
    refine .inr (.inr ⟨err, ?_, (error.inj he).symm⟩)
    unfold validateFrameHeader at hv
    split_ifs at hv <;> cases hv <;> decide
  | none =>
    split_ifs at he
    · exact .inl (error.inj he).symm
    · exact .inr (.inl (error.inj he).symm)

/-- A payload is refused as text, or the stream ends in it. -/
theorem Conn.yield_error (he : c.yield h b = .error f) :
    f = invalidUTF8 ∧ c.validated h (h.payload b) (h.complete b && h.fin) = none ∨
      f = .silent .eof ∨ f = .silent .unexpectedEOF := by
  unfold Conn.yield at he
  cases hv : c.validated h (h.payload b) (h.complete b && h.fin) with rw [hv] at he
  | none => exact .inl ⟨(error.inj he).symm, rfl⟩
  | some pending =>
    split_ifs at he
    · exact .inr (.inl (error.inj he).symm)
    · exact .inr (.inr (error.inj he).symm)

/-- A frame cannot be read because of its header or because of its payload. -/
theorem Conn.readFrameFast_error (he : c.readFrameFast cfg sizes = .error f) :
    readFrameHeader c.input = .error f ∨
      ∃ h b, readFrameHeader c.input = .ok (h, b) ∧
        (cfg.check h = .error f ∨ c.yield h b = .error f) := by
  rw [Conn.readFrameFast_spec] at he
  rcases bind_eq_error.mp he with he | ⟨⟨h, b⟩, hh, he⟩
  · exact .inl he
  · refine .inr ⟨h, b, hh, ?_⟩
    rcases bind_eq_error.mp he with he | ⟨-, -, he⟩
    · exact .inl he
    · exact .inr he

end Celeris.WebSocket
