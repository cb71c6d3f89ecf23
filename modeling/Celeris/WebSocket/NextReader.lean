import Celeris.WebSocket.Message

/-!
# Reading messages as streams (`NextReader` in `middleware/websocket/reader.go`)

`NextReader` returns the type of the next message and a reader of its payload, which
takes further frames as it is read. The fragments of a message are known to that reader and
not to the connection: `readFrag` stays zero. The caller here reads each reader to its end,
that is, until it returns `io.EOF`, and then calls `NextReader` again.

On a connection without compression this is compared with a caller of `ReadMessage`, over the
whole stream of a client: the messages, and the kind of the failure that ends the reading. The two
part at a continuation that continues nothing, at one that takes a message past the read limit or a
text out of UTF-8, and where the stream ends inside a message.
-/

open Computability

namespace Celeris.WebSocket

open Celeris.WebSocket.Conn List Nat

/-! ## One turn -/

/-- Where the caller stands. -/
inductive Mode where
  /-- In `NextReader`, before the first frame of a message. -/
  | idle
  /-- In `Read` of a `messageReader`, with its opcode and what it has handed out. -/
  | streaming (op : Opcode) (data : Bytes)
  /-- In `ReadMessage`, which `NextReader` calls for the fragments of a compressed message. -/
  | assembling
  deriving DecidableEq, Repr

/-- What a turn yields: the message that it completes, if any, and where it leaves the caller. -/
abbrev Turn := Except Failure (Option (Opcode × Bytes) × Conn × Mode)

/-- A data frame in `NextReader`. -/
def Conn.nextReader (cfg : Config) (c : Conn) (h : Header) (payload : Bytes) : Turn :=
  if h.fin && !h.rsv1 then
    if h.opcode = opText ∧ Utf8.valid payload = false then .error invalidUTF8
    else .ok (some (h.opcode, payload), c, .idle)
  else if h.rsv1 then
    if !h.fin then
      .ok (none, { c with readFrag := h.opcode, readCompressed := true, readFragBuf := payload },
        .assembling)
    else do
      let data ← cfg.decompressMessage payload
      if h.opcode = opText ∧ Utf8.valid data = false then .error invalidUTF8
      else .ok (some (h.opcode, data), c, .idle)
  else .ok (none, c, .streaming h.opcode payload)

/-- A data frame in `nextFrame` of a `messageReader`. -/
def Conn.nextFrame (c : Conn) (op : Opcode) (data : Bytes) (h : Header) (payload : Bytes) : Turn :=
  if h.opcode ≠ opContinuation ∧ op ≠ 0 then .error interleaved
  else if h.fin then .ok (some (op, data ++ payload), c, .idle)
  else .ok (none, c, .streaming op (data ++ payload))

/-- One turn of the caller: one frame. -/
def Conn.readNext (cfg : Config) (c : Conn) (mode : Mode) (a : Arrival) : Turn :=
  match mode with
  | .idle => do
      let (h, payload, c) ← c.readFrameFast cfg a.sizes
      if isControl h.opcode then (handleControl a).map fun _ => (none, c, .idle)
      else c.nextReader cfg h payload
  | .streaming op data =>
    match c.readFrameFast cfg a.sizes with
    -- the caller takes this error for the end of the message
    | .error f => if f = .silent .eof then .ok (some (op, data), { c with input := [] }, .idle)
        else .error f
    | .ok (h, payload, c) =>
      if isControl h.opcode then (handleControl a).map fun _ => (none, c, .streaming op data)
      else c.nextFrame op data h payload
  | .assembling => do
      let (m, c) ← c.readMessage cfg a
      .ok (m, c, if m.isSome then .idle else .assembling)

/-! ## The whole stream -/

/-- The messages that a caller obtains, and the failure that ends them. -/
abbrev Obtained := List (Opcode × Bytes) × Option Failure

/-- What a caller of `ReadMessage` obtains in so many turns. -/
def readTurns (cfg : Config) : Nat → Conn → (Nat → Arrival) → Obtained
  | 0, _, _ => ([], none)
  | n + 1, c, as =>
    match c.readMessage cfg (as 0) with
    | .error f => ([], some f)
    | .ok (m, c) =>
      (m.toList ++ (readTurns cfg n c fun k => as (k + 1)).1,
        (readTurns cfg n c fun k => as (k + 1)).2)

/-- What a caller of `NextReader` obtains in so many turns. -/
def nextTurns (cfg : Config) : Nat → Conn → Mode → (Nat → Arrival) → Obtained
  | 0, _, _, _ => ([], none)
  | n + 1, c, mode, as =>
    match c.readNext cfg mode (as 0) with
    | .error f => ([], some f)
    | .ok (m, c, mode) =>
      (m.toList ++ (nextTurns cfg n c mode fun k => as (k + 1)).1,
        (nextTurns cfg n c mode fun k => as (k + 1)).2)

/-- What a caller of `ReadMessage` obtains from a stream: every turn takes bytes from it, so that
the turns suffice. -/
def readAll (cfg : Config) (input : Bytes) (as : Nat → Arrival) : Obtained :=
  readTurns cfg (input.length + 2) (.opened input) as

/-- What a caller of `NextReader` obtains from a stream. -/
def nextAll (cfg : Config) (input : Bytes) (as : Nat → Arrival) : Obtained :=
  nextTurns cfg (input.length + 2) (.opened input) .idle as

/-- The kind of a failure: it does not matter in which read of a frame the stream ended. -/
def Failure.kind (f : Failure) : Failure := if f.err = .unexpectedEOF then .silent .eof else f

/-- The same messages and the same kind of failure after them. -/
def Same (x y : Obtained) : Prop := x.1 = y.1 ∧ x.2.map Failure.kind = y.2.map Failure.kind

/-! ## Streams that both read alike -/

/-- A frame at the front of a stream, read on its own: its header, its payload and what follows
it. -/
def frame (cfg : Config) (input : Bytes) : Except Failure (Header × Bytes × Bytes) :=
  ((Conn.opened input).readFrameFast cfg []).map fun x => (x.1, x.2.1, x.2.2.input)

/-- A fragment takes a text out of UTF-8. -/
def Broken (op : Opcode) (data payload : Bytes) (final : Bool) : Prop :=
  op = opText ∧ payload ≠ [] ∧ Hopeless (data ++ payload) final

/-- The stream ends in a continuation that takes a text out of UTF-8. -/
def BrokenOff (cfg : Config) (op : Opcode) (data input : Bytes) : Prop :=
  ∃ h b, readFrameHeader input = .ok (h, b) ∧ cfg.check h = .ok () ∧ h.opcode = opContinuation ∧
    h.complete b = false ∧ Broken op data (h.payload b) false

/-- Before the message in progress ends comes a frame that fails so on its own. -/
def FailsBy (cfg : Config) (f : Failure) : Nat → Bytes → (Nat → Option String) → Prop
  | 0, _, _ => False
  | n + 1, input, handlers =>
    match frame cfg input with
    | .error f' => f' = f
    | .ok (h, _, rest) =>
      (if isControl h.opcode then handlers 0 = none else h.opcode = opContinuation ∧
        h.fin = false) ∧ FailsBy cfg f n rest fun k => handlers (k + 1)

/-- The stream gives both callers the same, with a message in progress or none: a continuation
continues a message; one that takes it past the limit or out of UTF-8 is not its last, and a later
frame of the message fails in the same way on its own; and the stream does not end between the
fragments of a message. -/
def Alike (cfg : Config) : Nat → Option (Opcode × Bytes) → Bytes → (Nat → Option String) → Prop
  | 0, _, _, _ => True
  | n + 1, inProgress, input, handlers =>
    match frame cfg input with
    | .error f =>
      ∀ op data, inProgress = some (op, data) → f ≠ .silent .eof ∧ ¬ BrokenOff cfg op data input
    | .ok (h, payload, rest) =>
      if isControl h.opcode then handlers 0 = none →
        Alike cfg n inProgress rest fun k => handlers (k + 1)
      else
        match inProgress with
        | none =>
          h.opcode ≠ opContinuation ∧
            Alike cfg n (if h.fin then none else some (h.opcode, payload)) rest
              fun k => handlers (k + 1)
        | some (op, data) =>
          h.opcode = opContinuation →
            (Broken op data payload h.fin →
              h.fin = false ∧ FailsBy cfg invalidUTF8 n rest fun k => handlers (k + 1)) ∧
            (¬ Broken op data payload h.fin → (data.length + payload.length : Nat) > cfg.readLimit →
              h.fin = false ∧ FailsBy cfg tooLarge n rest fun k => handlers (k + 1)) ∧
            (¬ Broken op data payload h.fin →
              ¬ (data.length + payload.length : Nat) > cfg.readLimit →
              Alike cfg n (if h.fin then none else some (op, data ++ payload)) rest
                fun k => handlers (k + 1))

/-! ## Reading one frame without compression -/

/-- A connection on which nothing is compressed, with a validator that follows it. -/
structure Conn.Plain (c : Conn) : Prop where
  tracks : c.Tracks
  uncompressed : c.readCompressed = false

section Frame

variable {cfg : Config} {c : Conn} {h : Header} {b payload : Bytes} {final : Bool}
  {sizes : List Nat} {f : Failure}

theorem Conn.plain_of_idle (hf : c.readFrag = 0) (hp : c.readCompressed = false) : c.Plain where
  tracks ht := absurd (hf.symm.trans ht) (by decide)
  uncompressed := hp

theorem rsv1_of_check (hcfg : cfg.compressEnabled = false) (hcheck : cfg.check h = .ok ()) :
    h.rsv1 = false := by
  cases hrsv : h.rsv1 with
  | false => rfl
  | true =>
    have hvalid : validateFrameHeader h cfg.compressEnabled = some .reservedBits := by
      rw [validateFrameHeader, hrsv, hcfg]
      split_ifs <;> simp_all
    rw [Config.check, hvalid] at hcheck
    cases hcheck

theorem Conn.Plain.streams_iff (hc : c.Plain) (hrsv : h.rsv1 = false) :
    c.streams h = true ↔ c.messageType h = opText := by
  rw [Conn.streams_iff, Conn.messageType]
  split_ifs with hop
  · rw [hop]
    simp [hrsv, hc.uncompressed, opContinuation, opText]
  · simp [hrsv, hc.uncompressed, hop]

/-- A payload is refused exactly when it takes the text out of UTF-8. -/
theorem Conn.Plain.validated_eq_none_iff (hc : c.Plain) (hrsv : h.rsv1 = false) :
    c.validated h payload final = none ↔ Broken (c.messageType h) (c.before h) payload final := by
  rw [Broken, ← hc.streams_iff hrsv]
  constructor
  · intro hvalid
    obtain ⟨hs, hopeless⟩ := hc.tracks.validated_none hvalid
    refine ⟨hs, ?_, hopeless⟩
    rintro rfl
    rw [validated, if_pos hs, if_pos rfl] at hvalid
    cases hvalid
  · rintro ⟨hs, hne, hopeless⟩
    rw [validated, if_pos hs, if_neg hne]
    exact (feed_eq_none_iff (hc.tracks.splits_pending hs)).mpr hopeless

theorem Conn.readFrameFast_of_header (he : readFrameHeader c.input = .error f) :
    c.readFrameFast cfg sizes = .error f := by
  rw [readFrameFast_spec, he]
  rfl

theorem Conn.readFrameFast_of_check (hheader : readFrameHeader c.input = .ok (h, b))
    (he : cfg.check h = .error f) : c.readFrameFast cfg sizes = .error f := by
  rw [readFrameFast_spec, hheader]
  change cfg.check h >>= _ = _
  rw [he]
  rfl

open scoped Classical in
/-- What becomes of a frame whose header passes, as part of a message of a type and behind its data:
it is refused as text, read, or cut off by the end of the stream. -/
noncomputable def taken {α : Type} (h : Header) (b : Bytes) (op : Opcode) (data : Bytes) (x : α) :
    Except Failure α :=
  if Broken op data (h.payload b) (h.complete b && h.fin) then .error invalidUTF8
  else if h.complete b then .ok x
  else .error (.silent (if op = opText ∨ b = [] then .eof else .unexpectedEOF))

theorem Conn.Plain.readFrameFast_eq (hc : c.Plain) (hcfg : cfg.compressEnabled = false)
    (hheader : readFrameHeader c.input = .ok (h, b)) (hcheck : cfg.check h = .ok ()) :
      c.readFrameFast cfg sizes = taken h b (c.messageType h) (c.before h)
        (h, h.payload b, c.past h b ((c.validated h (h.payload b) h.fin).getD [])) := by
  have hrsv := rsv1_of_check hcfg hcheck
  rw [readFrameFast_spec, hheader]
  change cfg.check h >>= _ = _
  rw [hcheck]
  change c.yield h b = _
  simp only [yield, taken, ← hc.validated_eq_none_iff hrsv, ← hc.streams_iff hrsv, Bool.or_eq_true,
    List.isEmpty_iff]
  cases hvalid : c.validated h (h.payload b) (h.complete b && h.fin) with
  | none => rw [if_pos rfl]
  | some pending =>
    rw [if_neg (Option.some_ne_none _)]
    cases hco : h.complete b with
    | true =>
      rw [hco, Bool.true_and] at hvalid
      rw [hvalid]
      rfl
    | false => rfl

/-- Between messages no continuation is text. -/
theorem Conn.readFrameFast_idle (hi : c.readFrag = 0) (hp : c.readCompressed = false)
    (hcfg : cfg.compressEnabled = false) (hheader : readFrameHeader c.input = .ok (h, b))
    (hcheck : cfg.check h = .ok ()) : c.readFrameFast cfg sizes =
      taken h b h.opcode [] (h, h.payload b,
        c.past h b ((c.validated h (h.payload b) h.fin).getD [])) := by
  rw [(plain_of_idle hi hp).readFrameFast_eq hcfg hheader hcheck]
  by_cases hop : h.opcode = opContinuation
  · have ht : opContinuation ≠ opText := by decide
    simp [messageType, hop, hi, taken, Broken, ht, show (0 : Opcode) ≠ opText by decide]
  · rw [messageType, if_neg hop, before, if_neg hop]

theorem frame_eq {input : Bytes} (hcfg : cfg.compressEnabled = false)
    (hheader : readFrameHeader input = .ok (h, b)) (hcheck : cfg.check h = .ok ()) :
    frame cfg input = taken h b h.opcode [] (h, h.payload b, b.drop h.length) := by
  rw [frame, readFrameFast_idle (c := .opened input) rfl rfl hcfg hheader hcheck]
  unfold taken
  split_ifs <;> rfl

end Frame

/-! ## Both callers at one frame -/

/-- The mode in which the messages in progress are streamed. -/
def Mode.of : Option (Opcode × Bytes) → Mode
  | none => .idle
  | some (op, data) => .streaming op data

/-- The connection of a caller of `ReadMessage` and that of a caller of `NextReader`, with the same
message in progress. -/
structure Lockstep (c d : Conn) (inProgress : Option (Opcode × Bytes)) : Prop where
  input : d.input = c.input
  plain : c.Plain
  idle : d.readFrag = 0
  uncompressed : d.readCompressed = false
  between : inProgress = none → c.readFrag = 0
  within : ∀ op data, inProgress = some (op, data) → c.readFrag = op ∧ c.readFragBuf = data ∧ op ≠ 0

/-- What the two readers of a frame may do. -/
inductive Meets (cfg : Config) (c d : Conn) (inProgress : Option (Opcode × Bytes)) :
    Except Failure (Header × Bytes × Conn) → Except Failure (Header × Bytes × Conn) → Prop
  /-- Both fail, in the same way. -/
  | fail {f f' : Failure} : frame cfg c.input = .error f → f'.kind = f.kind →
      (∀ op data, inProgress = some (op, data) → ¬ BrokenOff cfg op data c.input) →
      Meets cfg c d inProgress (.error f') (.error f)
  /-- The stream ends in a fragment that one of them has refused before. -/
  | brokenOff {f : Failure} {op : Opcode} {data : Bytes} : inProgress = some (op, data) →
      frame cfg c.input = .error f → f.kind = .silent .eof → BrokenOff cfg op data c.input →
      Meets cfg c d inProgress (.error invalidUTF8) (.error f)
  /-- Both read it. -/
  | read {h : Header} {b p q : Bytes} : frame cfg c.input = .ok (h, h.payload b, b.drop h.length) →
      h.rsv1 = false → c.validated h (h.payload b) h.fin = some p →
      (∀ op data, inProgress = some (op, data) → h.opcode = opContinuation →
        ¬ Broken op data (h.payload b) h.fin) →
      Meets cfg c d inProgress (.ok (h, h.payload b, c.past h b p))
        (.ok (h, h.payload b, d.past h b q))
  /-- One of them refuses a fragment. -/
  | refused {h : Header} {b q : Bytes} {op : Opcode} {data : Bytes} : inProgress = some (op, data) →
      h.opcode = opContinuation → frame cfg c.input = .ok (h, h.payload b, b.drop h.length) →
      Broken op data (h.payload b) h.fin →
      Meets cfg c d inProgress (.error invalidUTF8) (.ok (h, h.payload b, d.past h b q))

section Lockstep

variable {cfg : Config} {c d : Conn} {inProgress : Option (Opcode × Bytes)} {h : Header} {b : Bytes}
  {f : Failure} {sizes sizes' : List Nat}

theorem frame_of_error {input : Bytes} (he : (Conn.opened input).readFrameFast cfg [] = .error f) :
    frame cfg input = .error f := by
  rw [frame, he]
  rfl

theorem kind_cut {p : Prop} [Decidable p] :
    (Failure.silent (if p then .eof else .unexpectedEOF)).kind = .silent .eof := by
  split_ifs <;> rfl

section Good

variable (hl : Lockstep c d inProgress) (hcfg : cfg.compressEnabled = false)
  (hheader : readFrameHeader c.input = .ok (h, b)) (hcheck : cfg.check h = .ok ())

include hl hcfg hcheck

theorem Lockstep.validated_eq_some (hs : ¬ Broken (c.messageType h) (c.before h)
    (h.payload b) h.fin) :
    c.validated h (h.payload b) h.fin = some ((c.validated h (h.payload b) h.fin).getD []) := by
  rw [← hl.plain.validated_eq_none_iff (rsv1_of_check hcfg hcheck)] at hs
  cases hvalid : c.validated h (h.payload b) h.fin with
  | none => exact (hs hvalid).elim
  | some p => rfl

include hheader

/-- A frame that is no continuation is read by both as on its own. -/
theorem Lockstep.meets_other (hop : h.opcode ≠ opContinuation) :
    Meets cfg c d inProgress (c.readFrameFast cfg sizes) (d.readFrameFast cfg sizes') := by
  have ht : c.messageType h = h.opcode := if_neg hop
  have hbe : c.before h = [] := if_neg hop
  have hcut : ∀ op data, inProgress = some (op, data) → ¬ BrokenOff cfg op data c.input := by
    rintro op data - ⟨h', b', hok, -, hop', -⟩
    cases hheader.symm.trans hok
    exact hop hop'
  have hf := frame_eq hcfg hheader hcheck
  rw [hl.plain.readFrameFast_eq hcfg hheader hcheck,
    readFrameFast_idle hl.idle hl.uncompressed hcfg (hl.input ▸ hheader) hcheck, ht, hbe]
  by_cases hb : Broken h.opcode [] (h.payload b) (h.complete b && h.fin)
  · simp only [taken, if_pos hb] at hf ⊢
    exact .fail hf rfl hcut
  · simp only [taken, if_neg hb] at hf ⊢
    cases hco : h.complete b with
    | true =>
      rw [hco] at hf hb
      exact .read hf (rsv1_of_check hcfg hcheck)
        (hl.validated_eq_some hcfg hcheck (by rwa [ht, hbe]))
        fun _ _ _ hop' => (hop hop').elim
    | false =>
      rw [hco] at hf
      exact .fail hf rfl hcut

/-- A continuation is no text to the caller of `NextReader`. -/
theorem Lockstep.meets_continuation (hop : h.opcode = opContinuation) :
    Meets cfg c d inProgress (c.readFrameFast cfg sizes) (d.readFrameFast cfg sizes') := by
  have hi : ∀ final, ¬ Broken h.opcode [] (h.payload b) final := by
    rintro final ⟨ht, -⟩
    exact absurd (hop.symm.trans ht) (by decide)
  have hw : ∀ op data, inProgress = some (op, data) → c.messageType h = op ∧ c.before h = data := by
    intro op data hip
    obtain ⟨hfrag, hbuf, -⟩ := hl.within op data hip
    rw [messageType, if_pos hop, before, if_pos hop]
    exact ⟨hfrag, hbuf⟩
  have hs : ∀ final, Broken (c.messageType h) (c.before h) (h.payload b) final →
      ∃ op data, inProgress = some (op, data) ∧ Broken op data (h.payload b) final := by
    intro final hb
    cases hip : inProgress with
    | none =>
      have ht := hb.1
      rw [messageType, if_pos hop, hl.between hip] at ht
      exact absurd ht (by decide)
    | some x =>
      obtain ⟨hop', hdata⟩ := hw x.1 x.2 hip
      rw [hop', hdata] at hb
      exact ⟨x.1, x.2, rfl, hb⟩
  have hf := frame_eq hcfg hheader hcheck
  rw [taken, if_neg (hi _)] at hf
  rw [hl.plain.readFrameFast_eq hcfg hheader hcheck,
    readFrameFast_idle hl.idle hl.uncompressed hcfg (hl.input ▸ hheader) hcheck, taken, taken,
      if_neg (hi _)]
  cases hco : h.complete b with rw [hco] at hf
  | true =>
    by_cases hb : Broken (c.messageType h) (c.before h) (h.payload b) h.fin
    · rw [Bool.true_and, if_pos hb]
      obtain ⟨op, data, hip, hb⟩ := hs _ hb
      exact .refused hip hop hf hb
    · rw [Bool.true_and, if_neg hb]
      refine .read hf (rsv1_of_check hcfg hcheck) (hl.validated_eq_some hcfg hcheck hb)
        fun op data hip _ => ?_
      obtain ⟨hop', hdata⟩ := hw op data hip
      rwa [hop', hdata] at hb
  | false =>
    by_cases hb : Broken (c.messageType h) (c.before h) (h.payload b) false
    · rw [Bool.false_and, if_pos hb]
      obtain ⟨op, data, hip, hb⟩ := hs _ hb
      exact .brokenOff hip hf kind_cut ⟨h, b, hheader, hcheck, hop, hco, hb⟩
    · rw [Bool.false_and, if_neg hb]
      refine .fail hf (kind_cut.trans kind_cut.symm) ?_
      rintro op data hip ⟨h', b', hok, -, -, -, hb'⟩
      cases hheader.symm.trans hok
      obtain ⟨hop', hdata⟩ := hw op data hip
      rw [hop', hdata] at hb
      exact hb hb'

end Good

theorem Lockstep.meets (hl : Lockstep c d inProgress) (hcfg : cfg.compressEnabled = false) :
    Meets cfg c d inProgress (c.readFrameFast cfg sizes) (d.readFrameFast cfg sizes') := by
  cases hheader : readFrameHeader c.input with
  | error f =>
    have hcut : ∀ op data, inProgress = some (op, data) → ¬ BrokenOff cfg op data c.input := by
      rintro op data - ⟨h, b, hok, -⟩
      cases hheader.symm.trans hok
    rw [readFrameFast_of_header hheader, readFrameFast_of_header (hl.input ▸ hheader)]
    exact .fail (frame_of_error (readFrameFast_of_header hheader)) rfl hcut
  | ok x =>
    obtain ⟨h, b⟩ := x
    cases hcheck : cfg.check h with
    | error f =>
      have hcut : ∀ op data, inProgress = some (op, data) → ¬ BrokenOff cfg op data c.input := by
        rintro op data - ⟨h', b', hok, hcheck', -⟩
        cases hheader.symm.trans hok
        cases hcheck.symm.trans hcheck'
      rw [readFrameFast_of_check hheader hcheck, readFrameFast_of_check (hl.input ▸ hheader) hcheck]
      exact .fail (frame_of_error (readFrameFast_of_check hheader hcheck)) rfl hcut
    | ok u =>
      by_cases hop : h.opcode = opContinuation
      · exact hl.meets_continuation hcfg hheader hcheck hop
      · exact hl.meets_other hcfg hheader hcheck hop

/-- A connection between messages reads each frame as on its own. -/
theorem frame_of_idle (hcfg : cfg.compressEnabled = false) (hi : d.readFrag = 0)
    (hp : d.readCompressed = false) (sizes : List Nat) :
    (∃ f, frame cfg d.input = .error f ∧ d.readFrameFast cfg sizes = .error f) ∨
      ∃ h b q, frame cfg d.input = .ok (h, h.payload b, b.drop h.length) ∧
        d.readFrameFast cfg sizes = .ok (h, h.payload b, d.past h b q) := by
  have hl : Lockstep d d none := ⟨rfl, plain_of_idle hi hp, hi, hp, fun _ => hi, nofun⟩
  have hm : Meets cfg d d none (d.readFrameFast cfg sizes) (d.readFrameFast cfg sizes) :=
    hl.meets hcfg
  generalize d.readFrameFast cfg sizes = x at hm ⊢
  cases hm with
  | fail hf => exact .inl ⟨_, hf, rfl⟩
  | brokenOff hip => cases hip
  | read hf => exact .inr ⟨_, _, _, hf, rfl⟩

end Lockstep

/-! ## Turns -/

section Turns

variable {cfg : Config} {c d : Conn} {h : Header} {p data input : Bytes} {op : Opcode} {f : Failure}
  {a : Arrival} {m : Option (Opcode × Bytes)} {mode : Mode} {n : Nat} {as bs : Nat → Arrival}
  {x : Obtained} {g : Failure}

theorem same_append {y : Obtained} {l : List (Opcode × Bytes)} :
    Same (l ++ x.1, x.2) (l ++ y.1, y.2) ↔ Same x y := by
  simp [Same]

theorem not_same_cons {m : Opcode × Bytes} {y : Option Failure} :
    ¬ Same ((some m).toList ++ x.1, x.2) ([], y) := nofun

theorem readTurns_error (he : c.readMessage cfg (as 0) = .error f) :
    readTurns cfg (n + 1) c as = ([], some f) := by
  rw [readTurns, he]

theorem readTurns_ok (hok : c.readMessage cfg (as 0) = .ok (m, d)) : readTurns cfg (n + 1) c as =
      (m.toList ++ (readTurns cfg n d fun k => as (k + 1)).1,
        (readTurns cfg n d fun k => as (k + 1)).2) := by
  rw [readTurns, hok]

theorem nextTurns_error (he : c.readNext cfg mode (as 0) = .error f) :
    nextTurns cfg (n + 1) c mode as = ([], some f) := by
  rw [nextTurns, he]

theorem nextTurns_ok {mode' : Mode} (hok : c.readNext cfg mode (as 0) = .ok (m, d, mode')) :
    nextTurns cfg (n + 1) c mode as = (m.toList ++ (nextTurns cfg n d mode' fun k => as (k + 1)).1,
        (nextTurns cfg n d mode' fun k => as (k + 1)).2) := by
  rw [nextTurns, hok]

theorem readMessage_of_error (he : c.readFrameFast cfg a.sizes = .error f) :
    c.readMessage cfg a = .error f := by
  rw [readMessage, he]
  rfl

theorem readMessage_of_ok (hok : c.readFrameFast cfg a.sizes = .ok (h, p, d)) :
    c.readMessage cfg a = d.assemble cfg h p a := by
  rw [readMessage, hok]
  rfl

theorem readNext_idle_ok (hok : c.readFrameFast cfg a.sizes = .ok (h, p, d)) :
    c.readNext cfg .idle a =
      if isControl h.opcode then (handleControl a).map fun _ => (none, d, .idle)
        else d.nextReader cfg h p := by
  rw [readNext, hok]
  rfl

theorem readNext_streaming_error (he : c.readFrameFast cfg a.sizes = .error f) :
    c.readNext cfg (.streaming op data) a =
      if f = .silent .eof then .ok (some (op, data), { c with input := [] }, .idle)
        else .error f := by
  rw [readNext, he]

theorem readNext_streaming_ok (hok : c.readFrameFast cfg a.sizes = .ok (h, p, d)) :
    c.readNext cfg (.streaming op data) a =
      if isControl h.opcode then (handleControl a).map fun _ => (none, d, .streaming op data)
      else d.nextFrame op data h p := by
  rw [readNext, hok]

/-- A failure that a frame can have on its own, and that does not end a message. -/
def Failure.Lone (f : Failure) : Prop :=
  f.kind = f ∧ f ≠ .silent .eof ∧ f ≠ interleaved ∧ ∀ text, f ≠ .silent (.handler text)

theorem kind_eq_iff (hg : g.Lone) : f.kind = g.kind ↔ f = g := by
  rw [hg.1]
  unfold Failure.kind
  split_ifs with hf
  · refine iff_of_false (fun h => hg.2.1 h.symm) ?_
    rintro rfl
    have hk := hg.1
    rw [Failure.kind, if_pos hf] at hk
    exact hg.2.1 hk.symm
  · rfl

theorem same_nil_iff (hg : g.Lone) : Same ([], some f) ([], some g) ↔ f = g := by
  simp [Same, kind_eq_iff hg]

/-- A caller in a message is told of the failure of a frame, unless it takes that for the end of the
message. -/
theorem same_lost (hf : f.Lone) (hr : d.readFrameFast cfg (bs 0).sizes = .error g) :
    Same (nextTurns cfg (n + 1) d (.streaming op data) bs) ([], some f) ↔ g = f := by
  by_cases he : g = .silent .eof
  · rw [nextTurns_ok ((readNext_streaming_error hr).trans (if_pos he))]
    exact iff_of_false not_same_cons fun h => hf.2.1 (h.symm.trans he)
  · rw [nextTurns_error ((readNext_streaming_error hr).trans (if_neg he)), same_nil_iff hf]

/-- It is told of a failure after a frame only if the frame does not end the message and fails in no
other way. -/
theorem same_taken (hf : f.Lone) (hr : c.readFrameFast cfg (bs 0).sizes = .ok (h, p, d)) :
    Same (nextTurns cfg (n + 1) c (.streaming op data) bs) ([], some f) ↔
      (if isControl h.opcode then (bs 0).handler = none
        else (h.opcode = opContinuation ∨ op = 0) ∧ h.fin = false) ∧
        Same (nextTurns cfg n d (.streaming op (if isControl h.opcode then data else data ++ p))
          fun k => bs (k + 1)) ([], some f) := by
  have hn : c.readNext cfg (.streaming op data) (bs 0) = _ := readNext_streaming_ok hr
  split_ifs at hn with hco
  · rw [handleControl] at hn
    rw [if_pos hco, if_pos hco]
    cases hh : (bs 0).handler with rw [hh] at hn
    | some text =>
      rw [nextTurns_error hn, same_nil_iff hf]
      exact iff_of_false (fun h => hf.2.2.2 text h.symm) fun h => by cases h.1
    | none =>
      rw [nextTurns_ok hn, and_iff_right rfl]
      exact Iff.rfl
  · rw [nextFrame] at hn
    rw [if_neg hco, if_neg hco]
    split at hn
    · rename_i hcont
      rw [nextTurns_error hn, same_nil_iff hf]
      exact iff_of_false (fun h => hf.2.2.1 h.symm) fun h => h.1.1.elim hcont.1 hcont.2
    · rename_i hcont
      cases hfin : h.fin with
      | true =>
        rw [hfin, if_pos rfl] at hn
        rw [nextTurns_ok hn]
        exact iff_of_false not_same_cons fun h => by cases h.1.2
      | false =>
        rw [hfin, if_neg nofun] at hn
        rw [nextTurns_ok hn, and_iff_right ⟨by rwa [not_and_or, not_not, not_not] at hcont, rfl⟩]
        exact Iff.rfl

/-- A message in progress is given up with a failure exactly when a frame comes that fails so on its
own. -/
theorem nextTurns_failsBy (hcfg : cfg.compressEnabled = false) (hf : f.Lone) (hi : d.readFrag = 0)
    (hp : d.readCompressed = false) (hop : op ≠ 0) :
    Same (nextTurns cfg n d (.streaming op data) bs) ([], some f) ↔
      FailsBy cfg f n d.input fun k => (bs k).handler := by
  induction n generalizing d data bs with
  | zero => exact iff_of_false (fun h => by cases h.2) id
  | succ n ih =>
    rcases frame_of_idle hcfg hi hp (bs 0).sizes with ⟨g, hfr, hr⟩ | ⟨h, b, q, hfr, hr⟩
    · simp [FailsBy, hfr, same_lost hf hr]
    · rw [same_taken hf hr, ih (d := d.past h b q) hi hp]
      simp only [FailsBy, hfr, or_iff_left hop]
      rfl

theorem lone_invalidUTF8 : invalidUTF8.Lone := ⟨rfl, by decide, by decide, fun _ => nofun⟩

theorem lone_tooLarge : tooLarge.Lone := ⟨rfl, by decide, by decide, fun _ => nofun⟩

theorem lone_unexpectedContinuation : unexpectedContinuation.Lone :=
  ⟨rfl, by decide, by decide, fun _ => nofun⟩

/-- No frame on its own is an unexpected continuation. -/
theorem frame_error_ne (he : frame cfg input = .error f) : f ≠ unexpectedContinuation := by
  cases hr : (opened input).readFrameFast cfg [] with rw [frame, hr] at he
  | ok x => cases he
  | error g =>
    cases he
    rcases readFrameFast_error hr with he | ⟨h, b, -, he | he⟩
    · rcases readFrameHeader_error he with rfl | rfl | rfl <;> decide
    · rcases Config.check_error he with rfl | rfl | ⟨err, hm, rfl⟩
      · decide
      · decide
      · simp only [mem_cons, not_mem_nil, or_false] at hm
        rcases hm with rfl | rfl | rfl | rfl <;> decide
    · rcases yield_error he with ⟨rfl, -⟩ | rfl | rfl <;> decide

/-- A caller of `NextReader` that has taken a continuation for a message is never told so. -/
theorem not_same_unexpected (hcfg : cfg.compressEnabled = false) (hi : d.readFrag = 0)
    (hp : d.readCompressed = false) :
    ¬ Same (nextTurns cfg n d (.streaming opContinuation data) bs)
      ([], some unexpectedContinuation) := by
  induction n generalizing d data bs with
  | zero => exact fun h => by cases h.2
  | succ n ih =>
    rcases frame_of_idle hcfg hi hp (bs 0).sizes with ⟨g, hf, hr⟩ | ⟨h, b, q, hf, hr⟩
    · rw [same_lost lone_unexpectedContinuation hr]
      exact frame_error_ne hf
    · rw [same_taken lone_unexpectedContinuation hr]
      exact fun h => ih (d := d.past _ b q) hi hp h.2

end Turns

/-! ## Both callers over the whole stream -/

section Whole

variable {cfg : Config} {c d : Conn} {inProgress : Option (Opcode × Bytes)} {h : Header}
  {b p q data : Bytes} {op : Opcode} {f f' : Failure} {n : Nat} {as bs : Nat → Arrival}

/-- The callers stay together over a control frame. -/
theorem Lockstep.control (hl : Lockstep c d inProgress) (hco : isControl h.opcode = true)
    (hvalid : c.validated h (h.payload b) h.fin = some p) :
    Lockstep (c.past h b p) (d.past h b q) inProgress where
  input := rfl
  plain := by
    rw [validated_control hco] at hvalid
    cases hvalid
    exact ⟨hl.plain.tracks, hl.plain.uncompressed⟩
  __ := hl

/-- They stay together when a message is complete. -/
theorem Lockstep.done (hl : Lockstep c d inProgress) {c' : Conn} (hi : c'.input = b.drop h.length)
    (hf : c'.readFrag = 0) (hp : c'.readCompressed = false) : Lockstep c' (d.past h b q) none where
  input := hi.symm
  plain := plain_of_idle hf hp
  __ := hl
  between _ := hf
  within := nofun

/-- They stay together over a frame of a message that goes on. -/
theorem Lockstep.goesOn (hl : Lockstep c d inProgress) (hrsv : h.rsv1 = false)
    (hvalid : c.validated h (h.payload b) h.fin = some p) (hop : c.messageType h ≠ 0) {c' : Conn}
    (hc' : c' = { c.past h b p with
      readFrag := c.messageType h, readFragBuf := c.before h ++ h.payload b,
      readCompressed := false }) :
    Lockstep c' (d.past h b q) (some (c.messageType h, c.before h ++ h.payload b)) := by
  subst hc'
  refine ⟨rfl, ⟨fun ht _ => ?_, rfl⟩, hl.idle, hl.uncompressed, nofun, ?_⟩
  · have hs : c.streams h = true := (hl.plain.streams_iff hrsv).mpr ht
    exact (hl.plain.tracks.validated_some hs hvalid).1
  · rintro _ _ ⟨⟩
    exact ⟨rfl, rfl, hop⟩

/-- Where both fail in the same way, the callers obtain the same unless the end of the stream is
taken for that of a message. -/
theorem same_fail (hk : f'.kind = f.kind) (hc : c.readFrameFast cfg (as 0).sizes = .error f')
    (hd : d.readFrameFast cfg (bs 0).sizes = .error f) :
    Same (nextTurns cfg (n + 1) d (.of inProgress) bs) (readTurns cfg (n + 1) c as) ↔
      ∀ op data, inProgress = some (op, data) → f ≠ .silent .eof := by
  rw [readTurns_error (readMessage_of_error hc)]
  have hs : Same ([], some f) ([], some f') := ⟨rfl, by simp [hk]⟩
  cases inProgress with
  | none =>
    rw [Mode.of, nextTurns_error (by rw [readNext, hd]; rfl)]
    exact iff_of_true hs nofun
  | some x =>
    obtain ⟨op, data⟩ := x
    by_cases he : f = .silent .eof
    · rw [Mode.of, nextTurns_ok ((readNext_streaming_error hd).trans (if_pos he))]
      exact iff_of_false not_same_cons fun h => h op data rfl he
    · rw [Mode.of, nextTurns_error ((readNext_streaming_error hd).trans (if_neg he))]
      exact iff_of_true hs fun _ _ _ => he

/-- A fragment that only the caller of `ReadMessage` refuses. -/
theorem same_refused (hcfg : cfg.compressEnabled = false) (hl : Lockstep c d (some (op, data)))
    (hf : f.Lone) (hcont : h.opcode = opContinuation) (hc : c.readMessage cfg (as 0) = .error f)
    (hd : d.readFrameFast cfg (bs 0).sizes = .ok (h, h.payload b, d.past h b q)) :
    Same (nextTurns cfg (n + 1) d (.streaming op data) bs) (readTurns cfg (n + 1) c as) ↔
      h.fin = false ∧ FailsBy cfg f n (b.drop h.length) fun k => (bs (k + 1)).handler := by
  have hco : ¬ isControl h.opcode = true := by
    rw [hcont]
    decide
  have hop := (hl.within op data rfl).2.2
  rw [readTurns_error hc, same_taken hf hd, if_neg hco, if_neg hco,
    nextTurns_failsBy (d := d.past h b q) hcfg hf hl.idle hl.uncompressed hop]
  simp only [hcont, true_or, true_and]
  rfl

/-- A control frame that both have read. -/
theorem same_control (hh : (bs 0).handler = (as 0).handler) (hco : isControl h.opcode = true)
    (hc : c.readFrameFast cfg (as 0).sizes = .ok (h, h.payload b, c.past h b p))
    (hd : d.readFrameFast cfg (bs 0).sizes = .ok (h, h.payload b, d.past h b q)) :
    Same (nextTurns cfg (n + 1) d (.of inProgress) bs) (readTurns cfg (n + 1) c as) ↔
      ((as 0).handler = none → Same (nextTurns cfg n (d.past h b q) (.of inProgress)
          fun k => bs (k + 1)) (readTurns cfg n (c.past h b p) fun k => as (k + 1))) := by
  have hr := readMessage_of_ok hc
  rw [assemble, if_pos hco] at hr
  have hn : d.readNext cfg (.of inProgress) (bs 0) =
      (handleControl (bs 0)).map fun _ => (none, d.past h b q, Mode.of inProgress) := by
    cases inProgress with
    | none => exact (readNext_idle_ok hd).trans (if_pos hco)
    | some x => exact (readNext_streaming_ok hd).trans (if_pos hco)
  rw [handleControl, hh] at hn
  rw [handleControl] at hr
  cases hf : (as 0).handler with rw [hf] at hr hn
  | some text =>
    rw [readTurns_error hr, nextTurns_error hn]
    exact iff_of_true ⟨rfl, rfl⟩ nofun
  | none =>
    rw [readTurns_ok hr, nextTurns_ok hn, same_append]
    exact ⟨fun h _ => h, fun h => h rfl⟩

theorem nextReader_plain (hrsv : h.rsv1 = false) : d.nextReader cfg h p =
      if h.fin then
        if h.opcode = opText ∧ Utf8.valid p = false then .error invalidUTF8
          else .ok (some (h.opcode, p), d, .idle)
      else .ok (none, d, .streaming h.opcode p) := by
  rw [nextReader, hrsv]
  cases h.fin <;> rfl

section Data

variable (hcfg : cfg.compressEnabled = false) (hrsv : h.rsv1 = false)
  (hdata : ¬ isControl h.opcode = true) (hvalid : c.validated h (h.payload b) h.fin = some p)
  (hc : c.readFrameFast cfg (as 0).sizes = .ok (h, h.payload b, c.past h b p))
  (hd : d.readFrameFast cfg (bs 0).sizes = .ok (h, h.payload b, d.past h b q))
  (hrest : ∀ {c' d' : Conn} {inProgress' : Option (Opcode × Bytes)}, Lockstep c' d' inProgress' →
    (Same (nextTurns cfg n d' (.of inProgress') fun k => bs (k + 1))
      (readTurns cfg n c' fun k => as (k + 1)) ↔
      Alike cfg n inProgress' c'.input fun k => (as (k + 1)).handler))

include hcfg hrsv hdata hvalid hc hd hrest

/-- A data frame that both have read between messages. -/
theorem same_between (hl : Lockstep c d none) :
    Same (nextTurns cfg (n + 1) d .idle bs) (readTurns cfg (n + 1) c as) ↔
      h.opcode ≠ opContinuation ∧ Alike cfg n (if h.fin then none else some (h.opcode, h.payload b))
        (b.drop h.length)
          fun k => (as (k + 1)).handler := by
  have hi : (c.past h b p).readFrag = 0 := hl.between rfl
  have hr := readMessage_of_ok hc
  rw [assemble, if_neg hdata] at hr
  have hn := (readNext_idle_ok hd).trans (if_neg hdata)
  rw [nextReader_plain hrsv] at hn
  by_cases hcont : h.opcode = opContinuation
  · refine iff_of_false ?_ fun hh => hh.1 hcont
    rw [if_neg (not_not.mpr hcont), continuation, if_pos hi] at hr
    rw [readTurns_error hr]
    cases hfin : h.fin with
    | true =>
      rw [hfin, if_pos rfl, if_neg fun hh => absurd (hcont.symm.trans hh.1) (by decide)] at hn
      rw [nextTurns_ok hn]
      exact not_same_cons
    | false =>
      rw [hfin, if_neg nofun, hcont] at hn
      rw [nextTurns_ok hn]
      exact fun hh => not_same_unexpected (d := d.past h b q) hcfg hl.idle hl.uncompressed
        (same_append.mp hh)
  · rw [and_iff_right hcont]
    rw [if_pos hcont, first, if_neg (not_not.mpr hi), hrsv] at hr
    cases hfin : h.fin with
    | true =>
      rw [hfin, if_pos rfl, if_neg nofun] at hr
      have hu : ¬ (h.opcode = opText ∧ Utf8.valid (h.payload b) = false) := by
        rintro ⟨htext, hbad⟩
        have hs : c.streams h = true := streams_iff.mpr ⟨hrsv, hl.plain.uncompressed, .inl htext⟩
        have hb : c.before h = [] := if_neg hcont
        rw [hfin] at hvalid
        have hmem := hl.plain.tracks.arrived_mem hs hvalid fun _ => hb ▸ Language.nil_mem_kstar _
        rw [hb, nil_append] at hmem
        exact Utf8.valid_eq_false_iff.mp hbad hmem
      rw [hfin, if_pos rfl, if_neg hu] at hn
      rw [readTurns_ok hr, nextTurns_ok hn, same_append, if_pos rfl]
      have hdone : Lockstep { c.past h b p with readCompressed := false } (d.past h b q) none :=
        hl.done rfl hi rfl
      exact hrest hdone
    | false =>
      rw [hfin, if_neg nofun] at hr hn
      rw [readTurns_ok hr, nextTurns_ok hn, same_append, if_neg nofun]
      have ht : c.messageType h = h.opcode := if_neg hcont
      have hb : c.before h = [] := if_neg hcont
      have hg := hl.goesOn (q := q) hrsv hvalid (by rw [ht]; exact hcont) rfl
      rw [ht, hb, nil_append] at hg
      exact hrest hg

/-- A continuation that both have read within a message. -/
theorem same_within (hl : Lockstep c d (some (op, data)))
    (hha : ∀ k, (bs k).handler = (as k).handler) (hcont : h.opcode = opContinuation) :
    Same (nextTurns cfg (n + 1) d (.streaming op data) bs) (readTurns cfg (n + 1) c as) ↔
      ((data.length + (h.payload b).length : Nat) > cfg.readLimit →
        h.fin = false ∧ FailsBy cfg tooLarge n (b.drop h.length) fun k => (as (k + 1)).handler) ∧
      (¬ (data.length + (h.payload b).length : Nat) > cfg.readLimit →
        Alike cfg n (if h.fin then none else some (op, data ++ h.payload b)) (b.drop h.length)
          fun k => (as (k + 1)).handler) := by
  obtain ⟨hf, hbuf, hop⟩ := hl.within op data rfl
  have hf' : (c.past h b p).readFrag = op := hf
  have hbuf' : (c.past h b p).readFragBuf = data := hbuf
  have hp : (c.past h b p).readCompressed = false := hl.plain.uncompressed
  have hr := readMessage_of_ok hc
  rw [assemble, if_neg hdata, if_neg (not_not.mpr hcont), continuation, hf', hbuf',
    if_neg hop] at hr
  by_cases hli : (data.length + (h.payload b).length : Nat) > cfg.readLimit
  · rw [if_pos hli] at hr
    rw [same_refused hcfg hl lone_tooLarge hcont hr hd]
    simp only [hha, hli, true_imp_iff, not_true_eq_false, false_imp_iff, and_true]
  · have hn : d.readNext cfg (.streaming op data) (bs 0) = _ := readNext_streaming_ok hd
    rw [if_neg hdata, nextFrame, if_neg fun h => h.1 hcont] at hn
    rw [if_neg hli] at hr
    simp only [hli, false_imp_iff, true_and, not_false_eq_true, true_imp_iff]
    cases hfin : h.fin with
    | true =>
      rw [hfin, if_pos rfl, hp] at hr
      rw [hfin, if_pos rfl] at hn
      change _ = if op = opText ∧ false = true ∧ Utf8.valid (data ++ h.payload b) = false then
        _ else _ at hr
      rw [if_neg (by rintro ⟨-, hh, -⟩; cases hh)] at hr
      rw [readTurns_ok hr, nextTurns_ok hn, same_append, if_pos rfl]
      have hdone : Lockstep { c.past h b p with
        readFrag := 0, readFragBuf := [], readCompressed := false }
        (d.past h b q) none := hl.done rfl rfl rfl
      exact hrest hdone
    | false =>
      rw [hfin, if_neg nofun] at hr hn
      rw [readTurns_ok hr, nextTurns_ok hn, same_append, if_neg nofun]
      have ht : c.messageType h = op := (if_pos hcont).trans hf
      have hb : c.before h = data := (if_pos hcont).trans hbuf
      have hg := hl.goesOn (q := q) hrsv hvalid (by rwa [ht]) rfl
      rw [ht, hb, ← hf', ← hp] at hg
      rw [← hf']
      exact hrest hg

end Data

/-- The callers obtain the same exactly from the streams that are read alike. -/
theorem same_iff_alike (hcfg : cfg.compressEnabled = false)
    (hh : ∀ k, (bs k).handler = (as k).handler) (hl : Lockstep c d inProgress) :
    Same (nextTurns cfg n d (.of inProgress) bs) (readTurns cfg n c as) ↔
      Alike cfg n inProgress c.input fun k => (as k).handler := by
  induction n generalizing c d inProgress as bs with
  | zero => exact iff_of_true ⟨rfl, rfl⟩ trivial
  | succ n ih =>
    have hm : Meets cfg c d inProgress (c.readFrameFast cfg (as 0).sizes)
        (d.readFrameFast cfg (bs 0).sizes) :=
      hl.meets hcfg
    generalize hc : c.readFrameFast cfg (as 0).sizes = x at hm
    generalize hd : d.readFrameFast cfg (bs 0).sizes = y at hm
    cases hm with
    | fail hf hkind hcut =>
      simp only [same_fail hkind hc hd, Alike, hf]
      exact ⟨fun h op data hip => ⟨h op data hip, hcut op data hip⟩,
        fun h op data hip => (h op data hip).1⟩
    | @brokenOff f op data hip hf hkind hb =>
      subst hip
      simp only [Alike, hf]
      refine iff_of_false ?_ fun h => (h op data rfl).2 hb
      rw [readTurns_error (readMessage_of_error hc), Mode.of, same_lost lone_invalidUTF8 hd]
      rintro rfl
      cases hkind
    | @read h b p q hf hrsv hvalid hs =>
      have hh' : ∀ k, (bs (k + 1)).handler = (as (k + 1)).handler := fun k => hh (k + 1)
      simp only [Alike, hf]
      split
      · rename_i hco
        rw [same_control (hh 0) hco hc hd]
        exact imp_congr_right fun _ => ih hh' (hl.control hco hvalid)
      · rename_i hco
        cases inProgress with
        | none => exact same_between hcfg hrsv hco hvalid hc hd (ih hh') hl
        | some x =>
          obtain ⟨op, data⟩ := x
          by_cases hcont : h.opcode = opContinuation
          · have hb := hs op data rfl hcont
            rw [Mode.of, same_within hcfg hrsv hco hvalid hc hd (ih hh') hl hh hcont]
            simp [hcont, hb]
          · have hi : (c.past h b p).readFrag ≠ 0 := by
              obtain ⟨hfrag, -, hop⟩ := hl.within op data rfl
              exact hfrag ▸ hop
            have hread := readMessage_of_ok hc
            rw [assemble, if_neg hco, if_pos hcont, first, if_pos hi] at hread
            have hnext : d.readNext cfg (.streaming op data) (bs 0) = _ := readNext_streaming_ok hd
            rw [if_neg hco, nextFrame, if_pos ⟨hcont, (hl.within op data rfl).2.2⟩] at hnext
            rw [Mode.of, readTurns_error hread, nextTurns_error hnext]
            exact iff_of_true ⟨rfl, rfl⟩ fun h => (hcont h).elim
    | @refused h b q op data hip hcont hf hb =>
      subst hip
      have hco : ¬ isControl h.opcode = true := by
        rw [hcont]
        decide
      simp only [Alike, hf]
      rw [Mode.of, same_refused hcfg hl lone_invalidUTF8 hcont (readMessage_of_error hc) hd,
        if_neg hco]
      simp [hcont, hb, hh]

/-- Without compression, callers of `NextReader` and of `ReadMessage` obtain the same messages and
the same kind of failure exactly from the streams that are read alike, however the streams are cut
into pieces. -/
theorem nextAll_same_readAll_iff (hcfg : cfg.compressEnabled = false) (input : Bytes)
    (sizes sizes' : Nat → List Nat) (handlers : Nat → Option String) :
    Same (nextAll cfg input fun k => ⟨sizes' k, handlers k⟩)
      (readAll cfg input fun k => ⟨sizes k, handlers k⟩) ↔
      Alike cfg (input.length + 2) none input handlers := by
  have hl : Lockstep (.opened input) (.opened input) none :=
    ⟨rfl, plain_of_idle rfl rfl, rfl, rfl, fun _ => rfl, nofun⟩
  have hh : ∀ k, (⟨sizes' k, handlers k⟩ : Arrival).handler =
      (⟨sizes k, handlers k⟩ : Arrival).handler :=
    fun _ => rfl
  exact same_iff_alike hcfg hh hl

end Whole

instance (x y : Obtained) : Decidable (Same x y) := inferInstanceAs (Decidable (_ ∧ _))

/-- A connection without compression and with a small read limit. -/
def smallLimit : Config := ⟨false, 4, 4096, fun b => (b, false)⟩

theorem nextAll_same_readAll_iff_split :
    Same (nextAll smallLimit splitText fun _ => ⟨[], none⟩)
      (readAll smallLimit splitText fun _ => ⟨[0], none⟩) ∧
      Alike smallLimit (splitText.length + 2) none splitText fun _ => none := by
  have hs : Same (nextAll smallLimit splitText fun _ => ⟨[], none⟩)
      (readAll smallLimit splitText fun _ => ⟨[0], none⟩) := by decide +kernel
  exact ⟨hs, (nextAll_same_readAll_iff rfl splitText (fun _ => [0]) (fun _ => [])
    fun _ => none).mp hs⟩

/-- What each caller obtains from a stream that arrives at once and calls no failing handler,
compared. -/
def obtainSame (input : Bytes) : Prop :=
  Same (nextAll smallLimit input fun _ => ⟨[], none⟩) (readAll smallLimit input fun _ => ⟨[], none⟩)

instance (input : Bytes) : Decidable (obtainSame input) := inferInstanceAs (Decidable (Same _ _))

/-- The callers obtain different things from a continuation of nothing, from fragments larger than
the limit, from a text that its last fragment takes out of UTF-8, and from a stream that ends
between fragments. -/
theorem nextAll_not_same_readAll : ¬ obtainSame (clientFrame 0x80 [0x61]) ∧
      ¬ obtainSame (clientFrame 0x02 [1, 2, 3] ++ clientFrame 0x80 [4, 5]) ∧
      ¬ obtainSame (clientFrame 0x01 [0x61] ++ clientFrame 0x80 [0xFF]) ∧
        ¬ obtainSame (clientFrame 0x01 [0x61]) := by
  decide +kernel

/-! ## Every stream is read to a failure -/

section Ends

variable {cfg : Config} {c c' : Conn} {h : Header} {payload : Bytes} {a : Arrival}
  {m : Option (Opcode × Bytes)}
  {mode mode' : Mode} {n : Nat} {as : Nat → Arrival} {sizes : List Nat}

theorem Conn.readFrameFast_length (hok : c.readFrameFast cfg sizes = .ok (h, payload, c')) :
    c'.input.length + 2 ≤ c.input.length := by
  obtain ⟨b, pending, hheader, -, -, -, rfl⟩ := readFrameFast_ok hok
  have hlen := readFrameHeader_length hheader
  have hdrop : (b.drop h.length).length ≤ b.length := (drop_sublist ..).length_le
  exact (Nat.add_le_add_right hdrop 2).trans hlen

theorem map_handleControl_ok {α : Type} {x y : α}
    (hok : ((handleControl a).map fun _ => x) = .ok y) : y = x := by
  cases hh : handleControl a with rw [hh] at hok
  | error e => cases hok
  | ok u =>
    cases hok
    rfl

theorem Conn.assemble_input (hok : c.assemble cfg h payload a = .ok (m, c')) :
    c'.input = c.input := by
  unfold assemble at hok
  split_ifs at hok
  · cases map_handleControl_ok hok
    rfl
  · unfold first at hok
    split_ifs at hok
    · obtain ⟨_, -, hok⟩ := bind_eq_ok.mp hok
      split_ifs at hok
      cases hok
      rfl
    · cases hok
      rfl
    · cases hok
      rfl
  · unfold continuation at hok
    split_ifs at hok
    · obtain ⟨_, -, hok⟩ := bind_eq_ok.mp hok
      split_ifs at hok
      cases hok
      rfl
    · cases hok
      rfl

theorem Conn.readMessage_length (hok : c.readMessage cfg a = .ok (m, c')) :
    c'.input.length + 2 ≤ c.input.length := by
  obtain ⟨⟨h, payload, c₁⟩, hf, hok⟩ := bind_eq_ok.mp hok
  rw [assemble_input hok]
  exact readFrameFast_length hf

theorem readTurns_ends (hn : c.input.length < n) : ∃ f, (readTurns cfg n c as).2 = some f := by
  induction n generalizing c as with
  | zero => exact (not_lt_zero _ hn).elim
  | succ n ih =>
    cases hr : c.readMessage cfg (as 0) with
    | error f => exact ⟨f, by rw [readTurns_error hr]⟩
    | ok x =>
      have hlen := readMessage_length hr
      rw [readTurns_ok hr]
      exact ih (by omega)

/-- A caller of `ReadMessage` is told in the end why there are no more messages. -/
theorem readAll_ends {input : Bytes} : ∃ f, (readAll cfg input as).2 = some f :=
  readTurns_ends (by change input.length < _; omega)

/-- The turn that a message in progress still takes when the stream is over. -/
def Mode.owed : Mode → Nat
  | .idle | .assembling => 0
  | .streaming _ _ => 1

theorem Conn.nextReader_input (hok : c.nextReader cfg h payload = .ok (m, c', mode')) :
    c'.input = c.input := by
  unfold nextReader at hok
  split_ifs at hok
  · cases hok
    rfl
  · cases hok
    rfl
  · obtain ⟨_, -, hok⟩ := bind_eq_ok.mp hok
    split_ifs at hok
    cases hok
    rfl
  · cases hok
    rfl

theorem Conn.nextFrame_input {op : Opcode} {data : Bytes}
    (hok : c.nextFrame op data h payload = .ok (m, c', mode')) : c'.input = c.input := by
  unfold nextFrame at hok
  split_ifs at hok <;> cases hok <;> rfl

/-- Every turn takes bytes, or is the one that ends a message with the stream. -/
theorem Conn.readNext_length (hok : c.readNext cfg mode a = .ok (m, c', mode')) :
    c'.input.length + mode'.owed < c.input.length + mode.owed := by
  have ho : mode'.owed ≤ 1 := by
    cases mode' with
    | idle | assembling => exact zero_le 1
    | streaming => exact le_rfl
  cases mode with
  | idle =>
    obtain ⟨⟨h, payload, c₁⟩, hf, hok⟩ := bind_eq_ok.mp hok
    have hlen := readFrameFast_length hf
    have hi : c'.input = c₁.input := by
      dsimp only at hok
      split_ifs at hok
      · cases map_handleControl_ok hok
        rfl
      · exact nextReader_input hok
    rw [hi]
    omega
  | streaming op data =>
    cases hf : c.readFrameFast cfg a.sizes with
    | error f =>
      rw [readNext_streaming_error hf] at hok
      split_ifs at hok
      cases hok
      exact succ_pos _
    | ok x =>
      obtain ⟨h, payload, c₁⟩ := x
      have hlen := readFrameFast_length hf
      rw [readNext_streaming_ok hf] at hok
      have hi : c'.input = c₁.input := by
        split_ifs at hok
        · cases map_handleControl_ok hok
          rfl
        · exact nextFrame_input hok
      rw [hi]
      omega
  | assembling =>
    obtain ⟨⟨m', c₁⟩, hr, hok⟩ := bind_eq_ok.mp hok
    have hlen := readMessage_length hr
    cases hok
    omega

theorem nextTurns_ends (hn : c.input.length + mode.owed < n) :
    ∃ f, (nextTurns cfg n c mode as).2 = some f := by
  induction n generalizing c mode as with
  | zero => exact (not_lt_zero _ hn).elim
  | succ n ih =>
    cases hr : c.readNext cfg mode (as 0) with
    | error f => exact ⟨f, by rw [nextTurns_error hr]⟩
    | ok x =>
      have hlen := readNext_length hr
      rw [nextTurns_ok hr]
      exact ih (by omega)

/-- So is a caller of `NextReader`. -/
theorem nextAll_ends {input : Bytes} : ∃ f, (nextAll cfg input as).2 = some f :=
  nextTurns_ends (by change input.length + 0 < _; omega)

end Ends

end Celeris.WebSocket
