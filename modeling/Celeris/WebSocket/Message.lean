import Celeris.Data.Transition
import Celeris.WebSocket.Frame

/-!
# Reading messages (`ReadMessage` in `middleware/websocket/conn.go`)

`ReadMessage` takes frames until a message is whole. Control frames go to their
handlers, the fragments of a message are gathered in `readFragBuf`, and a compressed message is
inflated at its end. One turn of its loop is one step here, so that a run of steps is
any number of calls, up to the first error.

The text of an uncompressed message is validated while its frames are read, and the
text of a compressed one at its end. Which of the two happens is decided frame by frame: by
the bit RSV1 of the frame, and by `readCompressed`, which still says how the message
before was sent when the first frame of a new one is read.
-/

open Computability

namespace Celeris.WebSocket

open Transition Celeris.WebSocket.Conn Utf8 Config List

/-! ## One turn of the loop -/

/-- What comes to a turn from outside: the sizes of the pieces in which a payload arrives, and
the error that the handler of a control frame returns. -/
structure Arrival where
  sizes : List Nat
  handler : Option String
  deriving DecidableEq, Repr

def interleaved : Failure := ⟨.protocol, some (closeProtocolError, "interleaved data frame")⟩
def unexpectedContinuation : Failure :=
  ⟨.protocol, some (closeProtocolError, "unexpected continuation")⟩

/-- `decompressMessage`, with the close frame that its callers write. -/
def Config.decompressMessage (cfg : Config) (data : Bytes) : Except Failure Bytes :=
  if (cfg.inflate data).1.length > cfg.readLimit then
    .error ⟨.readLimit, some (closeMessageTooBig, "decompressed message too large")⟩
  else if (cfg.inflate data).2 then .error ⟨.inflate,
    some (closeProtocolError, "decompression error")⟩
  else .ok (cfg.inflate data).1

/-- The message that fragments make together. -/
def Config.assembled (cfg : Config) (compressed : Bool) (data : Bytes) : Except Failure Bytes :=
  if compressed then cfg.decompressMessage data else .ok data

def handleControl (a : Arrival) : Except Failure Unit :=
  match a.handler with
  | some text => .error (.silent (.handler text))
  | none => .ok ()

/-- The first frame of a message. -/
def Conn.first (cfg : Config) (c : Conn) (h : Header) (payload : Bytes) :
    Except Failure (Option (Opcode × Bytes) × Conn) :=
  if c.readFrag ≠ 0 then .error interleaved
  else if h.fin then
    if h.rsv1 then do
      let payload ← cfg.decompressMessage payload
      if h.opcode = opText ∧ valid payload = false then .error invalidUTF8
      else .ok (some (h.opcode, payload), { c with readCompressed := h.rsv1 })
    else .ok (some (h.opcode, payload), { c with readCompressed := h.rsv1 })
  else .ok (none, { c with readCompressed := h.rsv1, readFrag := h.opcode, readFragBuf := payload })

/-- A frame that continues a message. -/
def Conn.continuation (cfg : Config) (c : Conn) (h : Header) (payload : Bytes) :
    Except Failure (Option (Opcode × Bytes) × Conn) :=
  if c.readFrag = 0 then .error unexpectedContinuation
  else if (c.readFragBuf.length + payload.length : Nat) > cfg.readLimit then .error tooLarge
  else if h.fin then do
    let msg ← cfg.assembled c.readCompressed (c.readFragBuf ++ payload)
    if c.readFrag = opText ∧ c.readCompressed = true ∧ valid msg = false then .error invalidUTF8
    else .ok (some (c.readFrag, msg), { c with readFrag := 0, readFragBuf := [] })
  else .ok (none, { c with readFragBuf := c.readFragBuf ++ payload })

/-- What a frame that has been read does: the message that it completes, if any. -/
def Conn.assemble (cfg : Config) (c : Conn) (h : Header) (payload : Bytes) (a : Arrival) :
    Except Failure (Option (Opcode × Bytes) × Conn) :=
  if isControl h.opcode then (handleControl a).map fun _ => (none, c)
  else if h.opcode ≠ opContinuation then c.first cfg h payload
  else c.continuation cfg h payload

/-- A turn of the loop of `ReadMessageReuse`. -/
def Conn.readMessage (cfg : Config) (c : Conn) (a : Arrival) :
    Except Failure (Option (Opcode × Bytes) × Conn) := do
  let (h, payload, c) ← c.readFrameFast cfg a.sizes
  c.assemble cfg h payload a

/-- A connection that has just been opened, with the bytes that its client sends. -/
def Conn.opened (input : Bytes) : Conn := ⟨input, 0, [], false, []⟩

/-- A connection and the messages that `ReadMessage` has returned. -/
structure Reading where
  conn : Conn
  messages : List (Opcode × Bytes)
  deriving DecidableEq, Repr

/-- One turn, unless it fails. -/
def Reading.step (cfg : Config) (r : Reading) (a : Arrival) : Option Reading :=
  match r.conn.readMessage cfg a with
  | .ok (m, c) => some ⟨c, r.messages ++ m.toList⟩
  | .error _ => none

/-! ## The next frame -/

/-- The type of the message to which a frame belongs. -/
def Conn.messageType (c : Conn) (h : Header) : Opcode :=
  if h.opcode = opContinuation then c.readFrag else h.opcode

def Conn.compressed (c : Conn) (h : Header) : Bool :=
  if h.opcode = opContinuation then c.readCompressed else h.rsv1

def Conn.before (c : Conn) (h : Header) : Bytes :=
  if h.opcode = opContinuation then c.readFragBuf else []

def Conn.arrived (c : Conn) (h : Header) (b : Bytes) : Bytes := c.before h ++ h.payload b

/-- The next frame belongs to a text message that is not UTF-8: its inflated payload is not, or
nothing that may follow what has arrived makes it so. -/
def Conn.NotText (cfg : Config) (c : Conn) : Prop :=
  ∃ h b, readFrameHeader c.input = .ok (h, b) ∧ c.messageType h = opText ∧
    if c.compressed h then
      h.complete b = true ∧ h.fin = true ∧ (cfg.inflate (c.arrived h b)).1 ∉ code.words∗
    else Hopeless (c.arrived h b) (h.complete b && h.fin)

/-- A frame that the connection cannot mistake for one of another message: the first frame of an
uncompressed text does not follow a compressed message, its continuations leave RSV1 alone, and the
last of them is not empty unless the text was UTF-8 before. -/
def Conn.Orderly (c : Conn) (h : Header) : Prop :=
  (h.opcode = opText ∧ h.rsv1 = false ∧ c.readFrag = 0 → c.readCompressed = false) ∧
    (h.opcode = opContinuation ∧ c.readFrag = opText ∧ c.readCompressed = false →
      h.rsv1 = false ∧ (h.fin = true ∧ h.length = 0 → valid c.readFragBuf = true))

instance (c : Conn) (h : Header) : Decidable (c.Orderly h) := inferInstanceAs (Decidable (_ ∧ _))

/-- The next frame, if there is one, is orderly. -/
def Orderly (r : Reading) (_ : Arrival) : Prop :=
  ∀ x ∈ (readFrameHeader r.conn.input).toOption, r.conn.Orderly x.1

instance (r : Reading) (a : Arrival) : Decidable (Orderly r a) :=
  inferInstanceAs (Decidable (∀ x ∈ _, _))

/-! ## What a frame does -/

section Turn

variable {cfg : Config} {c c' : Conn} {h : Header} {b payload pending : Bytes} {final : Bool}
  {a : Arrival} {sizes : List Nat} {m : Option (Opcode × Bytes)} {f : Failure}

/-- A frame that has been read. -/
theorem Conn.readFrameFast_ok (hok : c.readFrameFast cfg sizes = .ok (h, payload, c')) :
    ∃ b pending, readFrameHeader c.input = .ok (h, b) ∧ h.complete b = true ∧
      payload = h.payload b ∧
      c.validated h payload h.fin = some pending ∧
        c' = { c with input := b.drop h.length, readUTF8 := pending } := by
  rw [readFrameFast_spec, bind_eq_ok] at hok
  obtain ⟨⟨h', b⟩, hh, hok⟩ := hok
  obtain ⟨-, -, hok⟩ := bind_eq_ok.mp hok
  unfold yield at hok
  cases hv : c.validated h' (h'.payload b) (h'.complete b && h'.fin) with rw [hv] at hok
  | none => cases hok
  | some pending =>
    dsimp only at hok
    split at hok
    · rename_i hc
      cases hok
      rw [hc, Bool.true_and] at hv
      exact ⟨b, pending, hh, hc, rfl, hv, rfl⟩
    · cases hok

/-- A frame that has been refused as text. -/
theorem Conn.readFrameFast_invalid (he : c.readFrameFast cfg sizes = .error f)
    (hf : f.err = .invalidUTF8) :
    ∃ h b, readFrameHeader c.input = .ok (h, b) ∧
      c.validated h (h.payload b) (h.complete b && h.fin) = none := by
  rcases readFrameFast_error he with he | ⟨h, b, hh, he | he⟩
  · rcases readFrameHeader_error he with rfl | rfl | rfl <;> cases hf
  · rcases check_error he with rfl | rfl | ⟨err, hm, rfl⟩
    · cases hf
    · cases hf
    · subst hf
      exact absurd hm (by decide)
  · rcases yield_error he with ⟨-, hv⟩ | rfl | rfl
    · exact ⟨h, b, hh, hv⟩
    · cases hf
    · cases hf

/-! ## The validator follows the message -/

/-- What the validator has pending belongs to the text gathered so far. -/
def Conn.Tracks (c : Conn) : Prop :=
  c.readFrag = opText → c.readCompressed = false → code.Splits c.readFragBuf c.readUTF8

/-- A payload is validated when it is text of an uncompressed message. -/
theorem Conn.streams_iff : c.streams h = true ↔ h.rsv1 = false ∧ c.readCompressed = false ∧
      (h.opcode = opText ∨ h.opcode = opContinuation ∧ c.readFrag = opText) := by
  simp [streams, and_assoc]

theorem Conn.Tracks.splits_pending (hc : c.Tracks) (hs : c.streams h = true) :
    code.Splits (c.before h) (c.pending h) := by
  obtain ⟨-, hp, hop | ⟨hop, hf⟩⟩ := streams_iff.mp hs
  · rw [before, pending, if_pos hop, if_neg (by rw [hop]; decide)]
    exact PrefixCode.splits_nil.mpr rfl
  · rw [before, pending, if_pos hop, if_neg (by rw [hop]; decide)]
    exact hc hf hp

/-- A payload that passes leaves the pending bytes of the longer text; at the end of a message there
are none, unless nothing was fed. -/
theorem Conn.Tracks.validated_some (hc : c.Tracks) (hs : c.streams h = true)
    (hv : c.validated h payload final = some pending) :
    code.Splits (c.before h ++ payload) pending ∧ (final = true → payload ≠ [] → pending = []) := by
  have hsp := hc.splits_pending hs
  rw [validated, if_pos hs] at hv
  split_ifs at hv with hn
  · cases hv
    rw [hn, append_nil]
    exact ⟨hsp, fun _ hne => (hne rfl).elim⟩
  · rw [feed_iff_of_splits hsp] at hv
    exact ⟨hv.1, fun hf _ => hv.2 hf⟩

/-- A payload that does not pass leaves no hope. -/
theorem Conn.Tracks.validated_none (hc : c.Tracks) (hv : c.validated h payload final = none) :
    c.streams h = true ∧ Hopeless (c.before h ++ payload) final := by
  unfold validated at hv
  split_ifs at hv with hs hn
  exact ⟨hs, (feed_eq_none_iff (hc.splits_pending hs)).mp hv⟩

/-- A text that the validator has let pass to its end. -/
theorem Conn.Tracks.arrived_mem (hc : c.Tracks) (hs : c.streams h = true)
    (hv : c.validated h payload true = some pending)
    (hne : payload = [] → c.before h ∈ code.words∗) : c.before h ++ payload ∈ code.words∗ := by
  obtain ⟨hsp, hl⟩ := hc.validated_some hs hv
  by_cases hn : payload = []
  · rw [hn, append_nil]
    exact hne hn
  · exact hsp.mem_kstar_iff.mpr (hl rfl hn)

theorem Config.decompressMessage_ok {data out : Bytes}
    (hok : cfg.decompressMessage data = .ok out) : out = (cfg.inflate data).1 := by
  unfold decompressMessage at hok
  split_ifs at hok
  exact (Except.ok.inj hok).symm

theorem Config.decompressMessage_error {data : Bytes} (he : cfg.decompressMessage data = .error f) :
    f.err ≠ .invalidUTF8 := by
  unfold decompressMessage at he
  split_ifs at he <;> cases he <;> nofun

/-! ## One turn -/

/-- The connection after a frame of which only the payload has been read. -/
def Conn.past (c : Conn) (h : Header) (b pending : Bytes) : Conn :=
  { c with input := b.drop h.length, readUTF8 := pending }

/-- A first frame keeps track of its text, and a message that it completes is UTF-8 if it is
text. -/
theorem Conn.Tracks.first (hc : c.Tracks) (ho : c.Orderly h) (hop : h.opcode ≠ opContinuation)
    (hv : c.validated h payload h.fin = some pending)
    (hok : (c.past h b pending).first cfg h payload = .ok (m, c')) :
    c'.Tracks ∧ ∀ x ∈ m, x.1 = opText → x.2 ∈ code.words∗ := by
  have hb : c.before h = [] := if_neg hop
  have hs (hf : ¬ c.readFrag ≠ 0) (ht : h.opcode = opText) (hp : h.rsv1 = false) : c.streams h =
      true :=
    streams_iff.mpr ⟨hp, ho.1 ⟨ht, hp, not_not.mp hf⟩, .inl ht⟩
  unfold Conn.first at hok
  split_ifs at hok with hf hfin hr
  · obtain ⟨out, hout, hok⟩ := bind_eq_ok.mp hok
    split_ifs at hok with hbad
    cases hok
    refine ⟨fun hf' => ?_, ?_⟩
    · exact absurd (hf'.symm.trans (not_not.mp hf)) (by decide)
    · rintro x ⟨⟩ ht
      rw [not_and, Bool.not_eq_false] at hbad
      exact valid_iff.mp (hbad ht)
  · cases hok
    refine ⟨fun hf' => ?_, ?_⟩
    · exact absurd (hf'.symm.trans (not_not.mp hf)) (by decide)
    · rintro x ⟨⟩ ht
      rw [hfin] at hv
      have hm := hc.arrived_mem (hs hf ht (Bool.eq_false_iff.mpr hr)) hv
        fun _ => hb ▸ Language.nil_mem_kstar _
      rwa [hb, nil_append] at hm
  · cases hok
    refine ⟨fun ht hp => ?_, nofun⟩
    have hsp := (hc.validated_some (hs hf ht hp) hv).1
    rwa [hb, nil_append] at hsp

/-- So does a continuation. -/
theorem Conn.Tracks.continuation (hc : c.Tracks) (hord : c.Orderly h)
    (hop : h.opcode = opContinuation)
    (hlen : payload.length = h.length) (hv : c.validated h payload h.fin = some pending)
    (hok : (c.past h b pending).continuation cfg h payload = .ok (m, c')) :
    c'.Tracks ∧ ∀ x ∈ m, x.1 = opText → x.2 ∈ code.words∗ := by
  have hb : c.before h = c.readFragBuf := if_pos hop
  unfold Conn.continuation at hok
  split_ifs at hok with hf hl hfin
  · obtain ⟨msg, hmsg, hok⟩ := bind_eq_ok.mp hok
    split_ifs at hok with hbad
    cases hok
    refine ⟨fun hz : (0 : Opcode) = opText => absurd hz (by decide), ?_⟩
    rintro x ⟨⟩ ht
    cases hco : c.readCompressed with
    | true =>
      rw [not_and, not_and, Bool.not_eq_false] at hbad
      exact valid_iff.mp (hbad ht hco)
    | false =>
      change cfg.assembled c.readCompressed (c.readFragBuf ++ payload) = _ at hmsg
      rw [hco] at hmsg
      cases hmsg
      obtain ⟨hrsv, he⟩ := hord.2 ⟨hop, ht, hco⟩
      have hs : c.streams h = true := streams_iff.mpr ⟨hrsv, hco, .inr ⟨hop, ht⟩⟩
      rw [hfin] at hv
      have hmem := hc.arrived_mem hs hv fun hnil => by
        rw [hb]
        exact valid_iff.mp (he ⟨hfin, by rw [← hlen, hnil]; rfl⟩)
      rwa [hb] at hmem
  · cases hok
    refine ⟨fun ht hco => ?_, nofun⟩
    obtain ⟨hrsv, -⟩ := hord.2 ⟨hop, ht, hco⟩
    have hs : c.streams h = true := streams_iff.mpr ⟨hrsv, hco, .inr ⟨hop, ht⟩⟩
    have hsp := (hc.validated_some hs hv).1
    rwa [hb] at hsp

/-- A control frame is not validated. -/
theorem validated_control {p : Bytes} {final : Bool} (hco : isControl h.opcode = true) :
    c.validated h p final = some c.readUTF8 := by
  refine if_neg fun hs => ?_
  obtain ⟨-, -, hop | ⟨hop, -⟩⟩ := streams_iff.mp hs <;> rw [hop] at hco <;> cases hco

theorem Conn.Tracks.readMessage (hc : c.Tracks)
    (ho : ∀ x ∈ (readFrameHeader c.input).toOption, c.Orderly x.1)
    (hok : c.readMessage cfg a = .ok (m, c')) :
    c'.Tracks ∧ ∀ x ∈ m, x.1 = opText → x.2 ∈ code.words∗ := by
  obtain ⟨⟨h, payload, c₁⟩, hf, hok⟩ := bind_eq_ok.mp hok
  obtain ⟨b, pending, hhe, hcomplete, rfl, hv, rfl⟩ := readFrameFast_ok hf
  have ho := ho (h, b) (by rw [hhe]; rfl)
  change (c.past h b pending).assemble cfg h (h.payload b) a = _ at hok
  unfold assemble at hok
  split_ifs at hok with hco hop
  · rw [validated_control hco] at hv
    cases hv
    cases hh : handleControl a with rw [hh] at hok
    | error e => cases hok
    | ok u =>
      cases hok
      exact ⟨hc, fun _ hx => by cases hx⟩
  · exact hc.first ho hop hv hok
  · refine hc.continuation ho (not_not.mp hop) ?_ hv hok
    rw [Header.payload, length_unmask, length_take, min_eq_left (of_decide_eq_true hcomplete)]

/-- A first frame is refused as text only when it is compressed, and for what it inflates to. -/
theorem Conn.first_invalid (he : c.first cfg h payload = .error f) (hf : f.err = .invalidUTF8) :
    h.opcode = opText ∧ h.fin = true ∧ h.rsv1 = true ∧ (cfg.inflate payload).1 ∉ code.words∗ := by
  unfold first at he
  split_ifs at he with hfrag hfin hr
  · cases he
    cases hf
  · rcases bind_eq_error.mp he with he | ⟨out, ho, he⟩
    · exact (decompressMessage_error he hf).elim
    · split_ifs at he with hb
      rw [← decompressMessage_ok ho]
      exact ⟨hb.1, hfin, hr, valid_eq_false_iff.mp hb.2⟩

/-- A continuation is refused as text only when it ends a compressed message, and for what that
inflates to. -/
theorem Conn.continuation_invalid (he : c.continuation cfg h payload = .error f)
    (hf : f.err = .invalidUTF8) : c.readFrag = opText ∧ h.fin = true ∧ c.readCompressed = true ∧
      (cfg.inflate (c.readFragBuf ++ payload)).1 ∉ code.words∗ := by
  unfold continuation at he
  split_ifs at he with hfrag hl hfin
  · cases he
    cases hf
  · cases he
    cases hf
  · rcases bind_eq_error.mp he with he | ⟨msg, hm, he⟩
    · unfold assembled at he
      split_ifs at he
      exact (decompressMessage_error he hf).elim
    · split_ifs at he with hb
      obtain ⟨ht, hc, hb⟩ := hb
      rw [assembled, if_pos hc] at hm
      rw [← decompressMessage_ok hm]
      exact ⟨ht, hfin, hc, valid_eq_false_iff.mp hb⟩

/-- A message that is refused as text is not UTF-8. -/
theorem Conn.Tracks.notText (hc : c.Tracks) (herr : c.readMessage cfg a = .error f)
    (hf : f.err = .invalidUTF8) : c.NotText cfg := by
  rcases bind_eq_error.mp herr with herr | ⟨⟨h, payload, c₁⟩, hfr, herr⟩
  · obtain ⟨h, b, hh, hv⟩ := readFrameFast_invalid herr hf
    obtain ⟨hs, hopeless⟩ := hc.validated_none hv
    obtain ⟨hrsv, hp, hop⟩ := streams_iff.mp hs
    refine ⟨h, b, hh, ?_, ?_⟩
    · rcases hop with hop | ⟨hop, hfrag⟩
      · rw [messageType, if_neg (by rw [hop]; decide), hop]
      · rw [messageType, if_pos hop, hfrag]
    · have hco : ¬ c.compressed h = true := by
        rw [compressed, hrsv, hp, ite_self]
        exact nofun
      rw [if_neg hco]
      exact hopeless
  · obtain ⟨b, pending, hh, hcomplete, rfl, hv, rfl⟩ := readFrameFast_ok hfr
    change (c.past h b pending).assemble cfg h (h.payload b) a = _ at herr
    unfold assemble at herr
    split_ifs at herr with hcontrol hop
    · unfold handleControl at herr
      split at herr
      · cases herr
        cases hf
      · cases herr
    · obtain ⟨ht, hfin, hrsv, hbad⟩ := first_invalid herr hf
      refine ⟨h, b, hh, ?_, ?_⟩
      · rwa [messageType, if_neg hop]
      · rw [compressed, if_neg hop, if_pos hrsv, arrived, before, if_neg hop]
        exact ⟨hcomplete, hfin, hbad⟩
    · have hop := not_not.mp hop
      obtain ⟨ht, hfin, hco, hbad⟩ := continuation_invalid herr hf
      refine ⟨h, b, hh, ?_, ?_⟩
      · rw [messageType, if_pos hop]
        exact ht
      · have hco : c.readCompressed = true := hco
        rw [compressed, if_pos hop, if_pos hco, arrived, before, if_pos hop]
        exact ⟨hcomplete, hfin, hbad⟩

end Turn

/-! ## Runs -/

/-- The validator follows the connection, and the texts returned so far are UTF-8. -/
structure Reading.Sound (r : Reading) : Prop where
  tracks : r.conn.Tracks
  messages : ∀ m ∈ r.messages, m.1 = opText → m.2 ∈ code.words∗

theorem Reading.sound_opened {input : Bytes} : Reading.Sound ⟨.opened input, []⟩ where
  tracks (hf : (0 : Opcode) = opText) := absurd hf (by decide)
  messages := nofun

theorem Reading.Sound.step {cfg : Config} {r r' : Reading} {a : Arrival} (hr : r.Sound)
    (ho : Orderly r a) (hs : r.step cfg a = some r') : r'.Sound := by
  unfold Reading.step at hs
  split at hs
  next m c hok =>
    cases hs
    obtain ⟨ht, hm⟩ := hr.tracks.readMessage ho hok
    exact ⟨ht, forall_mem_append.mpr ⟨hr.messages, fun x hx => hm x (Option.mem_toList.mp hx)⟩⟩
  next => cases hs

/-- Where every frame is orderly, each text that is returned is UTF-8, and a message is refused as
text only if it is not. -/
theorem text_valid_of_orderly {cfg : Config} {input : Bytes} {r : Reading}
    (hrun : Runs (Reading.step cfg) Orderly ⟨.opened input, []⟩ r) :
    (∀ m ∈ r.messages, m.1 = opText → m.2 ∈ code.words∗) ∧
      ∀ a f, r.conn.readMessage cfg a = .error f → f.err = .invalidUTF8 → r.conn.NotText cfg := by
  have hs : r.Sound := hrun.invariant Reading.Sound.step Reading.sound_opened
  exact ⟨hs.messages, fun a f he hf => hs.tracks.notText he hf⟩

/-- A short frame of a client, from its first byte. -/
def clientFrame (b0 : UInt8) (payload : Bytes) : Bytes :=
  b0 :: UInt8.ofNat (0x80 + payload.length) :: [0x37, 0xFA, 0x21, 0x3D] ++ unmask [0x37, 0xFA, 0x21,
    0x3D] 0 payload

/-- A connection that has negotiated compression, with an inflater that changes nothing. -/
def plainInflate : Config := ⟨true, 1024, 4096, fun b => (b, false)⟩

/-- A character split over two fragments that arrive byte by byte, with a ping between them. -/
def splitText : Bytes :=
  clientFrame 0x01 [0x61, 0xC3] ++ clientFrame 0x89 [] ++ clientFrame 0x80 [0xA9, 0x62]

theorem text_valid_of_orderly_split :
    ∃ r, Runs (Reading.step plainInflate) Orderly ⟨.opened splitText, []⟩ r ∧
      r.messages = [(opText, [0x61, 0xC3, 0xA9, 0x62])] ∧
        [0x61, 0xC3, 0xA9, 0x62] ∈ code.words∗ := by
  obtain ⟨r, hrun, hm⟩ : ∃ r, Runs (Reading.step plainInflate) Orderly ⟨.opened splitText, []⟩ r ∧
    r.messages = [(opText, [0x61, 0xC3, 0xA9, 0x62])] :=
      exists_runs [⟨[0], none⟩, ⟨[], none⟩, ⟨[0], none⟩] (by decide +kernel)
  refine ⟨r, hrun, hm, (text_valid_of_orderly hrun).1 (opText, _) ?_ rfl⟩
  rw [hm]
  exact mem_singleton_self _

/-- A fragment that ends inside a character, and an empty last one. -/
def truncatedText : Bytes := clientFrame 0x01 [0xC3] ++ clientFrame 0x80 []

/-- A byte that is never UTF-8, in a last fragment with RSV1. -/
def markedText : Bytes := clientFrame 0x01 [0x61] ++ clientFrame 0xC0 [0xFF]

/-- The same byte, in a message after a compressed one. -/
def afterCompressed : Bytes := clientFrame 0xC1 [0x61] ++ clientFrame 0x81 [0xFF]

/-- A character split over two fragments, after a compressed message. -/
def splitAfterCompressed : Bytes :=
  clientFrame 0xC1 [0x61] ++ clientFrame 0x01 [0xC3] ++ clientFrame 0x80 [0xA9]

/-- The connection before the last frame of `splitAfterCompressed`. -/
def beforeLast : Reading :=
  ⟨⟨clientFrame 0x80 [0xA9], opText, [0xC3], false, []⟩, [(opText, [0x61])]⟩

/-- Texts that are not UTF-8 are returned, and one that is UTF-8 is refused. -/
theorem text_invalid :
    (∃ r, Runs (Reading.step plainInflate) (fun _ _ => True) ⟨.opened truncatedText, []⟩ r ∧
      (opText, [0xC3]) ∈ r.messages ∧ [0xC3] ∉ code.words∗) ∧
    (∃ r, Runs (Reading.step plainInflate) (fun _ _ => True) ⟨.opened markedText, []⟩ r ∧
      (opText, [0x61, 0xFF]) ∈ r.messages ∧ [0x61, 0xFF] ∉ code.words∗) ∧
    (∃ r, Runs (Reading.step plainInflate) (fun _ _ => True) ⟨.opened afterCompressed, []⟩ r ∧
      (opText, [0xFF]) ∈ r.messages ∧ [0xFF] ∉ code.words∗) ∧
    ∃ r, Runs (Reading.step plainInflate) (fun _ _ => True) ⟨.opened splitAfterCompressed, []⟩ r ∧
      (r.conn.readMessage plainInflate ⟨[], none⟩ = .error invalidUTF8) ∧
        ¬ r.conn.NotText plainInflate := by
  simp only [← valid_eq_false_iff]
  refine ⟨?_, ?_, ?_, beforeLast, ?_, ?_, ?_⟩
  · exact exists_runs [⟨[], none⟩, ⟨[], none⟩] (by decide +kernel)
  · exact exists_runs [⟨[], none⟩, ⟨[], none⟩] (by decide +kernel)
  · exact exists_runs [⟨[], none⟩, ⟨[], none⟩] (by decide +kernel)
  · have he : exec (Reading.step plainInflate) (fun _ _ => True) ⟨.opened splitAfterCompressed, []⟩
        [⟨[], none⟩, ⟨[], none⟩] = some beforeLast := by decide +kernel
    exact runs_of_exec he
  · rfl
  · rintro ⟨h, b, hh, -, hb⟩
    cases hh
    have hopeless : Hopeless [0xC3, 0xA9] true := hb
    exact hopeless [] (fun _ => rfl) (valid_iff.mp (by decide +kernel))

end Celeris.WebSocket
