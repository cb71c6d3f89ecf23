import Celeris.Data.Bytes

/-!
# Streams of an HTTP/2 connection (`internal/protocol/h2/stream/stream.go`, `state.go`)

What the server keeps for one stream, and the frames it hands to the connection. A
`*Stream` is known by its identifier here: a client uses an identifier for one request
at most, so the pool of stream objects, and the token that tells the uses of one object
apart, have no counterpart. The last two fields of `Stream` only tell what happened.
-/

namespace Celeris.H2

/-! ## States -/

inductive State where
  | idle
  | opened
  | halfClosedLocal
  | halfClosedRemote
  | closed
deriving DecidableEq, Repr

/-- The states that count against `SETTINGS_MAX_CONCURRENT_STREAMS`. -/
def State.active : State → Bool
  | .opened | .halfClosedLocal | .halfClosedRemote => true
  | .idle | .closed => false

/-- The states in which the peer may still send the request. -/
def State.requesting : State → Bool
  | .opened | .halfClosedLocal => true
  | .idle | .halfClosedRemote | .closed => false

def State.ended : State → State
  | .halfClosedRemote => .closed
  | .opened => .halfClosedLocal
  | state => state

@[simp] theorem State.active_closed : State.closed.active = false := rfl

/-! ## Frames sent -/

inductive ErrCode where
  | noError
  | protocolError
  | internalError
  | flowControlError
  | streamClosed
  | frameSizeError
  | refusedStream
  | cancel
  | compressionError
  | enhanceYourCalm
deriving DecidableEq, Repr

/-- A frame the server sends. The fields of a header block are left out. -/
inductive Output where
  | headers (id status : Nat) (endStream : Bool)
  | data (id : Nat) (endStream : Bool) (payload : Bytes)
  | rstStream (id : Nat) (code : ErrCode)
  | goAway (lastStreamID : Nat) (code : ErrCode) (debugData : String)
  | windowUpdate (id increment : Nat)
  | settingsAck
  | pingAck (data : Bytes)
deriving DecidableEq, Repr

/-- The increment of a `WINDOW_UPDATE` for the connection. -/
def Output.connIncrement : Output → Option Nat
  | .windowUpdate 0 increment => some increment
  | _ => none

/-- The rest of the frames of `appendH2DataFragmented`; `fuel` is the number of bytes. -/
def fragments (maxFrame id : Nat) (endStream : Bool) : (fuel : Nat) → Bytes → List Output
  | 0, _ => []
  | fuel + 1, remaining =>
    if remaining.length ≤ maxFrame then [.data id endStream remaining]
    else .data id false (remaining.take maxFrame) ::
      fragments maxFrame id endStream fuel (remaining.drop maxFrame)

/-- `appendH2DataFragmented`: the `DATA` frames of some bytes. -/
def dataFrames (maxFrame id : Nat) (endStream : Bool) (data : Bytes) : List Output :=
  if data = [] then [.data id endStream []]
  else fragments (if maxFrame = 0 then 16384 else maxFrame) id endStream data.length data

/-! ## Streams -/

/-- A header field, the name first. -/
abbrev Field := Bytes × Bytes

structure Stream where
  state : State := .idle
  headers : List Field := []
  data : Bytes := []
  receivedDataLen : Nat := 0
  receivedInitialHeaders : Bool := false
  endStream : Bool := false
  isHEAD : Bool := false
  /-- `flagPlaceholder`. -/
  placeholder : Bool := false
  /-- `flagReqDeadline`. -/
  reqDeadline : Bool := false
  /-- `flagCancelled`. -/
  cancelled : Bool := false
  /-- `flagAsyncRunning`. -/
  asyncRunning : Bool := false
  /-- `flagBudgetPool`. -/
  budgetPool : Bool := false
  /-- `flagStreamed`. -/
  streamed : Bool := false
  /-- `flagRespEnded`. -/
  respEnded : Bool := false
  /-- `flagRespFailed`. -/
  respFailed : Bool := false
  headersSent : Bool := false
  /-- The length the head declares: -1 when it declares none, -2 when it is no length. -/
  respDeclared : Int := -1
  respWritten : Nat := 0
  windowSize : Int := 65535
  outboundBuffer : Bytes := []
  outboundEndStream : Bool := false
  outboundAbandoned : Bool := false
  /-- The part of `windowSize` that came as the initial window size. -/
  base : Int := 65535
  /-- The increments of the `WINDOW_UPDATE`s for the stream. -/
  credited : Int := 0
  /-- The bytes sent in `DATA` frames of the stream. -/
  dataSent : Int := 0
deriving DecidableEq, Repr

/-- `NewStream`, with the window a manager gives it. -/
def newStream (initialWindowSize : Int) : Stream :=
  { windowSize := initialWindowSize, base := initialWindowSize }

/-- What `resetLocked` leaves of a stream. -/
def Stream.released : Stream := { windowSize := 0, base := 0 }

def Stream.runsOnPool (s : Stream) : Bool := s.asyncRunning

/-- `responseOutcome`. -/
inductive Outcome where
  | none
  | settled
  | complete
  | short
deriving DecidableEq, Repr

@[inherit_doc Outcome]
def Stream.responseOutcome (s : Stream) : Outcome :=
  if s.headersSent = false then .none
  else if s.streamed = false then .settled
  else if s.respEnded then .settled
  else if s.respFailed ∨ s.respDeclared = -2 then .short
  else if s.respDeclared < 0 ∨ s.respDeclared = s.respWritten then .complete
  else .short

end Celeris.H2
