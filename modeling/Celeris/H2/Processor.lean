import Celeris.H2.Handler
import Celeris.H2.Validation

/-!
# The frames of a connection (`internal/protocol/h2/stream/processor.go`, `deadline.go`)

`Processor`: what the server does with each frame of a client. `processFrame` is the
dispatch, and the functions above it are the handlers of the frame types under their
names in the source. A frame comes with what the step takes from outside: the time,
what HPACK makes of a header block, the order in which maps are ranged over, and what
the handler does if it runs on the event loop.

A result with an error ends the connection. The deadlines' clocks are left out, as are
the errors of writes to the buffers, which do not fail.
-/

namespace Celeris.H2

/-! ## Frames received -/

/-- An entry of a `SETTINGS` frame. -/
inductive Setting where
  | headerTableSize (val : Nat)
  | enablePush (val : Nat)
  | maxConcurrentStreams (val : Nat)
  | initialWindowSize (val : Nat)
  | maxFrameSize (val : Nat)
  | maxHeaderListSize (val : Nat)
  | other (id val : Nat)
deriving DecidableEq, Repr

/-- A `DATA` frame: `length` is the payload with its padding, in 24 bits. -/
structure DataFrame where
  streamID : Nat
  endStream : Bool
  data : Bytes
  length : Nat
  data_le : data.length ≤ length
  length_lt : length < 2 ^ 24
deriving DecidableEq

/-- A `HEADERS` frame; `priority` is there when it has the `PRIORITY` flag. -/
structure HeadersFrame where
  streamID : Nat
  endStream : Bool
  endHeaders : Bool
  priority : Option Priority
  fragment : Bytes
  length : Nat
deriving DecidableEq

def HeadersFrame.dependency (f : HeadersFrame) : Option Nat :=
  f.priority.map Priority.streamDependency

/-- A frame of the client. -/
inductive Frame where
  | settings (ack : Bool) (entries : List Setting)
  | headers (f : HeadersFrame)
  | data (f : DataFrame)
  | windowUpdate (streamID increment : Nat)
  | rstStream (streamID : Nat)
  | priority (streamID : Nat) (priority : Priority)
  | goAway (lastStreamID : Nat)
  | ping (streamID : Nat) (ack : Bool) (data : Bytes)
  | continuation (streamID : Nat) (endHeaders : Bool) (fragment : Bytes)
  | pushPromise (streamID : Nat)
  | unknown (streamID : Nat)
deriving DecidableEq

def Frame.streamID : Frame → Nat
  | .settings _ _ => 0
  | .headers f => f.streamID
  | .data f => f.streamID
  | .windowUpdate id _ => id
  | .rstStream id => id
  | .priority id _ => id
  | .goAway _ => 0
  | .ping id _ _ => id
  | .continuation id _ _ => id
  | .pushPromise id => id
  | .unknown id => id

def Frame.typeName : Frame → String
  | .settings _ _ => "*http2.SettingsFrame"
  | .headers _ => "*http2.HeadersFrame"
  | .data _ => "*http2.DataFrame"
  | .windowUpdate _ _ => "*http2.WindowUpdateFrame"
  | .rstStream _ => "*http2.RSTStreamFrame"
  | .priority _ _ => "*http2.PriorityFrame"
  | .goAway _ => "*http2.GoAwayFrame"
  | .ping _ _ _ => "*http2.PingFrame"
  | .continuation _ _ _ => "*http2.ContinuationFrame"
  | .pushPromise _ => "*http2.PushPromiseFrame"
  | .unknown _ => "*http2.UnknownFrame"

/-- What HPACK makes of a header block. -/
inductive Decoded where
  | failed
  /-- The field section is over `SETTINGS_MAX_HEADER_LIST_SIZE`. -/
  | tooLarge
  | fields (headers : List Field)
deriving DecidableEq, Repr

/-- What a step takes from outside. -/
structure Env where
  /-- The second of the clock. -/
  now : Int := 0
  /-- Whether more frames of the client are at hand. -/
  hasMoreFrames : Bool := false
  /-- What HPACK makes of the block that ends with the frame. -/
  decoded : Decoded := .fields []
  /-- Whether the request's route is marked to run on the pool. -/
  routeAsync : Bool := false
  /-- What the handler does if it runs on the event loop. -/
  run : HandlerRun := {}
  /-- The orders in which the map of streams is ranged over. -/
  order : Nat → List Nat := fun _ => []

/-! ## Identifiers of streams the server has reset -/

def serverResetWindow : Nat := 2048

/-- `serverResets`: a bit for each of the last `serverResetWindow` client streams. -/
structure ServerResets where
  /-- One past the highest index marked. -/
  top : Nat := 0
  bits : Nat → Bool := fun _ => false

namespace ServerResets

def has (r : ServerResets) (id : Nat) : Bool :=
  let idx := id / 2
  if id % 2 = 0 ∨ idx ≥ r.top ∨ idx + serverResetWindow < r.top then false
  else r.bits (idx % serverResetWindow)

def put (bits : Nat → Bool) (idx : Nat) (b : Bool) : Nat → Bool :=
  Function.update bits (idx % serverResetWindow) b

def mark (r : ServerResets) (id : Nat) : ServerResets :=
  let idx := id / 2
  if id % 2 = 0 then r
  else if idx ≥ r.top then
    let bits := if idx - r.top ≥ serverResetWindow ∨ r.top = 0 then fun _ => false
      else (List.range' r.top (idx + 1 - r.top)).foldl (fun bits k => put bits k false) r.bits
    ⟨idx + 1, put bits idx true⟩
  else if idx + serverResetWindow < r.top then r
  else { r with bits := put r.bits idx true }

def clear (r : ServerResets) (id : Nat) : ServerResets :=
  if r.has id then { r with bits := put r.bits (id / 2) false } else r

end ServerResets

/-! ## Budgets for what the server refuses -/

inductive RefusalKind where
  | streamLimit
  | headerList
  | malformed
  | bodyLimit
  | emptyData
deriving DecidableEq, Repr

/-- The counts of the current second. -/
structure Refusals where
  windowSec : Int := 0
  refused : RefusalKind → Nat := fun _ => 0

/-- The most of a kind in a second. -/
def RefusalKind.burstMax : RefusalKind → Nat
  | .streamLimit => 2000
  | .headerList => 100
  | .malformed => 100
  | .bodyLimit => 100
  | .emptyData => 10000

/-- The debug data of the `GOAWAY` past it. -/
def RefusalKind.debugData : RefusalKind → String
  | .streamLimit => "refused streams flood"
  | .headerList => "refused header lists flood"
  | .malformed => "malformed requests flood"
  | .bodyLimit => "request bodies over the limit flood"
  | .emptyData => "empty DATA flood"

/-- Count one more of a kind. -/
def Refusals.count (r : Refusals) (kind : RefusalKind) (now : Int) : Refusals :=
  let r := if now ≠ r.windowSec then ⟨now, fun _ => 0⟩ else r
  { r with refused := Function.update r.refused kind (r.refused kind + 1) }

/-- Why a request is malformed or refused. -/
inductive Cause where
  | invalidHeaders (e : FieldError)
  | invalidTrailers (e : FieldError)
  | contentLength (e : LengthError)
  | bodyTooLarge (limit streamID : Nat)
deriving DecidableEq, Repr

/-- An error that ends the connection. -/
inductive Err where
  | text (s : String)
  | because (s : String) (why : Cause)
deriving DecidableEq, Repr

/-- The error past the most of a kind in a second. -/
def RefusalKind.err (headerListMax : Nat) (why : Option Cause) : RefusalKind → Err
  | .streamLimit =>
    .text "streams refused for MAX_CONCURRENT_STREAMS more than 2000 times in a second"
  | .headerList =>
    .text s!"header lists over {headerListMax} bytes refused more than 100 times in a second"
  | .emptyData => .text "more than 10000 empty DATA frames in a second"
  | .malformed => flood "more than 100 malformed requests in a second" why
  | .bodyLimit => flood "more than 100 request bodies over the limit in a second" why
where
  /-- A text, and what it is about if that is known. -/
  flood (s : String) : Option Cause → Err
  | some why => .because s why
  | none => .text s

/-! ## The processor -/

structure ContinuationState where
  streamID : Nat
  headerBlock : Bytes
  endStream : Bool
  continuations : Nat := 0
  priority : Option Priority
deriving DecidableEq, Repr

def ContinuationState.dependency (cs : ContinuationState) : Option Nat :=
  cs.priority.map Priority.streamDependency

/-- A request as a handler sees it. -/
structure Request where
  id : Nat
  headers : List Field
  data : Bytes
  /-- The bytes of the `DATA` frames of the request. -/
  received : Nat
deriving DecidableEq, Repr

/-- `Processor`. `served` and `received` only tell what happened: the requests handlers
were started on, and the flow-controlled length of the `DATA` frames. -/
structure Processor where
  manager : Manager := {}
  /-- 0 for no limit. -/
  maxRequestBodySize : Nat := 0
  headerListMax : Nat := 64 * 2 ^ 10
  hasMoreFrames : Bool := false
  pendingInlineCleanup : List Nat := []
  continuationState : Option ContinuationState := none
  rstCount : Nat := 0
  rstWindowSec : Int := 0
  goAwaySent : Bool := false
  goAwayLastID : Nat := 0
  refusals : Refusals := {}
  resetIDs : ServerResets := {}
  resetOpen : ServerResets := {}
  expiredReq : List (Nat × Int) := []
  /-- The handlers on the pool. -/
  pool : List (Nat × PoolStage) := []
  /-- The connection has ended. -/
  ended : Bool := false
  served : List Request := []
  received : Nat := 0

/-- What a frame makes of a processor. -/
abbrev Result := Processor × Option Err

namespace Processor

/-- Do what follows unless there is an error. -/
def andThen (r : Result) (next : Processor → Result) : Result :=
  match r with
  | (p, none) => next p
  | (p, some err) => (p, some err)

def manage (p : Processor) (f : Manager → Manager) : Processor := { p with manager := f p.manager }

/-! ## Errors and resets -/

/-- `SendGoAway`: the last stream never goes up. -/
def sendGoAway (p : Processor) (lastStreamID : Nat) (code : ErrCode) (debugData : String) :
    Processor :=
  let last := if p.goAwaySent ∧ lastStreamID > p.goAwayLastID then p.goAwayLastID else lastStreamID
  { p.manage (·.write [.goAway last code debugData]) with goAwaySent := true, goAwayLastID := last }

/-- `GoAwayErr`, with the highest stream as the last. -/
def goAwayErr (p : Processor) (code : ErrCode) (debugData : String) (err : Err) : Result :=
  (p.sendGoAway p.manager.maxStreamID code debugData, some err)

/-- `sendRSTStreamAndMarkClosed`: straight to the connection. -/
def sendRSTStreamAndMarkClosed (p : Processor) (id : Nat) (code : ErrCode) : Processor :=
  { p.manage fun m =>
      ((if id ∈ m.ids then m.cancel id else m).write [.rstStream id code]).deleteStream id with
    resetIDs := p.resetIDs.mark id }

def countRefusal (p : Processor) (env : Env) (kind : RefusalKind) (why : Option Cause) : Result :=
  let p := { p with refusals := p.refusals.count kind env.now }
  if p.refusals.refused kind > kind.burstMax then
    p.goAwayErr .enhanceYourCalm kind.debugData (kind.err p.headerListMax why)
  else (p, none)

def markResetOpen (p : Processor) (id : Nat) (clientDone : Bool) : Processor :=
  if clientDone then p else { p with resetOpen := p.resetOpen.mark id }

/-- A stream is reset if the budget of the refusal allows it. -/
def refuse (p : Processor) (env : Env) (kind : RefusalKind) (why : Option Cause) (id : Nat)
    (clientDone : Bool) (code : ErrCode) : Result :=
  andThen (p.countRefusal env kind why) fun p =>
    ((p.markResetOpen id clientDone).sendRSTStreamAndMarkClosed id code, none)

def refuseMalformed (p : Processor) (env : Env) (id : Nat) (clientDone : Bool) (why : Cause) :
    Result :=
  p.refuse env .malformed (some why) id clientDone .protocolError

def refuseHeaderList (p : Processor) (env : Env) (id : Nat) (clientDone : Bool) : Result :=
  p.refuse env .headerList none id clientDone .enhanceYourCalm

def requestExpired (p : Processor) (id : Nat) : Bool := (p.expiredReq.lookup id).isSome

def forgetExpired (p : Processor) (id : Nat) : Processor :=
  { p with expiredReq := p.expiredReq.filter fun e => e.1 ≠ id }

def clearResetOpen (p : Processor) (id : Nat) : Processor :=
  { p with resetOpen := p.resetOpen.clear id }

/-! ## Handlers start -/

def canRunInline (p : Processor) (env : Env) (id : Nat) : Bool :=
  (p.manager.stream id).endStream && p.continuationState.isNone && !env.routeAsync

def serve (p : Processor) (id : Nat) : Processor :=
  let s := p.manager.stream id
  { p with served := p.served ++ [⟨id, s.headers, s.data, s.receivedDataLen⟩] }

/-- `executeHandlerInline`; a handler that ends the goroutine ends the event loop. -/
def executeHandlerInline (p : Processor) (env : Env) (id : Nat) : Processor :=
  let p := p.serve id
  let (cleanup, m) := p.manager.executeHandlerInline id env.run p.hasMoreFrames
  { p with
    manager := m
    pendingInlineCleanup :=
      if cleanup = .defer then p.pendingInlineCleanup ++ [id] else p.pendingInlineCleanup
    ended := p.ended || env.run.ending = .goexit }

/-- `Submit`, with the flags of a pool handler. -/
def submit (p : Processor) (id : Nat) (inline : Bool) : Processor :=
  { p.manage (·.modify id fun s => { s with
    asyncRunning := true, budgetPool := s.budgetPool || inline }) with
    pool := p.pool ++ [(id, .submitted)] }

def runHandler (p : Processor) (env : Env) (id : Nat) : Processor :=
  let inline := p.canRunInline env id
  if p.goAwaySent ∧ id > p.goAwayLastID then p.sendRSTStreamAndMarkClosed id .refusedStream
  else if inline && !p.manager.overOutboundBudget then p.executeHandlerInline env id
  else if (p.manager.stream id).cancelled then p
  else p.submit id inline

/-! ## HEADERS -/

inductive Admission where
  | new
  | trailers
  | refused
deriving DecidableEq, Repr

/-- The block of a stream the server does not serve is decoded for the state of HPACK only. -/
def decodeRefused (p : Processor) (env : Env) : Result :=
  if env.decoded = .failed then
    p.goAwayErr .compressionError "HPACK decoding failed" (.text "failed to decode headers")
  else (p, none)

def refuseStream (p : Processor) (env : Env) (id : Nat) (endStream : Bool) : Result :=
  andThen (p.countRefusal env .streamLimit none) fun p =>
    andThen (p.decodeRefused env) fun p =>
      ((p.markResetOpen id endStream).sendRSTStreamAndMarkClosed id .refusedStream, none)

def validateStreamID (id last : Nat) : Option String :=
  if id = 0 then some "stream ID 0 is reserved"
  else if id % 2 = 0 then some s!"client sent even-numbered stream ID: {id}"
  else if id ≤ last then some s!"stream ID {id} is not greater than last stream {last}"
  else none

def armRequest (p : Processor) (id : Nat) (endStream : Bool) : Processor :=
  if !endStream && p.manager.reqTimeout then
    p.manage (·.modify id fun s => { s with reqDeadline := true })
  else p

/-- The end of `admitHeaders`: a stream is opened, or refused. -/
def openStream (p : Processor) (env : Env) (id : Nat) (endStream : Bool) : Result × Admission :=
  match p.manager.tryOpenStream id with
  | none => (p.refuseStream env id endStream, .refused)
  | some m => ((armRequest { p with manager := m } id endStream, none), .new)

/-- `admitHeaders` on a stream that is not held, or held for its priority only. -/
def admitNew (p : Processor) (env : Env) (id : Nat) (endStream : Bool) : Result × Admission :=
  let last := p.manager.lastClientStream
  if id ≤ last ∧ (p.resetOpen.has id ∨ p.requestExpired id) then
    let p := (p.clearResetOpen id).forgetExpired id
    if endStream = false then
      (p.goAwayErr .protocolError "trailers without END_STREAM" <| .text
      s!"HEADERS frame without END_STREAM after the request on stream {id}, which the server reset",
      .refused)
    else (p.decodeRefused env, .refused)
  else if id ≤ last then
    (p.goAwayErr .protocolError "HEADERS on closed stream (reused id)"
      (.text s!"HEADERS frame on closed stream {id} (last stream: {last})"), .new)
  else match validateStreamID id last with
    | some text => (p.goAwayErr .protocolError text (.text text), .new)
    | none => openStream (p.manage fun m => { m with lastClientStream := id }) env id endStream

def admitHeaders (p : Processor) (env : Env) (id : Nat) (endStream : Bool) : Result × Admission :=
  let s := p.manager.stream id
  if id ∉ p.manager.ids ∨ s.state = .idle then p.admitNew env id endStream
  else if s.state = .closed then
    (p.goAwayErr .streamClosed "HEADERS on closed stream (state closed)"
      (.text s!"HEADERS frame on closed stream {id}"), .new)
  else if s.state = .halfClosedRemote then
    (p.goAwayErr .streamClosed "HEADERS on half-closed stream"
      (.text s!"HEADERS frame on half-closed (remote) stream {id}"), .new)
  else if s.receivedInitialHeaders then
    if endStream = false then
      (p.goAwayErr .protocolError "second HEADERS without END_STREAM"
        (.text s!"second HEADERS without END_STREAM on stream {id}"), .new)
    else ((p, none), .trailers)
  else p.openStream env id endStream

/-- `AddHeadersBatch`. -/
def addHeaders (p : Processor) (id : Nat) (headers : List Field) : Processor :=
  p.manage (·.modify id fun s => { s with headers := s.headers ++ headers })

/-- Whether a `:method` says `HEAD`. -/
def isHead (headers : List Field) : Bool := (ascii ":method", ascii "HEAD") ∈ headers

/-- The request has ended. -/
def endRequest (p : Processor) (id : Nat) : Processor :=
  p.manage fun m => (m.modify id fun s => { s with endStream := true }).setState id
    .halfClosedRemote

def disarmRequest (p : Processor) (id : Nat) : Processor := p.manage (·.disarmRequest id)

/-- A handler starts on a request that has ended, if its content-length is right. -/
def runChecked (p : Processor) (env : Env) (id : Nat) : Result :=
  let s := p.manager.stream id
  match validateContentLength s.headers s.receivedDataLen with
  | .error e => p.refuseMalformed env id true (.contentLength e)
  | .ok _ => (p.runHandler env id, none)

/-- The part of `completeHeaderBlock` for trailers. -/
def completeTrailers (p : Processor) (env : Env) (id : Nat) (endStream : Bool)
    (headers : List Field) : Result :=
  match validateTrailerHeaders headers with
  | .error e => p.refuseMalformed env id true (.invalidTrailers e)
  | .ok _ =>
    let p := p.addHeaders id headers
    if endStream then (((p.disarmRequest id).endRequest id).runHandler env id, none) else (p, none)

/-- The part of `completeHeaderBlock` for the header block of a request. -/
def completeHeaders (p : Processor) (env : Env) (id : Nat) (endStream : Bool)
    (headers : List Field) : Result :=
  match validateRequestHeaders headers with
  | .error e => p.refuseMalformed env id endStream (.invalidHeaders e)
  | .ok _ =>
    let p := (p.addHeaders id headers).manage (·.modify id fun s =>
      { s with isHEAD := s.isHEAD || isHead headers, receivedInitialHeaders := true })
    if endStream then (p.endRequest id).runChecked env id else (p, none)

def completeHeaderBlock (p : Processor) (env : Env) (trailers : Bool) (id : Nat)
    (endStream : Bool) : Result :=
  match env.decoded with
  | .failed => p.goAwayErr .compressionError "HPACK decoding failed"
      (.text "failed to decode headers")
  | .tooLarge => p.refuseHeaderList env id endStream
  | .fields headers =>
    if trailers then p.completeTrailers env id endStream headers
    else p.completeHeaders env id endStream headers

def headerBlockTooLarge (p : Processor) (id : Nat) : Result :=
  let most := p.headerListMax * 4
  p.goAwayErr .enhanceYourCalm "header block too large"
    (.text s!"header block on stream {id} exceeds {most} bytes")

/-- The stream of a header block takes its priority. -/
def prioritize (p : Processor) (id : Nat) : Option Priority → Processor
  | some priority => p.manage (·.updatePriority id priority)
  | none => p

def serveHeaderBlock (p : Processor) (env : Env) (id : Nat) (endStream : Bool)
    (priority : Option Priority) (block : Bytes) : Result :=
  if block.length > p.headerListMax * 4 then p.headerBlockTooLarge id
  else
    let (r, admission) := p.admitHeaders env id endStream
    andThen r fun p =>
      match admission with
      | .refused => (p, none)
      | .trailers => p.completeHeaderBlock env true id endStream
      | .new =>
        if priority.map Priority.streamDependency = some id then
          p.goAwayErr .protocolError "stream depends on itself"
            (.text s!"stream {id} depends on itself")
        else (p.prioritize id priority).completeHeaderBlock env false id endStream

def handleHeaders (p : Processor) (env : Env) (f : HeadersFrame) : Result :=
  if f.endHeaders then p.serveHeaderBlock env f.streamID f.endStream f.priority f.fragment
  else if f.fragment.length > p.headerListMax * 4 then p.headerBlockTooLarge f.streamID
  else
    let cs : ContinuationState :=
      { streamID := f.streamID, headerBlock := f.fragment, endStream := f.endStream,
        priority := f.priority }
    ({ p with continuationState := some cs }, none)

def maxContinuationFrames : Nat := 32

/-- `handleContinuation`, with `appendContinuation`. -/
def handleContinuation (p : Processor) (env : Env) (id : Nat) (endHeaders : Bool)
    (fragment : Bytes) : Result :=
  match p.continuationState with
  | none =>
    p.goAwayErr .protocolError "unexpected CONTINUATION"
      (.text s!"unexpected CONTINUATION frame on stream {id}")
  | some cs =>
    let expected := cs.streamID
    let done := { p with continuationState := none }
    if expected ≠ id then
      p.goAwayErr .protocolError "CONTINUATION on wrong stream"
        (.text s!"CONTINUATION frame on wrong stream: expected {expected}, got {id}")
    else if cs.headerBlock.length + fragment.length > p.headerListMax * 4 then
      done.headerBlockTooLarge id
    else if cs.continuations + 1 > maxContinuationFrames then
      done.goAwayErr .enhanceYourCalm "too many CONTINUATION frames"
        (.text s!"header block on stream {id} has more than 32 CONTINUATION frames")
    else
      let cs := { cs with
        continuations := cs.continuations + 1, headerBlock := cs.headerBlock ++ fragment }
      if endHeaders = false then ({ p with continuationState := some cs }, none)
      else done.serveHeaderBlock env id cs.endStream cs.priority cs.headerBlock

/-! ## DATA -/

def countEmptyData (p : Processor) (env : Env) (f : DataFrame) : Result :=
  if f.data = [] ∧ f.endStream = false then p.countRefusal env .emptyData none else (p, none)

/-- Give the connection credit for a frame on a stream that takes none. -/
def creditConn (p : Processor) (f : DataFrame) : Processor :=
  p.manage fun m => (m.accumulateWindowUpdate 0 f.length).flushWindowUpdates false

/-- `handleData` on a stream that is not held. -/
def ignoreData (p : Processor) (env : Env) (f : DataFrame) : Result :=
  let id := f.streamID
  if id ≤ p.manager.lastClientStream ∧ (p.resetIDs.has id ∨ p.requestExpired id) then
    andThen (p.countEmptyData env f) fun p =>
      let p := if f.length > 0 then p.creditConn f else p
      (if f.endStream then (p.clearResetOpen id).forgetExpired id else p, none)
  else p.goAwayErr .protocolError "DATA on idle stream" (.text s!"DATA frame on idle stream {id}")

/-- `validateStreamState` for `DATA`. -/
def validateDataState : State → Option String
  | .idle => some "cannot send DATA frame on idle stream"
  | .halfClosedRemote => some "cannot send DATA frame on half-closed (remote) stream"
  | .closed => some "cannot send DATA frame on closed stream"
  | .opened | .halfClosedLocal => none

def refuseBodyTooLarge (p : Processor) (env : Env) (f : DataFrame) : Result :=
  andThen (p.refuse env .bodyLimit (some (.bodyTooLarge p.maxRequestBodySize f.streamID)) f.streamID
    f.endStream .cancel) fun p => (p.creditConn f, none)

/-- `AddData`, with the count of the bytes. -/
def addData (p : Processor) (f : DataFrame) : Processor :=
  p.manage (·.modify f.streamID fun s =>
    { s with receivedDataLen := s.receivedDataLen + f.data.length, data := s.data ++ f.data })

/-- The credit for a frame the stream has taken. -/
def creditData (p : Processor) (f : DataFrame) : Processor :=
  if f.length > 0 then
    p.manage fun m => (m.accumulateWindowUpdate f.streamID f.length).accumulateWindowUpdate 0
      f.length
  else p

/-- `handleData` on a stream that takes the frame. A body over the limit ends the stream or
the connection, and with it the count. -/
def takeData (p : Processor) (env : Env) (f : DataFrame) : Result :=
  let total := (p.manager.stream f.streamID).receivedDataLen + f.data.length
  if p.maxRequestBodySize > 0 ∧ total > p.maxRequestBodySize then p.refuseBodyTooLarge env f
  else
    let p := (p.addData f).creditData f
    if f.endStream then
      (((p.manage (·.flushWindowUpdates true)).disarmRequest f.streamID).endRequest
        f.streamID).runChecked env f.streamID
    else (if f.length > 0 then p.manage (·.flushWindowUpdates false) else p, none)

def handleData (p : Processor) (env : Env) (f : DataFrame) : Result :=
  let id := f.streamID
  if id ∉ p.manager.ids then p.ignoreData env f
  else
    let state := (p.manager.stream id).state
    if state = .closed then
      (p.manage (·.write [.rstStream id .streamClosed]),
        some (.text s!"DATA frame on closed stream {id}"))
    else match validateDataState state with
      | some text => (p.sendRSTStreamAndMarkClosed id .streamClosed, some (.text text))
      | none => andThen (p.countEmptyData env f) fun p => p.takeData env f

/-! ## Flow control -/

/-- A stream whose response has gone out whole leaves. -/
def finishFlushed (m : Manager) (id : Nat) (state : State) : Manager :=
  ((if state = .halfClosedRemote ∨ state = .opened then
    m.setState id state.ended else m)).deleteStream id

/-- Flush the buffer of a stream; if that ends the response the stream leaves. -/
def flushStream (m : Manager) (id : Nat) : Manager :=
  let state := (m.stream id).state
  let (finished, t) := m.flushOutbound id
  if finished then finishFlushed t id state else t

/-- The loop of `flushConnWindowStalledStreams`. -/
def flushStalled : List Nat → Manager → Manager
  | [], m => m
  | id :: rest, m =>
    if m.connectionWindow ≤ 0 then m
    else if (m.stream id).state = .closed then flushStalled rest m
    else flushStalled rest (flushStream m id)

def flushConnWindowStalledStreams (m : Manager) (order : List Nat) : Manager :=
  flushStalled ((m.range order).filter fun i => (m.stream i).state ≠ .closed) m

/-- `handleWindowUpdate` for the connection. -/
def updateConnWindow (p : Processor) (env : Env) (increment : Nat) : Result :=
  let old := p.manager.connectionWindow
  let new := old + increment
  if new > maxWindow then
    p.goAwayErr .flowControlError "connection window overflow"
      (.text s!"connection window overflow: {old} + {increment} > 2^31-1")
  else
    (p.manage fun m =>
      flushConnWindowStalledStreams { m with connectionWindow := int32 new } (env.order 0), none)

/-- `handleWindowUpdate` for a stream. -/
def updateStreamWindow (p : Processor) (id increment : Nat) : Result :=
  let s := p.manager.stream id
  let old := s.windowSize
  if id ∉ p.manager.ids then
    if id ≤ p.manager.lastClientStream then (p, none)
    else p.goAwayErr .protocolError "WINDOW_UPDATE on idle stream"
      (.text s!"WINDOW_UPDATE on idle stream {id}")
  else if s.state = .closed then (p, none)
  else if old + increment > maxWindow then
    (p.sendRSTStreamAndMarkClosed id .flowControlError,
      some (.text s!"stream {id} window overflow: {old} + {increment} > 2^31-1"))
  else
    (p.manage fun m =>
      flushStream (m.modify id fun s =>
        { s with
          windowSize := int32 (s.windowSize + increment), credited := s.credited + increment }) id,
      none)

def handleWindowUpdate (p : Processor) (env : Env) (id increment : Nat) : Result :=
  if increment = 0 then
    if id = 0 then p.goAwayErr .protocolError "WINDOW_UPDATE increment is 0"
      (.text "WINDOW_UPDATE with 0 increment")
    else (p.sendRSTStreamAndMarkClosed id .protocolError,
      some (.text s!"WINDOW_UPDATE with 0 increment on stream {id}"))
  else if id = 0 then p.updateConnWindow env increment
  else p.updateStreamWindow id increment

/-! ## SETTINGS -/

/-- What `handleSettings` has done so far: the processor, the streams whose response has
gone out whole, and why the frame is refused. -/
structure SettingsPass where
  processor : Processor
  finished : List Nat := []
  err : Option String := none

/-- The range over the streams of a new `SETTINGS_INITIAL_WINDOW_SIZE`; the stream whose
window would overflow, if there is one. -/
def adjustWindows (delta : Int) : List Nat → Manager × List Nat → (Manager × List Nat) × Option Nat
  | [], acc => (acc, none)
  | id :: rest, (m, finished) =>
    let old := (m.stream id).windowSize
    if delta > 0 ∧ old > maxWindow - delta then ((m, finished), some id)
    else
      let new := int32 (old + delta)
      let t := m.modify id fun s => { s with windowSize := new, base := s.base + delta }
      if new > 0 then
        let (done, t) := t.flushOutbound id
        adjustWindows delta rest (t, if done then finished ++ [id] else finished)
      else adjustWindows delta rest (t, finished)

/-- A `SETTINGS` entry is refused with `FLOW_CONTROL_ERROR`. -/
def refuseWindow (x : SettingsPass) (p : Processor) (finished : List Nat) (text : String) :
    SettingsPass :=
  { x with
    processor := p.sendGoAway p.manager.maxStreamID .flowControlError text
    finished := finished
    err := some text }

/-- The `SETTINGS_INITIAL_WINDOW_SIZE` of `handleSettings`. -/
def applyInitialWindowSize (x : SettingsPass) (val : Nat) (order : List Nat) : SettingsPass :=
  let p := x.processor
  if (val : Int) > maxWindow then
    refuseWindow x p x.finished s!"SETTINGS_INITIAL_WINDOW_SIZE too large: {val}"
  else
    let delta := int32 (val - p.manager.initialWindowSize)
    let m := { p.manager with initialWindowSize := val }
    let ((m, finished), overflow) := adjustWindows delta (m.range order) (m, x.finished)
    match overflow with
    | some id => refuseWindow x { p with manager := m } finished s!"stream {id} window overflow"
    | none => { x with processor := { p with manager := m }, finished := finished }

/-- One entry of `handleSettings`. -/
def applySetting (x : SettingsPass) (order : List Nat) : Setting → SettingsPass
  | .headerTableSize _ | .maxConcurrentStreams _ | .maxHeaderListSize _ | .other _ _ => x
  | .enablePush val =>
    if val ≠ 0 ∧ val ≠ 1 then
      { x with err := some s!"SETTINGS_ENABLE_PUSH must be 0 or 1, got {val}" }
    else x
  | .initialWindowSize val => applyInitialWindowSize x val order
  | .maxFrameSize val =>
    if val < 16384 then { x with err := some s!"SETTINGS_MAX_FRAME_SIZE too small: {val}" }
    else if val > 16777215 then { x with err := some s!"SETTINGS_MAX_FRAME_SIZE too large: {val}" }
    else { x with processor := x.processor.manage fun m => { m with maxFrameSize := val } }

/-- `ForeachSetting`: the entries in order, up to one that is refused. -/
def applySettings (order : Nat → List Nat) : (k : Nat) → SettingsPass → List Setting → SettingsPass
  | _, x, [] => x
  | k, x, entry :: entries =>
    let y := applySetting x (order k) entry
    if y.err.isSome then y else applySettings order (k + 1) y entries

/-- The end of `handleSettings`: the streams that are done leave. -/
def finishFlushes (finished : List Nat) (m : Manager) : Manager :=
  finished.foldl (fun m id => if id ∈ m.ids then finishFlushed m id (m.stream id).state else m) m

def handleSettings (p : Processor) (env : Env) (ack : Bool) (entries : List Setting) : Result :=
  if ack then (p, none)
  else
    let x := applySettings env.order 0 { processor := p } entries
    match x.err with
    | some text => x.processor.goAwayErr .protocolError text (.text text)
    | none => (x.processor.manage fun m => finishFlushes x.finished (m.write [.settingsAck]), none)

/-! ## The other frames -/

def rstBurstMax : Nat := 200

def handleRSTStream (p : Processor) (env : Env) (id : Nat) : Result :=
  let count := if env.now ≠ p.rstWindowSec then 1 else p.rstCount + 1
  let p := { p with rstWindowSec := env.now, rstCount := count }
  if count > rstBurstMax then
    p.goAwayErr .enhanceYourCalm "RST_STREAM flood"
      (.text "RST_STREAM rate exceeded 100/s (burst 200)")
  else match p.manager.resetStream id with
    | some m => ({ p with manager := m }, none)
    | none =>
      if id ≤ p.manager.lastClientStream then ((p.forgetExpired id).clearResetOpen id, none)
      else p.goAwayErr .protocolError "RST_STREAM on idle stream"
        (.text s!"RST_STREAM on idle stream {id}")

def handlePriority (p : Processor) (id : Nat) (priority : Priority) : Result :=
  let last := p.manager.lastClientStream
  if priority.streamDependency = id then
    p.goAwayErr .protocolError "stream depends on itself" (.text s!"stream {id} depends on itself")
  else if id > last + 2048 then
    p.goAwayErr .protocolError "PRIORITY stream ID too far ahead"
      (.text s!"PRIORITY stream {id} > last client {last} + window")
  else if id ∉ p.manager.ids ∧ (id ≤ last ∨ id % 2 = 0) then (p, none)
  else
    (p.manage fun m =>
      let t := m.createPlaceholder id
      if id ∈ t.ids then t.updatePriority id priority else t, none)

/-- A stream the peer will not answer leaves. -/
def goAwayStream (m : Manager) (id : Nat) : Manager :=
  let t := ((((m.dropPlaceholder id).setState id .closed).disarmRequest id).cancel id).erase id
  if (m.stream id).asyncRunning then t else t.release id

def handleGoAway (p : Processor) (env : Env) (lastStreamID : Nat) : Result :=
  (p.manage fun m =>
    ((m.range (env.order 0)).filter fun id => decide (id > lastStreamID)).foldl goAwayStream m,
      none)

def handlePing (p : Processor) (id : Nat) (ack : Bool) (data : Bytes) : Result :=
  if id ≠ 0 then
    p.goAwayErr .protocolError "PING on non-zero stream"
      (.text s!"PING frame with non-zero stream id: {id}")
  else if ack then (p, none)
  else (p.manage (·.write [.pingAck data]), none)

/-! ## Dispatch -/

/-- Whether a frame is the `CONTINUATION` of a stream. -/
def continues (id : Nat) : Frame → Bool
  | .continuation streamID _ _ => streamID = id
  | _ => false

/-- The frame comes in the middle of a header block it does not belong to. -/
def interrupts (p : Processor) (f : Frame) (expected : Nat) : Result :=
  let id := f.streamID
  let name := f.typeName
  if id = expected then
    p.goAwayErr .protocolError "non-CONTINUATION on stream expecting CONTINUATION"
      (.text s!"received non-CONTINUATION frame on stream {id} while expecting CONTINUATION")
  else
    p.goAwayErr .protocolError "frame on another stream during header block"
      (.text s!"frame type {name} on stream {id} while header block is open on {expected}")

/-- The handler of a frame. -/
def handleFrame (p : Processor) (env : Env) : Frame → Result
  | .settings ack entries => p.handleSettings env ack entries
  | .headers f =>
    let length := f.length
    let most := p.manager.localMaxFrameSize
    if length > most then
      p.goAwayErr .frameSizeError "HEADERS frame too large"
        (.text s!"HEADERS frame exceeds MAX_FRAME_SIZE: {length} > {most}")
    else p.handleHeaders env f
  | .data f =>
    let id := f.streamID
    let length := f.length
    let most := p.manager.localMaxFrameSize
    if length > most then
      let err := Err.text s!"DATA frame exceeds MAX_FRAME_SIZE: {length} > {most}"
      if id = 0 then p.goAwayErr .frameSizeError "DATA frame too large" err
      else (p.manage (·.write [.rstStream id .frameSizeError]), some err)
    else p.handleData env f
  | .windowUpdate id increment => p.handleWindowUpdate env id increment
  | .rstStream id => p.handleRSTStream env id
  | .priority id priority => p.handlePriority id priority
  | .goAway lastStreamID => p.handleGoAway env lastStreamID
  | .ping id ack data => p.handlePing id ack data
  | .continuation id endHeaders fragment => p.handleContinuation env id endHeaders fragment
  | .pushPromise _ =>
    p.goAwayErr .protocolError "client sent PUSH_PROMISE" (.text "client sent PUSH_PROMISE frame")
  | .unknown _ => (p, none)

def processFrame (p : Processor) (env : Env) (f : Frame) : Result :=
  match p.continuationState with
  | some cs => if continues cs.streamID f then p.handleFrame env f else p.interrupts f cs.streamID
  | none => p.handleFrame env f

/-! ## What the event loop does beside frames -/

def flushInlineCleanup (p : Processor) : Processor :=
  { p.manage fun m => p.pendingInlineCleanup.foldl (fun m id =>
      if id ∈ m.ids then
        ((m.setState id (m.stream id).state.ended).removeStreamFromMap id).release id
      else m) m with
    pendingInlineCleanup := [] }

def maxRequestTombstones : Nat := 1024

def dropOldestTombstone (l : List (Nat × Int)) : List (Nat × Int) :=
  let oldest := l.foldl (fun at' e => if at'.2 = 0 ∨ e.2 < at'.2 then e else at') (0, 0)
  l.filter fun e => e.1 ≠ oldest.1

/-- `ExpireRequest`: the peer has not sent its request in time; `deadline` is when the stream
is forgotten. -/
def expireRequest (p : Processor) (id : Nat) (deadline : Int) : Processor :=
  let expired := if p.expiredReq.length ≥ maxRequestTombstones then dropOldestTombstone p.expiredReq
    else p.expiredReq
  { (p.markResetOpen id false).manage fun m =>
      ((((m.cancel id).writeResponseInline id 408 []).write [.rstStream id .noError]).deleteStream
        id) with
    expiredReq := (id, deadline) :: expired.filter fun e => e.1 ≠ id
    resetIDs := p.resetIDs.mark id }

def dropTombstones (p : Processor) (now : Int) : Processor :=
  { p with expiredReq := p.expiredReq.filter fun e => decide (e.2 > now) }

def expireHeaderBlock (p : Processor) : Processor :=
  p.sendGoAway p.manager.maxStreamID .enhanceYourCalm "header block not completed in time"

def expireWrite (p : Processor) (id : Nat) : Processor :=
  let s := p.manager.stream id
  { p.manage (·.expireWrite id) with
    resetIDs := if id ∈ p.manager.ids ∧ s.outboundBuffer ≠ [] ∧ s.cancelled = false then
      p.resetIDs.mark id else p.resetIDs }

end Processor

end Celeris.H2
