import Celeris.H1.Chunked

/-!
# HTTP/1 connections (`internal/conn/h1.go`)

`processH1` takes the bytes of one read and the state of a connection, serves the
requests that are complete and keeps the rest. A connection in the model also
carries the log of what happened on it, and how it ended if it did.

The handler is a function of the requests before, since it runs on the worker and
neither detaches nor hijacks the connection; so no route is handed to the async
path. Buffers are their contents: capacities, aliasing and the reuse of arrays
are left out.
-/

namespace Celeris.Conn

open H1

/-- A request as the handler sees it. -/
structure Served where
  method : Bytes
  target : Bytes
  headers : List (Bytes × Bytes)
  body : Bytes
deriving DecidableEq, Repr

/-- What happens on a connection: a request is served, or a client that waits for
it is told to go on. -/
inductive Event where
  | served (request : Served)
  | continue100
deriving DecidableEq, Repr

/-- How a handler leaves the connection. -/
inductive Outcome where
  | keep
  | close
  | fail
deriving DecidableEq, Repr

/-- How a connection ends: refused with an answer, refused by
`OnExpectContinue`, closed after a response, failed in the handler, or handed
over to HTTP/2. -/
inductive End where
  | refused (code : Nat) (text : String)
  | expectationFailed
  | closed
  | failed
  | upgraded
deriving DecidableEq, Repr

/-- What is fixed for a connection. A `maxRequestBodySize` of `0` is no limit, a
`readHeaderTimeoutNs` of `0` no deadline, and `onExpectContinue` may be nil. -/
structure Config where
  options : Options := { zeroCopy := true }
  maxRequestBodySize : Nat := 0
  enableH2Upgrade : Bool := false
  decodesSettings : Bytes → Bool := fun _ => false
  onExpectContinue : Option (Bytes → Bytes → List (Bytes × Bytes) → Bool) := none
  readHeaderTimeoutNs : Nat := 0
  handler : List Event → Served → Outcome := fun _ _ => .keep

/-- `H1State`: the fields that `ProcessH1` reads and writes. -/
structure H1State where
  buffer : Bytes := []
  bodyBuf : Bytes := []
  bodyNeeded : Nat := 0
  chunkedInProgress : Bool := false
  chunkHeadLen : Nat := 0
  chunkBuf : Bytes := []
  chunkExcess : Nat := 0
  headerDeadlineNs : Nat := 0
deriving DecidableEq, Repr

/-- A connection: its state, what happened on it, and how it ended. -/
structure Connection where
  state : H1State := {}
  log : List Event := []
  ended : Option End := none
deriving DecidableEq, Repr

namespace Connection

/-- Answer with an error and close. -/
def refuse (c : Connection) (code : Nat) (text : String) : Connection :=
  { c with ended := some (.refused code text) }

def clearHeaderDeadline (c : Connection) : Connection :=
  { c with state := { c.state with headerDeadlineNs := 0 } }

def armHeaderDeadline (cfg : Config) (now : Nat) (c : Connection) : Connection :=
  if cfg.readHeaderTimeoutNs = 0 ∨ c.state.headerDeadlineNs ≠ 0 then c
  else { c with state := { c.state with headerDeadlineNs := now + cfg.readHeaderTimeoutNs } }

def withBuffer (c : Connection) (buffer : Bytes) : Connection :=
  { c with state := { c.state with buffer := buffer } }

/-- Keep the head of a request and the part of its body that has arrived. -/
def stashBody (c : Connection) (head body : Bytes) (need : Nat) : Connection :=
  { c with
    state := { c.state with
      bodyBuf := body
      buffer := head
      bodyNeeded := need } }

variable {c : Connection}

@[simp] theorem withBuffer_buffer {buffer : Bytes} : (c.withBuffer buffer).state.buffer = buffer :=
  rfl

end Connection

/-! ## Requests -/

/-- The body a request announces: `bodyNeeded` of the two loops. -/
inductive BodyKind where
  | absent
  | fixed (length : Nat)
  | chunked
deriving DecidableEq, Repr

def bodyKind (req : Request) : BodyKind :=
  if req.chunkedEncoding then .chunked
  else
    match req.contentLength with
    | some (n + 1) => .fixed (n + 1)
    | _ => .absent

/-- Whether a body of a length is over the limit. -/
def Config.overLimit (cfg : Config) (length : Nat) : Bool :=
  0 < cfg.maxRequestBodySize && cfg.maxRequestBodySize < length

/-- The answer to `Expect: 100-continue`: go on, or refuse. -/
def expectContinue (cfg : Config) (req : Request) (c : Connection) : Connection :=
  if !req.expectContinue then c
  else if cfg.onExpectContinue.any fun ask => !ask req.method req.path req.rawHeaders then
    { c with ended := some .expectationFailed }
  else { c with log := c.log ++ [.continue100] }

/-- `tryUpgradeH2C`: whether the request hands the connection over to HTTP/2. -/
def upgrades (cfg : Config) (req : Request) : Bool :=
  cfg.enableH2Upgrade && req.upgradeH2C && cfg.decodesSettings req.http2Settings

/-- `tryUpgradeH2C` and `handleH1Request` for a complete request. -/
def serve (cfg : Config) (req : Request) (body : Bytes) (c : Connection) : Connection :=
  if upgrades cfg req then { c with ended := some .upgraded }
  else
    let request : Served := ⟨req.method, req.path, req.rawHeaders, body⟩
    let served := { c with log := c.log ++ [.served request] }
    match cfg.handler c.log request with
    | .fail => { served with ended := some .failed }
    | .close => { served with ended := some .closed }
    | .keep => if req.keepAlive then served else { served with ended := some .closed }

/-- An answer leaves the buffers. -/
theorem expectContinue_state {cfg : Config} {req : Request} {c : Connection} :
    (expectContinue cfg req c).state = c.state := by
  unfold expectContinue
  split_ifs <;> rfl

theorem serve_state (cfg : Config) (req : Request) (body : Bytes) (c : Connection) :
    (serve cfg req body c).state = c.state := by
  unfold serve
  by_cases hup : upgrades cfg req = true
  · rw [if_pos hup]
  · simp only [if_neg hup]
    cases cfg.handler c.log ⟨req.method, req.path, req.rawHeaders, body⟩ with
    | fail | close => rfl
    | keep => cases req.keepAlive <;> rfl

/-! ## Chunked bodies -/

def maxChunkExcess : Nat := 16384

/-- What `scanChunked` comes to: a refusal, the decoded bytes and framing excess
so far with what is not decoded yet, or the whole body with what follows it. -/
inductive Scan where
  | refused (code : Nat) (text : String)
  | more (decoded : Bytes) (excess : Nat) (rest : Bytes)
  | done (decoded : Bytes) (rest : Bytes)
deriving DecidableEq, Repr

/-- `checkPartialChunk`: whether what an incomplete chunk starts with is
refused. -/
def checkPartialChunk (cfg : Config) (decoded rest : Bytes) : Option (Nat × String) :=
  match peekChunk rest with
  | .error _ => some (400, "Invalid chunked encoding")
  | .ok none => none
  | .ok (some (0, hdr)) =>
    if rest.length - hdr > maxHeaderSize + 4 then some (400, "Invalid chunked encoding") else none
  | .ok (some (size, _)) =>
    if 0 < cfg.maxRequestBodySize && cfg.maxRequestBodySize - decoded.length < size then
      some (413, "Request body too large")
    else none

/-- The framing excess after a chunk of `length` bytes that took `consumed`. -/
def nextExcess (excess consumed length : Nat) : Nat :=
  excess + (consumed - length - 2) - (16 + 2 * length)

/-- The loop of `scanChunked`. `decoded` is `chunkBuf` with the chunk that the
source still holds where it is. -/
def scanChunked (cfg : Config) : Nat → Bytes → Nat → Bytes → Scan
  | 0, decoded, excess, rest => .more decoded excess rest
  | fuel + 1, decoded, excess, rest =>
    match parseChunkedBody rest with
    | .error _ => .refused 400 "Invalid chunked encoding"
    | .ok .needMore =>
      match checkPartialChunk cfg decoded rest with
      | some (code, text) => .refused code text
      | none => .more decoded excess rest
    | .ok (.last n) => .done decoded (rest.drop n)
    | .ok (.data chunk n) =>
      if 0 < cfg.maxRequestBodySize && cfg.maxRequestBodySize - decoded.length < chunk.length then
        .refused 413 "Request body too large"
      else
        let excess := nextExcess excess n chunk.length
        if excess > maxChunkExcess then .refused 400 "Invalid chunked encoding"
        else scanChunked cfg fuel (decoded ++ chunk) excess (rest.drop n)

/-- Decode the chunks behind the head, with fuel for each byte. -/
def scan (cfg : Config) (decoded : Bytes) (excess : Nat) (rest : Bytes) : Scan :=
  scanChunked cfg (rest.length + 1) decoded excess rest

/-! ## The two loops -/

/-- The loop over fresh data. The flag is whether it goes on to the buffered
path. -/
def freshLoop (cfg : Config) : Nat → Bytes → Connection → Connection × Bool
  | 0, _, c => (c, true)
  | fuel + 1, data, c =>
    if data.isEmpty then (c, true)
    else
      match parseRequest cfg.options data with
      | .error _ => (c.refuse 400 "Bad Request", false)
      | .needMore => (c.withBuffer (c.state.buffer ++ data), false)
      | .done consumed req =>
        let c := c.clearHeaderDeadline
        match bodyKind req with
        | .fixed n =>
          if cfg.overLimit n then (c.refuse 413 "Request body too large", false)
          else
            let c := expectContinue cfg req c
            if c.ended.isSome then (c, false)
            else
              let rest := data.drop consumed
              if n ≤ rest.length then
                let c := serve cfg req (rest.take n) c
                if c.ended.isSome then (c, false) else freshLoop cfg fuel (rest.drop n) c
              else (c.stashBody (data.take consumed) rest n, false)
        | .chunked => (c.withBuffer (c.state.buffer ++ data), true)
        | .absent =>
          let c := serve cfg req [] c
          if c.ended.isSome then (c, false) else freshLoop cfg fuel (data.drop consumed) c

def bufferedLoop (cfg : Config) : Nat → Connection → Connection
  | 0, c => c
  | fuel + 1, c =>
    if c.state.buffer.isEmpty then c
    else
      match parseRequest cfg.options c.state.buffer with
      | .error _ => c.refuse 400 "Bad Request"
      | .needMore => c
      | .done consumed req =>
        let head := c.state.buffer.take consumed
        let rest := c.state.buffer.drop consumed
        let c := c.clearHeaderDeadline
        match bodyKind req with
        | .fixed n =>
          if cfg.overLimit n then c.refuse 413 "Request body too large"
          else
            let c := expectContinue cfg req c
            if c.ended.isSome then c
            else if n ≤ rest.length then
              let c := serve cfg req (rest.take n) (c.withBuffer (rest.drop n))
              if c.ended.isSome then c else bufferedLoop cfg fuel c
            else c.stashBody head rest n
        | .chunked =>
          let c := expectContinue cfg req c
          if c.ended.isSome then c
          else
            match scan cfg c.state.chunkBuf 0 rest with
            | .refused code text => c.refuse code text
            | .more decoded excess rest =>
              { c with
                state := { c.state with
                  buffer := head ++ rest
                  chunkedInProgress := true
                  chunkHeadLen := consumed
                  chunkBuf := decoded
                  chunkExcess := excess } }
            | .done decoded rest =>
              let c := serve cfg req decoded
                { c with
                  state := { c.state with
                    buffer := rest
                    chunkHeadLen := consumed
                    chunkBuf := []
                    chunkExcess := 0 } }
              if c.ended.isSome then c else bufferedLoop cfg fuel c
        | .absent =>
          let c := serve cfg req [] (c.withBuffer rest)
          if c.ended.isSome then c else bufferedLoop cfg fuel c

/-! ## One read -/

/-- The part of `ProcessH1` that continues a fixed-length body. It returns the
bytes behind the body, or nothing if `ProcessH1` returns. The buffer holds the
head, which was parsed before. -/
def continueBody (cfg : Config) (data : Bytes) (c : Connection) : Connection × Option Bytes :=
  let need := c.state.bodyNeeded - c.state.bodyBuf.length
  if data.length < need then
    ({ c with state := { c.state with bodyBuf := c.state.bodyBuf ++ data } }, none)
  else
    let body := c.state.bodyBuf ++ data.take need
    let rest := data.drop need
    match parseRequest cfg.options c.state.buffer with
    | .done _ req =>
      let c := serve cfg req body (c.clearHeaderDeadline.withBuffer [])
      if c.ended.isSome then (c, none)
      else
        let c := { c with
          state := { c.state with
            bodyBuf := []
            bodyNeeded := 0 } }
        (c, if rest.isEmpty then none else some rest)
    | _ => (c.refuse 400 "Bad Request", none)

/-- The part of `ProcessH1` that continues a chunked body. The loops
take what is behind the body from the buffer. -/
def continueChunked (cfg : Config) (now : Nat) (data : Bytes) (c : Connection) :
    Connection × Option Bytes :=
  let head := c.state.buffer.take c.state.chunkHeadLen
  match scan cfg c.state.chunkBuf c.state.chunkExcess
      (c.state.buffer.drop c.state.chunkHeadLen ++ data) with
  | .refused code text => (c.refuse code text, none)
  | .more decoded excess rest =>
    ({ c with
      state := { c.state with
        buffer := head ++ rest
        chunkBuf := decoded
        chunkExcess := excess } }, none)
  | .done decoded rest =>
    match parseRequest cfg.options head with
    | .done n req =>
      if n ≠ head.length then (c.refuse 400 "Bad Request", none)
      else
        let c := serve cfg req decoded
          { c with
            state := { c.state with
              buffer := rest
              chunkedInProgress := false
              chunkBuf := []
              chunkExcess := 0 } }
        if c.ended.isSome then (c, none)
        else (if rest.isEmpty then c else c.armHeaderDeadline cfg now, some [])
    | _ => (c.refuse 400 "Bad Request", none)

/-- What follows the loop over fresh data. -/
def finishLoop (cfg : Config) (r : Connection × Bool) : Connection :=
  if r.2 then bufferedLoop cfg (r.1.state.buffer.length + 1) r.1 else r.1

/-- The loops of `ProcessH1`. -/
def runLoops (cfg : Config) (data : Bytes) (c : Connection) : Connection :=
  if c.state.buffer.isEmpty then finishLoop cfg (freshLoop cfg (data.length + 1) data c)
  else
    let c := c.withBuffer (c.state.buffer ++ data)
    bufferedLoop cfg (c.state.buffer.length + 1) c

/-- The loops behind a body, unless `ProcessH1` returned. -/
def resume (cfg : Config) (r : Connection × Option Bytes) : Connection :=
  match r.2 with
  | none => r.1
  | some data => runLoops cfg data r.1

/-- The entry of `ProcessH1`: bytes of a head start its deadline. -/
def enter (cfg : Config) (now : Nat) (c : Connection) : Connection :=
  if c.state.headerDeadlineNs = 0 ∧ c.state.bodyNeeded = 0 ∧ c.state.chunkedInProgress = false then
    c.armHeaderDeadline cfg now
  else c

/-- `ProcessH1` for the bytes of one read, made at the time `now`. A connection
that has ended is not read from again. -/
def processH1 (cfg : Config) (now : Nat) (data : Bytes) (c : Connection) : Connection :=
  if c.ended.isSome then c
  else
    let c := enter cfg now c
    if 0 < c.state.bodyNeeded then resume cfg (continueBody cfg data c)
    else if c.state.chunkedInProgress then resume cfg (continueChunked cfg now data c)
    else runLoops cfg data c

end Celeris.Conn
