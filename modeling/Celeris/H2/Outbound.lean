import Celeris.H2.Manager

/-!
# What a response sends (`internal/protocol/h2/stream/outbound.go`, `internal/conn/response.go`)

The bytes of a response go out at once, as far as both windows allow, or wait in the
buffer of the stream until the event loop flushes it, or, for a handler on the pool
that the budget does not let buffer, wait with the handler. Each definition here is
what the source does under the lock of the stream, or a step of it that no other step
can come into.

`ReserveSendWindow` is taken as one step: `H2.Reserve` is about its atomic operations.
-/

namespace Celeris.H2

namespace Manager

/-! ## Windows -/

/-- `clampWindowRequest`, and the bound of `h2ReserveSend`. -/
def clampWindowRequest (n : Nat) : Int := min (n : Int) maxWindow

/-- `ReserveSendWindow`: what both windows grant of `want`, and the windows after it. -/
def reserveSendWindow (m : Manager) (i : Nat) (want : Int) : Int × Manager :=
  let sw := (m.stream i).windowSize
  let cw := m.connectionWindow
  if want ≤ 0 ∨ sw ≤ 0 then (0, m)
  else
    let streamGrant := if want > sw then sw else want
    let connGrant := if cw ≤ 0 then 0 else if streamGrant > cw then cw else streamGrant
    let debited := int32 (sw - streamGrant)
    let left := if connGrant < streamGrant then int32 (debited + (streamGrant - connGrant))
      else debited
    (connGrant, { m.modify i fun s => { s with windowSize := left } with
        connectionWindow := if cw ≤ 0 then cw else int32 (cw - connGrant) })

def windowsOpen (m : Manager) (i : Nat) : Bool :=
  (m.stream i).windowSize > 0 && m.connectionWindow > 0

def countSent (m : Manager) (i n : Nat) : Manager :=
  m.modify i fun s => { s with dataSent := s.dataSent + n }

/-- `sendData`: queue the `DATA` frames of some bytes. -/
def sendData (m : Manager) (i : Nat) (endStream : Bool) (data : Bytes) : Manager :=
  (m.enqueue (dataFrames m.maxFrameSize i endStream data)).countSent i data.length

/-! ## Buffers -/

def outboundBudget : Int := 4 * 2 ^ 20

def overOutboundBudget (m : Manager) : Bool := m.outboundHeld ≥ outboundBudget

def bufferOutbound (m : Manager) (i : Nat) (data : Bytes) (endStream : Bool) : Manager :=
  { m.modify i fun s =>
      { s with outboundBuffer := s.outboundBuffer ++ data, outboundEndStream := endStream } with
    outboundHeld := m.outboundHeld + data.length }

/-- `TryBufferOutbound`; nothing when a handler on the pool has to send the bytes itself. -/
def tryBufferOutbound (m : Manager) (i : Nat) (data : Bytes) (endStream : Bool) : Option Manager :=
  if (m.stream i).asyncRunning = false then some (m.bufferOutbound i data endStream)
  else if (m.stream i).budgetPool then none
  else if m.outboundHeld > 0 ∧ m.outboundHeld + data.length > outboundBudget then none
  else some (m.bufferOutbound i data endStream)

/-- `FlushOutbound`, and whether the response has gone out whole. -/
def flushOutbound (m : Manager) (i : Nat) : Bool × Manager :=
  let buf := (m.stream i).outboundBuffer
  if buf = [] then (false, m)
  else
    let (granted, t) := m.reserveSendWindow i (clampWindowRequest buf.length)
    if granted ≤ 0 then (false, t)
    else
      let n := granted.toNat
      let last := n = buf.length
      let s := m.stream i
      let sent := t.sendData i (last && s.outboundEndStream) (buf.take n)
      (last && (s.outboundEndStream || s.outboundAbandoned),
        { sent.modify i fun s => { s with outboundBuffer := buf.drop n } with
          outboundHeld := sent.outboundHeld - n })

def noteWritten (m : Manager) (i n : Nat) : Manager :=
  m.modify i fun s => { s with respWritten := s.respWritten + n }

/-- Send what both windows grant of some bytes, and how many that is. -/
def sendGranted (m : Manager) (i : Nat) (data : Bytes) : Nat × Manager :=
  let (granted, t) := m.reserveSendWindow i (clampWindowRequest data.length)
  let n := granted.toNat
  (n, if n > 0 then (t.sendData i false (data.take n)).noteWritten i n else t)

/-- The end of `sendOrBufferLocked`: what is not sent waits in the buffer. -/
def bufferRest (m : Manager) (i : Nat) (rest : Bytes) : Manager :=
  ({ m.modify i fun s => { s with outboundBuffer := s.outboundBuffer ++ rest } with
      outboundHeld := m.outboundHeld + rest.length }).noteWritten i rest.length

/-- `sendOrBufferLocked`. -/
def sendOrBuffer (m : Manager) (i : Nat) (data : Bytes) : Manager :=
  let (n, t) := if (m.stream i).outboundBuffer = [] then m.sendGranted i data else (0, m)
  if n < data.length then t.bufferRest i (data.drop n) else t

/-- `StreamWrite`, with what is left for a handler on the pool to write; nothing when the
call is refused. -/
def streamWrite (m : Manager) (i : Nat) (data : Bytes) : Option (Manager × Bytes) :=
  let s := m.stream i
  if s.cancelled then none
  else if s.isHEAD ∨ data = [] then some (m, [])
  else if s.runsOnPool = false then some (m.sendOrBuffer i data, [])
  else
    let (n, t) := m.sendGranted i data
    some (t, data.drop n)

/-- `EndOutbound`; nothing when the call is refused. -/
def endOutbound (m : Manager) (i : Nat) : Option Manager :=
  let s := m.stream i
  if s.cancelled then none
  else
    let t := m.modify i fun s => { s with respEnded := true }
    if s.outboundBuffer ≠ [] then some (t.modify i fun s => { s with outboundEndStream := true })
    else some (t.sendData i true [])

def discardOutbound (m : Manager) (i : Nat) : Manager :=
  { m.modify i fun s =>
      { s with outboundBuffer := [], outboundEndStream := false, outboundAbandoned := false } with
    outboundHeld := m.outboundHeld - (m.stream i).outboundBuffer.length }

/-- `AbandonOutbound`, and whether the stream still buffers something. -/
def abandonOutbound (m : Manager) (i : Nat) : Bool × Manager :=
  let s := m.stream i
  if s.outboundBuffer = [] then (false, m)
  else (true, m.modify i fun s => { s with
    outboundAbandoned := s.outboundAbandoned || !s.outboundEndStream })

/-! ## Responses -/

/-- The body a response has; a `HEAD` has none. -/
def responseBody (m : Manager) (i : Nat) (body : Bytes) : Bytes :=
  if (m.stream i).isHEAD then [] else body

def setHeadersSent (m : Manager) (i : Nat) : Manager :=
  m.modify i fun s => { s with headersSent := true }

/-- The `DATA` frames that go out with the head: the first `n` bytes of the body. -/
def firstFrames (m : Manager) (i n : Nat) (body : Bytes) : List Output :=
  if n > 0 then dataFrames m.maxFrameSize i (n = body.length) (body.take n) else []

/-- `h2InlineResponseAdapter.WriteResponse`: straight to the connection, what the windows do
not allow into the buffer. -/
def writeResponseInline (m : Manager) (i status : Nat) (body : Bytes) : Manager :=
  let body := m.responseBody i body
  let head := m.write [.headers i status (body = [])]
  if body = [] then head.setHeadersSent i
  else
    let (granted, t) := head.reserveSendWindow i (clampWindowRequest body.length)
    let n := granted.toNat
    let sent := (t.write (m.firstFrames i n body)).countSent i n
    if n = body.length then sent.setHeadersSent i
    else (sent.bufferOutbound i (body.drop n) true).setHeadersSent i

/-- `h2ResponseAdapter.WriteResponse` up to the end of `Enqueue` and `SetHeadersSent`, with
the part of the body that is left for `finishBody`. -/
def writeResponse (m : Manager) (i status : Nat) (body : Bytes) : Manager × Bytes :=
  let body := m.responseBody i body
  let (granted, t) := m.reserveSendWindow i (clampWindowRequest body.length)
  let n := granted.toNat
  let sent := (t.enqueue (.headers i status (body = []) :: m.firstFrames i n body)).countSent i n
  (sent.setHeadersSent i, body.drop n)

/-- The round of `sendRest` after its wait, with what is left. -/
def sendRest (m : Manager) (i : Nat) (rest : Bytes) : Manager × Bytes :=
  let (granted, t) := m.reserveSendWindow i (clampWindowRequest rest.length)
  let n := granted.toNat
  if n > 0 then (t.sendData i (n = rest.length) (rest.take n), rest.drop n) else (t, rest)

/-- `WriteHeaderUse`; refused on a stream that was reset. `declared` is the length the
head declares. -/
def writeHeader (m : Manager) (i status : Nat) (declared : Int) : Manager :=
  if (m.stream i).cancelled then m
  else
    ((m.enqueue [.headers i status false]).modify i fun s =>
      { s with respDeclared := declared, streamed := true }).setHeadersSent i

def failResponse (m : Manager) (i : Nat) : Manager :=
  m.modify i fun s => { s with respFailed := true }

/-! ## Resets -/

/-- `ResetStream`: behind the frames the stream has queued. -/
def queueReset (m : Manager) (i : Nat) (code : ErrCode) : Manager :=
  (m.enqueue [.rstStream i code]).cancel i

/-- `resetStreamOnce`: only by the call that cancels the stream. -/
def resetStreamOnce (m : Manager) (i : Nat) (code : ErrCode) : Manager :=
  if (m.stream i).cancelled then m else m.queueReset i code

/-- `expireWrite`: a stream that has not taken its buffered bytes in time is reset. -/
def expireWrite (m : Manager) (i : Nat) : Manager :=
  if i ∉ m.ids ∨ (m.stream i).outboundBuffer = [] then m
  else
    let t := m.discardOutbound i
    ((if (m.stream i).cancelled then t else t.queueReset i .internalError).cancel i).take i

end Manager

end Celeris.H2
