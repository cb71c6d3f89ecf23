import Celeris.H2.Processor
import Celeris.Data.Transition

/-!
# An HTTP/2 connection (`internal/conn/h2.go`)

The connection as a system that steps by events: a frame of the client, which
`ProcessH2` processes, writes out and follows with a drain of the queue; a frame that
the framer refuses; what the event loop does between frames; and the steps of the
handlers on the pool. An error ends the connection, and no frame follows it.
-/

namespace Celeris.H2

/-- What the server sets of a connection before it starts. -/
structure Config where
  /-- The `SETTINGS_MAX_CONCURRENT_STREAMS` it advertises. -/
  maxStreams : Nat := 100
  localMaxFrameSize : Nat := 16384
  reqTimeout : Bool := false
  maxRequestBodySize : Nat := 0
  headerListMax : Nat := 64 * 2 ^ 10
deriving DecidableEq, Repr

namespace Processor

/-- `NewProcessor`, with `NewManager` and `SetLocalMaxFrameSize`. -/
def newProcessor (cfg : Config) : Processor where
  manager :=
    { maxStreams := cfg.maxStreams
      localMaxFrameSize := max 16384 cfg.localMaxFrameSize
      reqTimeout := cfg.reqTimeout }
  maxRequestBodySize := cfg.maxRequestBodySize
  headerListMax := cfg.headerListMax

def flowLength : Frame → Nat
  | .data f => f.length
  | _ => 0

def setHasMoreFrames (p : Processor) (v : Bool) : Processor := { p with hasMoreFrames := v }

/-- What `ProcessH2` does with a frame. -/
def processH2 (p : Processor) (env : Env) (f : Frame) : Processor :=
  let (q, err) := (p.setHasMoreFrames env.hasMoreFrames).processFrame env f
  { q.manage fun m => m.flushOut.drainWriteQueue with
    ended := q.ended || err.isSome
    received := q.received + flowLength f }

/-- Why the framer refuses a frame. -/
inductive ReadError where
  | connection (code : ErrCode) (text : String)
  /-- `ErrFrameTooLarge`. -/
  | frameTooLarge (text : String)
  | other

/-- What `ProcessH2` does when the framer refuses a frame. -/
def refuseFrame (p : Processor) (err : ReadError) : Processor :=
  let q := match err with
    | .connection code text => (p.sendGoAway p.manager.maxStreamID code text).manage (·.flushOut)
    | .frameTooLarge text =>
      (p.sendGoAway p.manager.maxStreamID .frameSizeError text).manage (·.flushOut)
    | .other => p
  { q.manage (·.drainWriteQueue) with ended := true }

/-- The handlers on the pool when one of them has made a step. -/
def setStage (pool : List (Nat × PoolStage)) (k id : Nat) :
    Option PoolStage → List (Nat × PoolStage)
  | some stage => pool.set k (id, stage)
  | none => pool.eraseIdx k

/-- A step of a handler on the pool. -/
def stepPool (p : Processor) (k : Nat) (action : PoolAction) : Option Processor := do
  let (id, stage) ← p.pool[k]?
  let (m, next) ← p.manager.stepPool id stage action
  let started := if action = .start then p.serve id else p
  some { started with manager := m, pool := setStage p.pool k id next }

/-- What can happen. -/
inductive Event where
  /-- A frame of the client is processed. -/
  | frame (env : Env) (f : Frame)
  /-- A frame of the client is refused by the framer. -/
  | readError (err : ReadError)
  /-- The frames at hand are processed. -/
  | flushInlineCleanup
  /-- Credit is sent before it is due. -/
  | flushWindowUpdates (force : Bool)
  /-- The sweep finds a request that has not come in time. -/
  | expireRequest (id : Nat) (deadline : Int)
  /-- The sweep finds a response that is not taken. -/
  | expireWrite (id : Nat)
  | dropTombstones (now : Int)
  /-- The sweep finds a header block that has not come in time. -/
  | expireHeaderBlock
  /-- The server shuts down. -/
  | shutdown
  /-- The event loop was woken for the queue. -/
  | drain
  /-- A handler on the pool makes a step. -/
  | pool (k : Nat) (action : PoolAction)

def loopStep (p : Processor) : Event → Option Processor
  | .frame env f => some (p.processH2 env f)
  | .readError err => some (p.refuseFrame err)
  | .flushInlineCleanup => some p.flushInlineCleanup
  | .flushWindowUpdates force => some (p.manage fun m => (m.flushWindowUpdates force).flushOut)
  | .expireRequest id deadline =>
    if id ∈ p.manager.ids ∧ (p.manager.stream id).reqDeadline then
      some ((p.expireRequest id deadline).manage fun m => m.flushOut.drainWriteQueue)
    else none
  | .expireWrite id => some ((p.expireWrite id).manage fun m => m.flushOut.drainWriteQueue)
  | .dropTombstones now => some (p.dropTombstones now)
  | .expireHeaderBlock =>
    if p.continuationState.isSome then
      some { p.expireHeaderBlock.manage fun m => m.flushOut.drainWriteQueue with ended := true }
    else none
  | .shutdown => some ((p.sendGoAway p.manager.lastClientStream .noError "").manage (·.flushOut))
  | .drain => some (p.manage (·.drainWriteQueue))
  | .pool _ _ => none

/-- One event. The event loop ends with the connection, the handlers on the pool do not. -/
def step (p : Processor) : Event → Option Processor
  | .pool k action => p.stepPool k action
  | event => if p.ended then none else p.loopStep event

theorem step_cases {p q : Processor} {e : Event} (h : step p e = some q) :
    (∃ k action, e = .pool k action ∧ p.stepPool k action = some q) ∨ p.ended = false ∧
      p.loopStep e = some q := by
  cases e with
  | pool k action => exact .inl ⟨k, action, rfl, h⟩
  | _ =>
    unfold step at h
    split_ifs at h with he
    exact .inr ⟨Bool.eq_false_iff.mpr he, h⟩

end Processor

end Celeris.H2
