import Celeris.H2.Outbound

/-!
# Handlers (`internal/protocol/h2/stream/processor.go`, `internal/conn/response.go`)

A handler runs on the event loop (`executeHandlerInline`) or on the worker pool
(`executeHandler`). What it does is a list of calls on its writer and a way to end; on
the pool every call, and every part of what follows the return, is a step of its own,
between two of which the event loop may do anything.
-/

namespace Celeris.H2

/-! ## What a handler does -/

/-- A call of a handler on its writer. -/
inductive Call where
  | writeResponse (status : Nat) (body : Bytes)
  /-- `declared` is the length the head declares: -1 for none, -2 for one that is no length. -/
  | writeHeader (status : Nat) (declared : Int)
  | write (data : Bytes)
  | close
  | failResponse
deriving DecidableEq, Repr

/-- How a handler ends. -/
inductive Ending where
  | returned
  | error
  | panicked
  | goexit
deriving DecidableEq, Repr

/-- What a handler does from its start to its end. -/
structure HandlerRun where
  calls : List Call := []
  ending : Ending := .returned
deriving DecidableEq, Repr

namespace Manager

/-! ## Settling -/

/-- `settleStreamed`, up to the reset of a response that fell short; whether there is one. -/
def settleStreamed (m : Manager) (i : Nat) : Bool × Manager :=
  let s := m.stream i
  if s.cancelled then (false, m)
  else match s.responseOutcome with
    | .complete => (false, (m.endOutbound i).getD m)
    | .short => (true, m)
    | .none | .settled => (false, m)

/-- Whether `settleFailed` resets the stream. -/
def settleFailed (m : Manager) (i : Nat) : Bool :=
  !(m.stream i).cancelled && (m.stream i).responseOutcome ≠ .settled

def resetHandlerStream (m : Manager) (i : Nat) : Manager :=
  (m.discardOutbound i).queueReset i .internalError

def dropData (m : Manager) (i : Nat) : Manager := m.modify i fun s => { s with data := [] }

/-! ## On the event loop -/

/-- A call of a handler that runs on the event loop. -/
def callInline (i : Nat) (m : Manager) : Call → Manager
  | .writeResponse status body => m.writeResponseInline i status body
  | .writeHeader status declared => m.writeHeader i status declared
  | .write data => ((m.streamWrite i data).map Prod.fst).getD m
  | .close => (m.endOutbound i).getD m
  | .failResponse => m.failResponse i

/-- What `executeHandlerInline` does with the stream when the handler has ended. -/
inductive Cleanup where
  /-- The stream stays until its buffer is flushed. -/
  | keep
  /-- The stream stays until the frames at hand are processed. -/
  | defer
  | now
deriving DecidableEq, Repr

/-- The part of `executeHandlerInline` after a handler that has failed. -/
def settleInline (m : Manager) (i : Nat) : Manager :=
  if m.settleFailed i then m.resetHandlerStream i else m

/-- `executeHandlerInline` from the return of the handler to its deferred function. -/
def afterInline (m : Manager) (i : Nat) (ending : Ending) (hasMoreFrames : Bool) :
    Cleanup × Manager :=
  match ending with
  | .goexit => (.now, m.settleInline i)
  | .error | .panicked =>
    let (pending, t) := (m.settleInline i).abandonOutbound i
    (if pending then .keep else .now, t)
  | .returned =>
    if (m.stream i).headersSent = false then (.now, m.writeResponseInline i 200 [])
    else
      let settled := if (m.stream i).streamed then
        let (short, t) := m.settleStreamed i
        if short then t.resetHandlerStream i else t
      else m
      let (pending, t) := settled.abandonOutbound i
      if pending then (.keep, t)
      else (if hasMoreFrames then .defer else .now, t.setState i (t.stream i).state.ended)

def executeHandlerInline (m : Manager) (i : Nat) (run : HandlerRun) (hasMoreFrames : Bool) :
    Cleanup × Manager :=
  let (cleanup, t) := (run.calls.foldl (callInline i) m).afterInline i run.ending hasMoreFrames
  let t := t.dropData i
  match cleanup with
  | .keep => (.keep, t)
  | .defer => (.defer, t)
  | .now => (.now, ((t.setState i .closed).removeStreamFromMap i).release i)

end Manager

/-! ## On the worker pool -/

/-- Where `executeHandler` is. -/
inductive PoolStage where
  /-- The task waits for a worker. -/
  | submitted
  | running
  /-- In `finishBody`, with what `WriteResponse` has not sent. -/
  | finishing (rest : Bytes)
  /-- In `finishBody`, the rest buffered. -/
  | flushing
  /-- In `sendRest`, in the wait for the windows. -/
  | waiting (rest : Bytes)
  /-- In `sendRest`, the wait over. -/
  | sending (rest : Bytes)
  /-- In `WriteUse`, with what is not sent. -/
  | writing (rest : Bytes)
  /-- About to settle a streamed response; `state` is what the stream's was at the return. -/
  | settling (state : State)
  /-- In `resetHandlerStream`, about to discard the buffer; `state` is there when the handler
  returned without error. -/
  | discarding (state : Option State)
  /-- In `resetHandlerStream`, about to queue the `RST_STREAM`. -/
  | resetting (state : Option State)
  /-- About to close the stream. -/
  | closing (state : State)
  /-- In the deferred function. -/
  | deferred
  /-- About to hand what is buffered to the event loop. -/
  | handOff
  /-- About to set the state. -/
  | retiring
  | retire
deriving DecidableEq, Repr

/-- A step of a pool handler. -/
inductive PoolAction where
  | start
  | call (c : Call)
  | finish (ending : Ending)
  | advance
  /-- The wait for the windows took too long. -/
  | timeout
deriving DecidableEq, Repr

def PoolStage.afterReset : Option State → PoolStage
  | some state => .closing state
  | none => .deferred

/-- The stage of a call that may have left something, by what it has left. -/
def PoolStage.orRunning (stage : Bytes → PoolStage) (rest : Bytes) : PoolStage :=
  if rest = [] then .running else stage rest

namespace Manager

/-- A call of a handler that runs on the pool. -/
def callPool (m : Manager) (i : Nat) : Call → Manager × PoolStage
  | .writeResponse status body =>
    let (t, rest) := m.writeResponse i status body
    (t, .orRunning .finishing rest)
  | .writeHeader status declared => (m.writeHeader i status declared, .running)
  | .write data =>
    match m.streamWrite i data with
    | none => (m, .running)
    | some (t, rest) => (t, .orRunning .writing rest)
  | .close => ((m.endOutbound i).getD m, .running)
  | .failResponse => (m.failResponse i, .running)

/-- The step after the return of a pool handler. -/
def finishPool (m : Manager) (i : Nat) : Ending → Manager × PoolStage
  | .returned =>
    let s := m.stream i
    if s.headersSent = false then ((m.writeResponse i 200 []).1, .deferred)
    else if s.streamed then (m, .settling s.state)
    else (m, .closing s.state)
  | .error | .panicked | .goexit => (m, if m.settleFailed i then .discarding none else .deferred)

/-- A step `executeHandler` makes by itself; no stage when it is done. -/
def advancePool (m : Manager) (i : Nat) : PoolStage → Option (Manager × Option PoolStage)
  | .finishing rest =>
    match m.tryBufferOutbound i rest true with
    | some t => some (t, some .flushing)
    | none => some (m, some (.waiting rest))
  | .flushing =>
    if (m.stream i).runsOnPool && m.windowsOpen i then some ((m.flushOutbound i).2, some .running)
    else some (m, some .running)
  | .waiting rest =>
    if (m.stream i).cancelled then some (m, some .running)
    else if m.windowsOpen i then some (m, some (.sending rest))
    else none
  | .sending rest =>
    let (t, rest) := m.sendRest i rest
    some (t, some (.orRunning .waiting rest))
  | .writing rest =>
    match m.streamWrite i rest with
    | none => some (m, some .running)
    | some (t, rest) => some (t, some (.orRunning .writing rest))
  | .settling state =>
    let (short, t) := m.settleStreamed i
    some (t, some (if short then .discarding (some state) else .closing state))
  | .discarding state => some (m.discardOutbound i, some (.resetting state))
  | .resetting state => some (m.queueReset i .internalError, some (.afterReset state))
  | .closing state =>
    if (state = .opened ∨ state = .halfClosedRemote) ∧ (m.stream i).outboundBuffer = [] then
      some (m.setState i state.ended, some .deferred)
    else some (m, some .deferred)
  | .deferred =>
    let pending := (m.stream i).outboundBuffer ≠ []
    some (m.dropData i, some (if pending then .handOff else .retiring))
  | .handOff =>
    match m.handOffBuffered i with
    | some t => some (t, none)
    | none => some (m, some .retiring)
  | .retiring => some (m.setState i .closed, some .retire)
  | .retire => some (m.retire i, none)
  | .submitted | .running => none

/-- A step of a pool handler. -/
def stepPool (m : Manager) (i : Nat) : PoolStage → PoolAction → Option (Manager × Option PoolStage)
  | .submitted, .start => some (m, some .running)
  | .running, .call c => some ((m.callPool i c).1, some (m.callPool i c).2)
  | .running, .finish ending => some ((m.finishPool i ending).1, some (m.finishPool i ending).2)
  | .waiting _, .timeout => some (m.resetStreamOnce i .internalError, some .running)
  | .writing _, .timeout => some (m.resetStreamOnce i .internalError, some .running)
  | stage, .advance => m.advancePool i stage
  | _, _ => none

end Manager

end Celeris.H2
