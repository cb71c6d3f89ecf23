import Celeris.Data.Bytes
import Celeris.Data.Transition
import Mathlib.Tactic.Common

/-!
# The inbound reader of a WebSocket (`middleware/websocket/engineread.go`)

The worker of the engine hands each inbound chunk to `Append`; the goroutine of the
handler takes the bytes out with `Read`. Between them stand a channel, a bounded list
of chunks that did not fit in it (the spill), and a flag that says that the reader was
closed. The worker also pauses and resumes its own reads, through two callbacks.

Both goroutines are modelled operation by operation. `Append` and `Read` stand between
two operations that the other goroutine can see: a load, a store, a send, a receive,
the taking and the release of a mutex. What a mutex guards alone (`spill`,
`pausedState` and the callbacks) is changed in the step of the visible operation next
to it. A mutex is held as long as a goroutine stands between its `Lock` and its
`Unlock`.

A send to a goroutine that is parked in a receive is, in Go, handed over to it; here
the chunk goes through the channel, and the receive is a step of its own.
-/

namespace Celeris.WebSocket

open Transition

/-! ## States -/

/-- What `Read` fails with. -/
inductive ReadError where
  | eof
  | errReadLimit
  | other (text : String)
deriving DecidableEq, Repr

/-- The callbacks of the engine. -/
inductive Callback where
  | pause
  | resume
deriving DecidableEq, Repr

/-- What `newChanReader` and `SetPauser` fix: whether the callbacks are installed, and
the sizes. -/
structure Watermarks where
  capacity : Nat
  highWater : Nat
  lowWater : Nat
  spillMax : Nat
  pauser : Bool
  capacity_pos : 0 < capacity
  lowWater_lt : lowWater < highWater
  spillMax_eq : spillMax = capacity

/-- The worker of the engine: where it is in `Append`, or in `closeWith`. -/
inductive Producer where
  /-- Not in a call. -/
  | idle
  /-- About to load `closed`. -/
  | loadClosed (chunk : Bytes)
  /-- About to load `spillLen`. -/
  | loadSpillLen (chunk : Bytes)
  /-- About to send, in `Append`. -/
  | send (chunk : Bytes)
  /-- In `queueBehind`, waiting for `spillMu`. -/
  | lockSpill (chunk : Bytes)
  /-- About to try the channel again, with `spillMu` held. -/
  | retry (chunk : Bytes)
  /-- About to put the chunk in the spill, with `spillMu` held. -/
  | spill (chunk : Bytes)
  /-- The chunk is queued; about to release `spillMu`. -/
  | unlockSpill (chunk : Bytes) (spilled : Bool)
  /-- The spill is full; about to release `spillMu`. -/
  | unlockDropped
  /-- The chunk is queued; about to compare the depth of the channel with `highWater`. -/
  | depth (chunk : Bytes)
  /-- In `requestPause`, waiting for `pausedMu`. -/
  | lockPaused (chunk : Bytes)
  /-- About to test `pausedState`, with `pausedMu` held. -/
  | pause (chunk : Bytes)
  /-- Has called `pause`; about to compare the depth with `lowWater`. -/
  | recheckDepth (chunk : Bytes)
  /-- The depth is at most `lowWater`; about to load `spillLen`. -/
  | recheckSpill (chunk : Bytes)
  /-- About to release `pausedMu`. -/
  | unlockPaused (chunk : Bytes)
  /-- In `closeWith`, about to set `closed`; `appending` tells a call of `queueBehind`. -/
  | swapClosed (appending : Bool) (err : Option ReadError)
  /-- In `closeWith`, about to store the error. -/
  | storeErr (appending : Bool) (err : Option ReadError)
  /-- In `closeWith`, about to close `done`. -/
  | closeDone (appending : Bool)
deriving DecidableEq, Repr

/-- Where `promoteLocked` is called: by `promoteSpill`, in `next`, where `closed` has been
loaded, or by `refillFromSpill`. -/
inductive Promotion where
  | next (closed : Bool)
  | refill
deriving DecidableEq, Repr

/-- The goroutine of the handler: where it is in `Read`. -/
inductive Consumer where
  /-- Not in a call. -/
  | idle
  /-- In `next`, about to load `closed`. -/
  | loadClosed
  /-- About to receive if there is a chunk. -/
  | receive (closed : Bool)
  /-- Waiting for `spillMu`. -/
  | lockSpill (site : Promotion)
  /-- In the loop of `promoteLocked`, which has moved `n` chunks. -/
  | promote (site : Promotion) (n : Nat)
  /-- After the loop of `promoteLocked`. -/
  | promoted (site : Promotion) (n : Nat)
  /-- About to release `spillMu`. -/
  | unlockSpill (site : Promotion) (moved : Bool)
  /-- Nothing was promoted; about to report the close, if it was loaded. -/
  | report (closed : Bool)
  /-- Blocked on the channel and `done`. -/
  | block
  /-- Has a chunk; in `refillFromSpill`, about to load `spillLen`. -/
  | loadSpillLen
  /-- In `Read`, about to load `spillLen`. -/
  | hasSpill
  /-- In `resumeIfDrained`, waiting for `pausedMu`. -/
  | lockPaused
  /-- About to test `pausedState` and the depth, with `pausedMu` held. -/
  | resume
  /-- About to release `pausedMu`. -/
  | unlockPaused
  /-- About to copy from the chunk. -/
  | copy
deriving DecidableEq, Repr

/-- A `chanReader`, the two goroutines, and what happened: the calls of the engine's
callbacks, the chunks whose `Append` returned true, the bytes that `Read` returned and
the errors that it reported. -/
structure ChanReader where
  ch : List Bytes := []
  cur : Bytes := []
  done : Bool := false
  closed : Bool := false
  err : Option ReadError := none
  pausedState : Bool := false
  spill : List Bytes := []
  spillLen : Nat := 0
  producer : Producer := .idle
  consumer : Consumer := .idle
  /-- The room in the buffer of the `Read` in progress. -/
  room : Nat := 0
  calls : List Callback := []
  accepted : List Bytes := []
  delivered : Bytes := []
  reported : List ReadError := []
deriving DecidableEq, Repr

/-- `capacity` is positive, as `newChanReader` makes it. -/
def newCapacity (capacity : Int) : Nat := if capacity ≤ 0 then 256 else capacity.toNat

/-- The percentage of the capacity at which reads are paused. -/
def newHighPct (highPct : Int) : Nat := if highPct ≤ 0 ∨ 100 < highPct then 75 else highPct.toNat

/-- The percentage of the capacity at which reads are resumed. -/
def newLowPct (highPct lowPct : Int) : Nat :=
  if lowPct ≤ 0 ∨ (newHighPct highPct : Int) ≤ lowPct then 25 else lowPct.toNat

theorem newCapacity_pos {capacity : Int} : 0 < newCapacity capacity := by
  unfold newCapacity
  split_ifs <;> omega

/-- The sizes of a new reader. -/
def newChanReader (capacity highPct lowPct : Int) (pauser : Bool) : Watermarks where
  capacity := newCapacity capacity
  highWater := max 1 (newCapacity capacity * newHighPct highPct / 100)
  lowWater :=
    let highWater := max 1 (newCapacity capacity * newHighPct highPct / 100)
    let lowWater := newCapacity capacity * newLowPct highPct lowPct / 100
    if highWater ≤ lowWater then highWater - 1 else lowWater
  spillMax := newCapacity capacity
  pauser := pauser
  capacity_pos := newCapacity_pos
  lowWater_lt := by
    dsimp only
    split_ifs <;> omega
  spillMax_eq := rfl

/-! ## Steps -/

/-- The worker holds `spillMu`. -/
def Producer.holdsSpill : Producer → Bool
  | .retry _ | .spill _ | .unlockSpill .. | .unlockDropped => true
  | _ => false

/-- The worker holds `pausedMu`. -/
def Producer.holdsPaused : Producer → Bool
  | .pause _ | .recheckDepth _ | .recheckSpill _ | .unlockPaused _ => true
  | _ => false

/-- The handler holds `spillMu`. -/
def Consumer.holdsSpill : Consumer → Bool
  | .promote .. | .promoted .. | .unlockSpill .. => true
  | _ => false

/-- The handler holds `pausedMu`. -/
def Consumer.holdsPaused : Consumer → Bool
  | .resume | .unlockPaused => true
  | _ => false

/-- Where a promotion returns to. -/
def Promotion.back : Promotion → Bool → Consumer
  | .next _, true => .loadClosed
  | .next closed, false => .report closed
  | .refill, _ => .hasSpill

namespace ChanReader

section Steps

variable (w : Watermarks)

def hasRoom (s : ChanReader) : Bool := s.ch.length < w.capacity

/-- `Append` returns true. -/
def accept (s : ChanReader) (chunk : Bytes) : ChanReader :=
  { s with producer := .idle, accepted := s.accepted ++ [chunk] }

/-- Change `pausedState` and make the callback, under `pausedMu`. -/
def signal (s : ChanReader) (c : Callback) : ChanReader :=
  { s with pausedState := c == .pause, calls := s.calls ++ [c] }

/-- The next operation of the worker. -/
def produce (s : ChanReader) : Option ChanReader :=
  match s.producer with
  | .idle => none
  | .loadClosed chunk => some { s with producer := if s.closed then .idle else .loadSpillLen chunk }
  | .loadSpillLen chunk =>
    some { s with producer := if 0 < s.spillLen then .lockSpill chunk else .send chunk }
  | .send chunk =>
    if s.hasRoom w then some { s with ch := s.ch ++ [chunk], producer := .depth chunk }
    else some { s with producer := .lockSpill chunk }
  | .lockSpill chunk =>
    if s.consumer.holdsSpill then none else some { s with producer := .retry chunk }
  | .retry chunk =>
    if s.spill = [] ∧ s.hasRoom w then
      some { s with ch := s.ch ++ [chunk], producer := .unlockSpill chunk false }
    else some { s with producer := .spill chunk }
  | .spill chunk =>
    if w.spillMax ≤ 0 ∨ w.spillMax ≤ s.spill.length then some { s with producer := .unlockDropped }
    else some { s with
      spill := s.spill ++ [chunk], spillLen := s.spill.length + 1, producer :=
        .unlockSpill chunk true }
  | .unlockSpill chunk spilled =>
    some { s with producer := if spilled then .lockPaused chunk else .depth chunk }
  | .unlockDropped => some { s with producer := .swapClosed true (some .errReadLimit) }
  | .depth chunk =>
    if w.highWater ≤ s.ch.length then some { s with producer := .lockPaused chunk }
    else some (s.accept chunk)
  | .lockPaused chunk =>
    if s.consumer.holdsPaused then none else some { s with producer := .pause chunk }
  | .pause chunk =>
    if w.pauser = false ∨ s.pausedState then some { s with producer := .unlockPaused chunk }
    else some { s.signal .pause with producer := .recheckDepth chunk }
  | .recheckDepth chunk =>
    some { s with
      producer := if s.ch.length ≤ w.lowWater then .recheckSpill chunk else .unlockPaused chunk }
  | .recheckSpill chunk =>
    if 0 < s.spillLen then some { s with producer := .unlockPaused chunk }
    else some { s.signal .resume with producer := .unlockPaused chunk }
  | .unlockPaused chunk => some (s.accept chunk)
  | .swapClosed appending err =>
    if s.closed then some { s with producer := .idle }
    else some { s with closed := true, producer := .storeErr appending err }
  | .storeErr appending err => some { s with err := err.or s.err, producer := .closeDone appending }
  | .closeDone _ => some { s with done := true, producer := .idle }

def closeErr (s : ChanReader) : ReadError := s.err.getD .eof

/-- `next` has its chunk, which becomes `cur`. -/
def receive (s : ChanReader) (chunk : Bytes) (rest : List Bytes) : ChanReader :=
  { s with ch := rest, cur := chunk, consumer := .loadSpillLen }

/-- The next operation of the handler; of the cases of a `select` that are ready it takes
the one for `done` if `wake` is set. -/
def consume (s : ChanReader) (wake : Bool) : Option ChanReader :=
  match s.consumer with
  | .idle => none
  | .loadClosed => some { s with consumer := .receive s.closed }
  | .receive closed =>
    match s.ch with
    | chunk :: rest => some (s.receive chunk rest)
    | [] => some { s with consumer := .lockSpill (.next closed) }
  | .lockSpill site =>
    if s.producer.holdsSpill then none else some { s with consumer := .promote site 0 }
  | .promote site n =>
    match s.spill[n]? with
    | some chunk =>
      if s.hasRoom w then some { s with ch := s.ch ++ [chunk], consumer := .promote site (n + 1) }
      else some { s with consumer := .promoted site n }
    | none => some { s with consumer := .promoted site n }
  | .promoted site n =>
    if n = 0 then some { s with consumer := .unlockSpill site false }
    else some { s with
      spill := s.spill.drop n, spillLen := (s.spill.drop n).length, consumer :=
        .unlockSpill site true }
  | .unlockSpill site moved => some { s with consumer := site.back moved }
  | .report closed =>
    if closed then some { s with consumer := .idle, reported := s.reported ++ [s.closeErr] }
    else some { s with consumer := .block }
  | .block =>
    match s.ch with
    | chunk :: rest =>
      if s.done ∧ wake then some { s with consumer := .loadClosed } else some (s.receive chunk rest)
    | [] => if s.done then some { s with consumer := .loadClosed } else none
  | .loadSpillLen => some { s with
      consumer := if s.spillLen = 0 then .hasSpill else .lockSpill .refill }
  | .hasSpill =>
    some { s with consumer := if w.pauser = false ∨ 0 < s.spillLen then .copy else .lockPaused }
  | .lockPaused => if s.producer.holdsPaused then none else some { s with consumer := .resume }
  | .resume =>
    if s.pausedState ∧ s.ch.length ≤ w.lowWater then
      some { s.signal .resume with consumer := .unlockPaused }
    else some { s with consumer := .unlockPaused }
  | .unlockPaused => some { s with consumer := .copy }
  | .copy =>
    some { s with
      delivered := s.delivered ++ s.cur.take s.room, cur := s.cur.drop s.room, consumer := .idle }

/-- What can happen. -/
inductive Action where
  /-- The worker calls `Append`. -/
  | append (chunk : Bytes)
  /-- The worker calls `closeWith`. -/
  | closeWith (err : Option ReadError)
  /-- The worker makes its next operation. -/
  | produce
  /-- The handler calls `Read` with a buffer of some length. -/
  | read (room : Nat)
  /-- The handler makes its next operation. -/
  | consume (wake : Bool)
deriving DecidableEq, Repr

def step (s : ChanReader) : Action → Option ChanReader
  | .append chunk => if s.producer = .idle then some { s with producer := .loadClosed chunk }
      else none
  | .closeWith err => if s.producer = .idle then some { s with producer := .swapClosed false err }
      else none
  | .produce => s.produce w
  | .read room =>
    if s.consumer = .idle then
      some { s with room := room, consumer := if s.cur = [] then .loadClosed else .copy }
    else none
  | .consume wake => s.consume w wake

end Steps

/-! ## What a step does -/

variable {w : Watermarks}

/-- The operations of the worker. -/
inductive Produced (w : Watermarks) : ChanReader → ChanReader → Prop
  | refused {s : ChanReader} : s.closed = true →
      Produced w { s with producer := .loadClosed chunk } { s with producer := .idle }
  | opened {s : ChanReader} : s.closed = false →
      Produced w { s with producer := .loadClosed chunk } { s with producer := .loadSpillLen chunk }
  | behind {s : ChanReader} :
      Produced w { s with producer := .loadSpillLen chunk } { s with producer := .lockSpill chunk }
  | front {s : ChanReader} : s.spillLen = 0 →
      Produced w { s with producer := .loadSpillLen chunk } { s with producer := .send chunk }
  | sent {s : ChanReader} : s.ch.length < w.capacity →
      Produced w { s with producer := .send chunk }
        { s with ch := s.ch ++ [chunk], producer := .depth chunk }
  | full {s : ChanReader} :
      Produced w { s with producer := .send chunk } { s with producer := .lockSpill chunk }
  | locked {s : ChanReader} :
      Produced w { s with producer := .lockSpill chunk } { s with producer := .retry chunk }
  | retried {s : ChanReader} : s.spill = [] → s.ch.length < w.capacity →
      Produced w { s with producer := .retry chunk }
        { s with ch := s.ch ++ [chunk], producer := .unlockSpill chunk false }
  | stillFull {s : ChanReader} :
      Produced w { s with producer := .retry chunk } { s with producer := .spill chunk }
  | overflowed {s : ChanReader} :
      Produced w { s with producer := .spill chunk } { s with producer := .unlockDropped }
  | spilled {s : ChanReader} : s.spill.length < w.spillMax →
      Produced w { s with producer := .spill chunk }
        { s with
          spill := s.spill ++ [chunk], spillLen := s.spill.length + 1,
          producer := .unlockSpill chunk true }
  | unlocked {s : ChanReader} :
      Produced w { s with producer := .unlockSpill chunk false } { s with producer := .depth chunk }
  | unlockedSpilled {s : ChanReader} :
      Produced w { s with producer := .unlockSpill chunk true }
        { s with producer := .lockPaused chunk }
  | unlockedDropped {s : ChanReader} : Produced w { s with producer := .unlockDropped }
        { s with producer := .swapClosed true (some .errReadLimit) }
  | high {s : ChanReader} :
      Produced w { s with producer := .depth chunk } { s with producer := .lockPaused chunk }
  | low {s : ChanReader} : Produced w { s with producer := .depth chunk } (s.accept chunk)
  | lockedPaused {s : ChanReader} : s.consumer.holdsPaused = false →
      Produced w { s with producer := .lockPaused chunk } { s with producer := .pause chunk }
  | notPaused {s : ChanReader} :
      Produced w { s with producer := .pause chunk } { s with producer := .unlockPaused chunk }
  | paused {s : ChanReader} : s.pausedState = false →
      Produced w { s with producer := .pause chunk } { s.signal .pause with
        producer := .recheckDepth chunk }
  | drained {s : ChanReader} :
      Produced w { s with producer := .recheckDepth chunk }
        { s with producer := .recheckSpill chunk }
  | deep {s : ChanReader} : s.ch ≠ [] →
      Produced w { s with producer := .recheckDepth chunk }
        { s with producer := .unlockPaused chunk }
  | behindSpill {s : ChanReader} : 0 < s.spillLen →
      Produced w { s with producer := .recheckSpill chunk }
        { s with producer := .unlockPaused chunk }
  | lifted {s : ChanReader} :
      Produced w { s with producer := .recheckSpill chunk } { s.signal .resume with
        producer := .unlockPaused chunk }
  | unlockedPaused {s : ChanReader} : Produced w { s with producer := .unlockPaused chunk }
      (s.accept chunk)
  | closedBefore {s : ChanReader} {err : Option ReadError} :
      Produced w { s with producer := .swapClosed appending err } { s with producer := .idle }
  | closed {s : ChanReader} {err : Option ReadError} : Produced w
      { s with producer := .swapClosed appending err }
        { s with closed := true, producer := .storeErr appending err }
  | storedErr {s : ChanReader} {err : Option ReadError} :
      Produced w { s with producer := .storeErr appending err }
        { s with err := err.or s.err, producer := .closeDone appending }
  | closedDone {s : ChanReader} :
      Produced w { s with producer := .closeDone appending }
        { s with done := true, producer := .idle }

theorem withProducer {s : ChanReader} {p : Producer} (h : s.producer = p) :
    { s with producer := p } = s := by
  cases s
  cases h
  rfl

theorem withConsumer {s : ChanReader} {c : Consumer} (h : s.consumer = c) :
    { s with consumer := c } = s := by
  cases s
  cases h
  rfl

theorem produced {s t : ChanReader} (h : s.produce w = some t) : Produced w s t := by
  generalize hp : s.producer = p
  rw [← withProducer hp] at h ⊢
  unfold produce at h
  dsimp only at h
  split at h
  next => cases h
  next =>
    split_ifs at h with hc <;> cases h
    · exact .refused hc
    · exact .opened (Bool.not_eq_true _ ▸ hc)
  next =>
    split_ifs at h with hlen <;> cases h
    · exact .behind
    · exact .front (Nat.eq_zero_of_not_pos hlen)
  next =>
    split_ifs at h with hr <;> cases h
    · exact .sent (of_decide_eq_true hr)
    · exact .full
  next =>
    split_ifs at h
    cases h
    exact .locked
  next =>
    split_ifs at h with hr <;> cases h
    · exact .retried hr.1 (of_decide_eq_true hr.2)
    · exact .stillFull
  next =>
    split_ifs at h with hmax <;> cases h
    · exact .overflowed
    · exact .spilled (Nat.lt_of_not_le fun hle => hmax (.inr hle))
  next chunk spilled =>
    cases h
    cases spilled with
    | false => exact .unlocked
    | true => exact .unlockedSpilled
  next =>
    cases h
    exact .unlockedDropped
  next =>
    split_ifs at h <;> cases h
    · exact .high
    · exact .low
  next =>
    split_ifs at h with hh
    cases h
    exact .lockedPaused (Bool.not_eq_true _ ▸ hh)
  next =>
    split_ifs at h with hpa <;> cases h
    · exact .notPaused
    · exact .paused (Bool.not_eq_true _ ▸ fun hset => hpa (.inr hset))
  next =>
    split_ifs at h with hlow <;> cases h
    · exact .drained
    · refine .deep fun hnil => hlow ?_
      rw [hnil]
      exact Nat.zero_le _
  next =>
    split_ifs at h with hlen <;> cases h
    · exact .behindSpill hlen
    · exact .lifted
  next =>
    cases h
    exact .unlockedPaused
  next =>
    split_ifs at h <;> cases h
    · exact .closedBefore
    · exact .closed
  next =>
    cases h
    exact .storedErr
  next =>
    cases h
    exact .closedDone

/-- The operations of the handler. -/
inductive Consumed (w : Watermarks) : ChanReader → ChanReader → Prop
  | loadedClosed {s : ChanReader} :
      Consumed w { s with consumer := .loadClosed } { s with consumer := .receive s.closed }
  | received {s : ChanReader} {closed : Bool} :
      Consumed w { s with ch := chunk :: rest, consumer := .receive closed } (s.receive chunk rest)
  | empty {s : ChanReader} {closed : Bool} : s.ch = [] →
      Consumed w { s with consumer := .receive closed }
        { s with consumer := .lockSpill (.next closed) }
  | locked {s : ChanReader} :
      Consumed w { s with consumer := .lockSpill site } { s with consumer := .promote site 0 }
  | moved {s : ChanReader} : s.spill[n]? = some chunk → s.ch.length < w.capacity →
      Consumed w { s with consumer := .promote site n }
        { s with ch := s.ch ++ [chunk], consumer := .promote site (n + 1) }
  | ended {s : ChanReader} : s.spill.length ≤ n ∨ w.capacity ≤ s.ch.length →
      Consumed w { s with consumer := .promote site n } { s with consumer := .promoted site n }
  | none {s : ChanReader} :
      Consumed w { s with consumer := .promoted site 0 }
        { s with consumer := .unlockSpill site false }
  | some {s : ChanReader} : Consumed w { s with consumer := .promoted site (n + 1) }
        { s with
          spill := s.spill.drop (n + 1), spillLen := (s.spill.drop (n + 1)).length
          consumer := .unlockSpill site true }
  | unlocked {s : ChanReader} {site : Promotion} :
      Consumed w { s with consumer := .unlockSpill site moved }
        { s with consumer := site.back moved }
  | reported {s : ChanReader} : Consumed w { s with consumer := .report true }
        { s with consumer := .idle, reported := s.reported ++ [s.closeErr] }
  | blocked {s : ChanReader} : Consumed w { s with consumer := .report false }
      { s with consumer := .block }
  | woken {s : ChanReader} : Consumed w { s with consumer := .block }
      { s with consumer := .loadClosed }
  | handed {s : ChanReader} :
      Consumed w { s with ch := chunk :: rest, consumer := .block } (s.receive chunk rest)
  | noRefill {s : ChanReader} :
      Consumed w { s with consumer := .loadSpillLen } { s with consumer := .hasSpill }
  | refill {s : ChanReader} :
      Consumed w { s with consumer := .loadSpillLen } { s with consumer := .lockSpill .refill }
  | noResume {s : ChanReader} : w.pauser = false ∨ 0 < s.spillLen →
      Consumed w { s with consumer := .hasSpill } { s with consumer := .copy }
  | mayResume {s : ChanReader} :
      Consumed w { s with consumer := .hasSpill } { s with consumer := .lockPaused }
  | lockedPaused {s : ChanReader} : s.producer.holdsPaused = false →
      Consumed w { s with consumer := .lockPaused } { s with consumer := .resume }
  | resumed {s : ChanReader} : s.pausedState = true →
      Consumed w { s with consumer := .resume } { s.signal .resume with consumer := .unlockPaused }
  | deep {s : ChanReader} : s.pausedState = false ∨ s.ch ≠ [] →
      Consumed w { s with consumer := .resume } { s with consumer := .unlockPaused }
  | unlockedPaused {s : ChanReader} :
      Consumed w { s with consumer := .unlockPaused } { s with consumer := .copy }
  | copied {s : ChanReader} : Consumed w { s with consumer := .copy }
        { s with
          delivered := s.delivered ++ s.cur.take s.room, cur := s.cur.drop s.room,
          consumer := .idle }

theorem withReceived {s : ChanReader} {l : List Bytes} {c : Consumer} (hch : s.ch = l)
    (hc : s.consumer = c) : { s with ch := l, consumer := c } = s := by
  cases s
  cases hch
  cases hc
  rfl

theorem consumed {s t : ChanReader} {wake : Bool} (h : s.consume w wake = some t) :
    Consumed w s t := by
  generalize hc : s.consumer = c
  rw [← withConsumer hc] at h ⊢
  unfold consume at h
  dsimp only at h
  split at h
  next => cases h
  next =>
    cases h
    exact .loadedClosed
  next closed =>
    split at h <;> cases h
    next hch =>
      rw [← withReceived hch hc]
      exact .received
    next hch =>
      exact .empty hch
  next =>
    split_ifs at h
    cases h
    exact .locked
  next site n =>
    split at h
    next chunk hn =>
      split_ifs at h with hr <;> cases h
      · exact .moved hn (of_decide_eq_true hr)
      · exact .ended (.inr (Nat.le_of_not_lt fun hlt => hr (decide_eq_true hlt)))
    next hn =>
      cases h
      exact .ended (.inl (List.getElem?_eq_none_iff.mp hn))
  next site n =>
    cases n with
    | zero =>
      cases h
      exact .none
    | succ n =>
      cases h
      exact .some
  next =>
    cases h
    exact .unlocked
  next closed =>
    cases closed <;> cases h
    · exact .blocked
    · exact .reported
  next =>
    split at h
    next hch =>
      split_ifs at h <;> cases h
      · exact .woken
      · rw [← withReceived hch hc]
        exact .handed
    next hch =>
      split_ifs at h
      cases h
      exact .woken
  next =>
    split_ifs at h <;> cases h
    · exact .noRefill
    · exact .refill
  next =>
    split_ifs at h with hs <;> cases h
    · exact .noResume hs
    · exact .mayResume
  next =>
    split_ifs at h with hh
    cases h
    exact .lockedPaused (Bool.not_eq_true _ ▸ hh)
  next =>
    split_ifs at h with hlow <;> cases h
    · exact .resumed hlow.1
    · refine .deep (Decidable.or_iff_not_imp_left.mpr fun hp hnil => hlow ?_)
      rw [hnil]
      exact ⟨Bool.not_eq_false _ ▸ hp, Nat.zero_le _⟩
  next =>
    cases h
    exact .unlockedPaused
  next =>
    cases h
    exact .copied

/-- What can happen, by the calls and the goroutines. -/
inductive Stepped (w : Watermarks) : ChanReader → ChanReader → Prop
  | append {s : ChanReader} :
      Stepped w { s with producer := .idle } { s with producer := .loadClosed chunk }
  | closeWith {s : ChanReader} {err : Option ReadError} :
      Stepped w { s with producer := .idle } { s with producer := .swapClosed false err }
  | produce : Produced w s t → Stepped w s t
  | read {s : ChanReader} {room : Nat} : s.cur = [] →
      Stepped w { s with consumer := .idle } { s with room := room, consumer := .loadClosed }
  | readRest {s : ChanReader} {room : Nat} :
      Stepped w { s with consumer := .idle } { s with room := room, consumer := .copy }
  | consume : Consumed w s t → Stepped w s t

theorem stepped {s t : ChanReader} {a : Action} (h : s.step w a = some t) : Stepped w s t := by
  cases a with rw [step] at h
  | append chunk =>
    split_ifs at h with hp
    rw [← withProducer hp]
    cases h
    exact .append
  | closeWith err =>
    split_ifs at h with hp
    rw [← withProducer hp]
    cases h
    exact .closeWith
  | produce => exact .produce (produced h)
  | read room =>
    split_ifs at h with hc hcur
    all_goals
      rw [← withConsumer hc]
      cases h
    · exact .read hcur
    · exact .readRest
  | consume wake => exact .consume (consumed h)

/-- What a reader does, from its construction, with every interleaving of the worker and
the handler. -/
def Reachable (w : Watermarks) (s : ChanReader) : Prop := Runs (step w) (fun _ _ => True) {} s

end ChanReader

end Celeris.WebSocket
