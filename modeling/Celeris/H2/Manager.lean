import Celeris.H2.Priority
import Celeris.H2.Reserve
import Celeris.H2.Stream

/-!
# The streams of a connection (`internal/protocol/h2/stream/manager.go`, `flowcontrol.go`)

`Manager`: the map of streams, the count of the active ones, their priorities, the
placeholders of `PRIORITY` frames and the credit the server owes the peer.

`ids` are the keys of the map and `stream` the objects, by identifier; the object of a
stream that has left the map stays there for the pool handler that still runs on it.
The frames the server writes go one of two ways: straight to `outBuf`, or to the write
queue, from which the event loop takes them later; `wire` is what the connection was
given. The queue is one list here, where the source has shards: `Conn.WriteQueue` is
about those. `opens` and `lowers` only tell what happened: the streams that raised the
count of active streams, and those that lowered it.
-/

namespace Celeris.H2

/-- `Manager`, with the buffers of the connection's writer and queue. -/
structure Manager where
  ids : List Nat := []
  stream : Nat → Stream := fun _ => {}
  lastClientStream : Nat := 0
  maxStreamID : Nat := 0
  connectionWindow : Int := 65535
  maxStreams : Nat := 100
  /-- The peer's `SETTINGS_MAX_FRAME_SIZE`. -/
  maxFrameSize : Nat := 16384
  /-- The server's `SETTINGS_MAX_FRAME_SIZE`. -/
  localMaxFrameSize : Nat := 16384
  initialWindowSize : Int := 65535
  activeStreams : Nat := 0
  requestOpen : Nat := 0
  /-- Whether requests have a deadline. -/
  reqTimeout : Bool := false
  pendingConnWindowUpdate : Nat := 0
  pendingStreamUpdates : List (Nat × Nat) := []
  outboundHeld : Int := 0
  placeholderIDs : List Nat := []
  priorityTree : PriorityTree := {}
  outBuf : List Output := []
  queue : List Output := []
  wire : List Output := []
  opens : List Nat := []
  lowers : List Nat := []

namespace Manager

/-! ## The map -/

def setStream (m : Manager) (i : Nat) (s : Stream) : Manager :=
  { m with stream := Function.update m.stream i s }

def modify (m : Manager) (i : Nat) (f : Stream → Stream) : Manager := m.setStream i (f (m.stream i))

/-- The order in which the source ranges over the map: any order. -/
def range (m : Manager) (order : List Nat) : List Nat := if order.isPerm m.ids then order else m.ids

def activeIDs (m : Manager) : List Nat := m.ids.filter fun i => (m.stream i).state.active

/-! ## Counts -/

/-- The step of a counter when a stream may have moved in or out; `lowerCount` stops at 0. -/
def moveCount (n : Nat) (was is : Bool) : Nat := if was = is then n else if is then n + 1 else n - 1

/-- `updateActiveCount`, for a stream. -/
def updateActiveCount (m : Manager) (i : Nat) (prev next : State) : Manager :=
  { m with
    activeStreams := moveCount m.activeStreams prev.active next.active
    requestOpen := moveCount m.requestOpen prev.requesting next.requesting
    lowers := if prev.active && !next.active then m.lowers ++ [i] else m.lowers }

def setState (m : Manager) (i : Nat) (next : State) : Manager :=
  (m.modify i fun s => { s with state := next }).updateActiveCount i (m.stream i).state next

/-! ## Streams leave -/

def cancel (m : Manager) (i : Nat) : Manager := m.modify i fun s => { s with cancelled := true }

/-- `Stream.Release`: what the stream still buffers goes back to the budget. -/
def release (m : Manager) (i : Nat) : Manager :=
  { m.setStream i Stream.released with
    outboundHeld := m.outboundHeld - (m.stream i).outboundBuffer.length }

/-- The last takes the place of the one that is removed. -/
def swapErase (l : List Nat) (k : Nat) : List Nat := (l.set k (l.getLastD 0)).dropLast

/-- `dropPlaceholderLocked`. -/
def dropPlaceholder (m : Manager) (i : Nat) : Manager :=
  { m with
    placeholderIDs := if (m.stream i).placeholder ∧ i ∈ m.placeholderIDs then
      swapErase m.placeholderIDs (m.placeholderIDs.idxOf i) else m.placeholderIDs }

def disarmRequest (m : Manager) (i : Nat) : Manager :=
  m.modify i fun s => { s with reqDeadline := false }

/-- Forget the credit that is to be given to a stream. -/
def dropPending (m : Manager) (i : Nat) : Manager :=
  { m with pendingStreamUpdates := m.pendingStreamUpdates.filter fun u => u.1 ≠ i }

/-- Take a stream out of the map, and out of the priority tree. -/
def erase (m : Manager) (i : Nat) : Manager :=
  { m with
    ids := m.ids.erase i
    priorityTree := if i ∈ m.ids then m.priorityTree.removeStream i else m.priorityTree }

/-- `takeLocked` and `afterTake`: a stream leaves the map and is closed. The stream of a
running pool handler is released by the handler. -/
def take (m : Manager) (i : Nat) : Manager :=
  let t := ((((m.erase i).setState i .closed).dropPlaceholder i).disarmRequest i).dropPending i
  if (m.stream i).asyncRunning then t else t.release i

def deleteStream (m : Manager) (i : Nat) : Manager := if i ∈ m.ids then m.take i else m

/-- `resetStream`, for the peer's `RST_STREAM`; nothing when the stream is not held. -/
def resetStream (m : Manager) (i : Nat) : Option Manager :=
  if i ∈ m.ids then some ((m.cancel i).take i) else none

def removeStreamFromMap (m : Manager) (i : Nat) : Manager := (m.erase i).dropPending i

/-- `handOffBuffered`: the event loop takes over what a pool handler has left. -/
def handOffBuffered (m : Manager) (i : Nat) : Option Manager :=
  if i ∈ m.ids then some (m.modify i fun s => { s with asyncRunning := false }) else none

/-- `retire`: a pool handler is done with its stream. -/
def retire (m : Manager) (i : Nat) : Manager :=
  let held := (m.stream i).outboundBuffer.length
  (({ m with outboundHeld := m.outboundHeld - held }.modify i fun s =>
    { s with cancelled := true, outboundBuffer := [], headers := [] }).erase i).dropPending i

/-! ## Streams come -/

/-- A stream enters the map, in the place of one with its identifier. -/
def insert (m : Manager) (i : Nat) (s : Stream) : Manager :=
  { m.setStream i s with ids := if i ∈ m.ids then m.ids else i :: m.ids }

/-- `reapPassedPlaceholdersLocked`, from index `k` on; `fuel` is the number of entries. -/
def reapPassedPlaceholders : (fuel : Nat) → Manager → (k : Nat) → Manager
  | 0, m, _ => m
  | fuel + 1, m, k =>
    match m.placeholderIDs[k]? with
    | none => m
    | some i =>
      if i > m.lastClientStream then reapPassedPlaceholders fuel m (k + 1)
      else
        let reaped := if i ∈ m.ids ∧ (m.stream i).placeholder ∧ (m.stream i).state = .idle then
          (m.erase i).release i else m
        reapPassedPlaceholders fuel
          { reaped with placeholderIDs := swapErase m.placeholderIDs k } k

def maxPriorityPlaceholders : Nat := 16

def createPlaceholder (m : Manager) (i : Nat) : Manager :=
  if i ∈ m.ids then m
  else
    let t := if m.placeholderIDs.length ≥ maxPriorityPlaceholders then
      reapPassedPlaceholders m.placeholderIDs.length m 0 else m
    if t.placeholderIDs.length ≥ maxPriorityPlaceholders then t
    else
      { t.insert i { newStream t.initialWindowSize with placeholder := true } with
        placeholderIDs := t.placeholderIDs ++ [i] }

/-- `TryOpenStream`; nothing when the peer has as many streams as it may. -/
def tryOpenStream (m : Manager) (i : Nat) : Option Manager :=
  if i ∈ m.ids ∧ (m.stream i).state.active then some m
  else if m.activeStreams ≥ m.maxStreams then none
  else
    some { m.insert i { newStream m.initialWindowSize with state := .opened } with
      placeholderIDs := if i ∈ m.ids then (m.dropPlaceholder i).placeholderIDs else m.placeholderIDs
      maxStreamID := max m.maxStreamID i
      lastClientStream := if i % 2 = 1 then i else m.lastClientStream
      activeStreams := m.activeStreams + 1
      requestOpen := m.requestOpen + 1
      opens := m.opens ++ [i] }

/-- A stream takes the priority of a frame. -/
def updatePriority (m : Manager) (i : Nat) (priority : Priority) : Manager :=
  { m with priorityTree := m.priorityTree.updateFromFrame i priority }

/-! ## Credit for what the peer has sent -/

def windowUpdateThreshold : Nat := 8192

/-- Whether an amount of credit is sent now. -/
def dueUpdate (force : Bool) (pending : Nat) : Bool :=
  decide (pending > 0) && (force || decide (pending ≥ windowUpdateThreshold))

def accumulateWindowUpdate (m : Manager) (i increment : Nat) : Manager :=
  if i = 0 then
    { m with pendingConnWindowUpdate := (m.pendingConnWindowUpdate + increment) % 2 ^ 32 }
  else
    let old := (m.pendingStreamUpdates.lookup i).getD 0
    { m.dropPending i with
      pendingStreamUpdates :=
        (i, (old + increment) % 2 ^ 32) :: (m.dropPending i).pendingStreamUpdates }

def flushWindowUpdates (m : Manager) (force : Bool) : Manager :=
  let connUpdate := m.pendingConnWindowUpdate
  let due := m.pendingStreamUpdates.filter fun u => dueUpdate force u.2
  { m with
    outBuf := m.outBuf ++
      (if dueUpdate force connUpdate then [.windowUpdate 0 connUpdate] else []) ++
      due.map fun u => .windowUpdate u.1 u.2
    pendingConnWindowUpdate := if dueUpdate force connUpdate then 0 else connUpdate
    pendingStreamUpdates := m.pendingStreamUpdates.filter fun u => !dueUpdate force u.2 }

/-! ## The writer and the queue -/

def write (m : Manager) (out : List Output) : Manager := { m with outBuf := m.outBuf ++ out }

def enqueue (m : Manager) (out : List Output) : Manager := { m with queue := m.queue ++ out }

def flushOut (m : Manager) : Manager := { m with wire := m.wire ++ m.outBuf, outBuf := [] }

def drainWriteQueue (m : Manager) : Manager := { m with wire := m.wire ++ m.queue, queue := [] }

def sent (m : Manager) : List Output := m.wire ++ m.outBuf ++ m.queue

end Manager

end Celeris.H2
