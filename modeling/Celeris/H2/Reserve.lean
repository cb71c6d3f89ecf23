import Celeris.Data.Counting
import Celeris.Data.Transition

/-!
# Send windows, step by step (`internal/protocol/h2/stream/flowcontrol.go`)

The send windows of an HTTP/2 connection at the grain of single atomic operations:
any number of `ReserveSendWindow` calls, each two compare-and-swap loops and a
refund, and the event loop, which takes `WINDOW_UPDATE` and
`SETTINGS_INITIAL_WINDOW_SIZE` one frame at a time. Every action of the system is
one load, one compare-and-swap or one addition.

The calls the event loop makes itself, when it flushes what streams have buffered,
are calls like any other here, so the system has more runs than the program.
`windowSize` and `connectionWindow` are `int32`. The other fields of a stream's
window only tell what happened: `credit` is what the peer has given the stream, `base`
the part of it that came as the initial window size, `granted` what calls were granted
of it, and `peak` the most `credit` has been.
-/

namespace Celeris.H2

/-- Arithmetic of an `int32`. -/
def int32 (x : Int) : Int := Int.bmod x (2 ^ 32)

/-- `0x7fffffff`. -/
def maxWindow : Int := 2 ^ 31 - 1

/-! ## States -/

/-- The send window of a stream, with what was given and granted. -/
structure StreamWindow where
  windowSize : Int := 0
  credit : Int := 0
  base : Int := 0
  granted : Int := 0
  peak : Int := 0
deriving DecidableEq, Repr

/-- Where a `ReserveSendWindow` call is. -/
inductive Reserve where
  /-- About to load the window of the stream. -/
  | load (stream : Nat) (want : Int)
  /-- About to swap the window of the stream, which was `sw`. -/
  | swap (stream : Nat) (want sw : Int)
  /-- About to load the window of the connection. -/
  | loadConn (stream : Nat) (streamGrant : Int)
  /-- About to swap the window of the connection, which was `cw`. -/
  | swapConn (stream : Nat) (streamGrant cw : Int)
  /-- About to refund what the connection did not grant. -/
  | refund (stream : Nat) (streamGrant connGrant : Int)
  /-- Returned. -/
  | done (connGrant : Int)
deriving DecidableEq, Repr

/-- Where the event loop is. -/
inductive Loop where
  | idle
  /-- In `handleWindowUpdate`, about to load the window of a stream. -/
  | loadUpdate (stream : Nat) (increment : Int)
  /-- About to swap it. -/
  | swapUpdate (stream : Nat) (increment old : Int)
  /-- In `handleWindowUpdate`, about to load the window of the connection. -/
  | loadConnUpdate (increment : Int)
  /-- About to swap it. -/
  | swapConnUpdate (increment old : Int)
  /-- In `handleSettings`, with the streams that are not adjusted yet. -/
  | settings (delta : Int) (todo : List Nat)
  /-- About to add to the window of a stream that has passed the check. -/
  | adjust (delta : Int) (todo : List Nat) (stream : Nat)
  /-- An error has ended the connection. -/
  | ended
deriving DecidableEq, Repr

/-- The windows of a connection, its calls and its event loop. -/
structure Windows where
  streams : List Nat := []
  stream : Nat → StreamWindow := fun _ => {}
  connectionWindow : Int := 65535
  connCredit : Int := 65535
  connGranted : Int := 0
  initialWindowSize : Int := 65535
  calls : List Reserve := []
  loop : Loop := .idle

namespace Windows

def setStream (s : Windows) (i : Nat) (w : StreamWindow) : Windows :=
  { s with stream := Function.update s.stream i w }

def setWindow (s : Windows) (i : Nat) (size : Int) : Windows :=
  s.setStream i { s.stream i with windowSize := size }

/-- The peer gives a stream credit, or takes some back: `windowSize` becomes `size`, and
what came as the initial window size `base`. -/
def giveStream (s : Windows) (i : Nat) (delta base size : Int) : Windows :=
  s.setStream i
    { s.stream i with
      windowSize := size
      credit := (s.stream i).credit + delta
      base := base
      peak := max (s.stream i).peak ((s.stream i).credit + delta) }

/-- The connection grants a call some of its window. -/
def grant (s : Windows) (i : Nat) (amount : Int) : Windows :=
  { s.setStream i { s.stream i with granted := (s.stream i).granted + amount } with
    connectionWindow := int32 (s.connectionWindow - amount)
    connGranted := s.connGranted + amount }

/-! ## Steps of a call -/

/-- One atomic operation of `ReserveSendWindow`. -/
def reserve (s : Windows) : Reserve → Option (Windows × Reserve)
  | .load i want =>
    let sw := (s.stream i).windowSize
    if sw ≤ 0 then some (s, .done 0) else some (s, .swap i want sw)
  | .swap i want sw =>
    let streamGrant := if want > sw then sw else want
    if (s.stream i).windowSize = sw then
      some (s.setWindow i (int32 (sw - streamGrant)), .loadConn i streamGrant)
    else some (s, .load i want)
  | .loadConn i streamGrant =>
    let cw := s.connectionWindow
    if cw ≤ 0 then some (s, .refund i streamGrant 0) else some (s, .swapConn i streamGrant cw)
  | .swapConn i streamGrant cw =>
    let connGrant := if streamGrant > cw then cw else streamGrant
    if s.connectionWindow = cw then some (s.grant i connGrant, .refund i streamGrant connGrant)
    else some (s, .loadConn i streamGrant)
  | .refund i streamGrant connGrant =>
    if connGrant < streamGrant then
      some (s.setWindow i (int32 ((s.stream i).windowSize + (streamGrant - connGrant))),
        .done connGrant)
    else some (s, .done connGrant)
  | .done _ => none

/-! ## Steps of the event loop -/

/-- One atomic operation of `handleWindowUpdate`, or the addition of
`handleSettings`. -/
def advance (s : Windows) : Option Windows :=
  match s.loop with
  | .loadUpdate i increment =>
    let old := (s.stream i).windowSize
    if old + increment > maxWindow then some { s with loop := .ended }
    else some { s with loop := .swapUpdate i increment old }
  | .swapUpdate i increment old =>
    if (s.stream i).windowSize = old then
      some { s.giveStream i increment (s.stream i).base (int32 (old + increment)) with
        loop := .idle }
    else some { s with loop := .loadUpdate i increment }
  | .loadConnUpdate increment =>
    let old := s.connectionWindow
    if old + increment > maxWindow then some { s with loop := .ended }
    else some { s with loop := .swapConnUpdate increment old }
  | .swapConnUpdate increment old =>
    if s.connectionWindow = old then
      some { s with
        connectionWindow := int32 (old + increment)
        connCredit := s.connCredit + increment
        loop := .idle }
    else some { s with loop := .loadConnUpdate increment }
  | .settings _ [] => some { s with loop := .idle }
  | .adjust delta todo i =>
    some { s.giveStream i delta ((s.stream i).base + delta)
        (int32 ((s.stream i).windowSize + delta)) with
      loop := .settings delta todo }
  | _ => none

/-- What can happen. -/
inductive Action where
  /-- The event loop opens a stream. -/
  | openStream (stream : Nat)
  /-- `ReserveSendWindow` is called. -/
  | call (stream : Nat) (want : Int)
  /-- A call makes its next operation. -/
  | reserve (call : Nat)
  /-- A `WINDOW_UPDATE` for a stream arrives. -/
  | update (stream : Nat) (increment : Int)
  /-- A `WINDOW_UPDATE` for the connection arrives. -/
  | connUpdate (increment : Int)
  /-- A `SETTINGS_INITIAL_WINDOW_SIZE` arrives. -/
  | settings (value : Int)
  /-- The event loop makes its next operation. -/
  | advance
  /-- The loop of `handleSettings` comes to a stream and checks its window; the order
  of a map is any order. -/
  | pick (stream : Nat)
deriving DecidableEq, Repr

def step (s : Windows) : Action → Option Windows
  | .openStream i =>
    if s.loop = .idle ∧ i ∉ s.streams then
      let size := s.initialWindowSize
      some { s.setStream i ⟨size, size, size, 0, size⟩ with streams := i :: s.streams }
    else none
  | .call i want =>
    if i ∈ s.streams ∧ 0 < want ∧ want ≤ maxWindow then
      some { s with calls := s.calls ++ [.load i want] }
    else none
  | .reserve k => do
    let c ← s.calls[k]?
    let (t, c') ← s.reserve c
    some { t with calls := s.calls.set k c' }
  | .update i increment =>
    if s.loop = .idle ∧ i ∈ s.streams ∧ 0 < increment ∧ increment ≤ maxWindow then
      some { s with loop := .loadUpdate i increment }
    else none
  | .connUpdate increment =>
    if s.loop = .idle ∧ 0 < increment ∧ increment ≤ maxWindow then
      some { s with loop := .loadConnUpdate increment }
    else none
  | .settings value =>
    if s.loop = .idle ∧ 0 ≤ value then
      if value > maxWindow then some { s with loop := .ended }
      else some { s with
        initialWindowSize := value
        loop := .settings (int32 (value - s.initialWindowSize)) s.streams }
    else none
  | .advance => s.advance
  | .pick i =>
    match s.loop with
    | .settings delta todo =>
      if i ∈ todo then
        if delta > 0 ∧ (s.stream i).windowSize > maxWindow - delta then
          some { s with loop := .ended }
        else some { s with loop := .adjust delta (todo.erase i) i }
      else none
    | _ => none

end Windows

end Celeris.H2
