import Celeris.Data.BigEndian
import Celeris.Data.Bytes
import Mathlib.Logic.Function.Basic

/-!
# The reply decoder of the memcached driver (`driver/memcached/state.go`)

Requests wait on a queue, the bridge, in the order they were written. In the text
dialect the decoder matches a reply line with the request at the head; a `get` or a
`stats` is answered by many lines, and the decoder remembers the request that the lines
belong to in a pointer of its own until `END`. In the binary dialect it looks at the
head for every packet.

Requests come from a pool and go back to it, so the model keeps them in a heap and
speaks of them by their address.
-/

namespace Celeris.Memcached

/-! ## Replies -/

/-- The kinds of a text reply. -/
inductive Kind where
  | stored
  | notStored
  | keyExists
  | notFound
  | deleted
  | touched
  | ok
  | endMark
  | value
  | stat
  | number
  | version
  | error
  | clientError
  | serverError
deriving DecidableEq, Repr

def Kind.string : Kind → String
  | .stored => "STORED"
  | .notStored => "NOT_STORED"
  | .keyExists => "EXISTS"
  | .notFound => "NOT_FOUND"
  | .deleted => "DELETED"
  | .touched => "TOUCHED"
  | .ok => "OK"
  | .endMark => "END"
  | .value => "VALUE"
  | .stat => "STAT"
  | .number => "NUMBER"
  | .version => "VERSION"
  | .error => "ERROR"
  | .clientError => "CLIENT_ERROR"
  | .serverError => "SERVER_ERROR"

/-- One reply line, or a `VALUE` block. -/
structure TextReply where
  kind : Kind
  key : Bytes := []
  flags : UInt32 := 0
  cas : UInt64 := 0
  int : UInt64 := 0
  data : Bytes := []
deriving DecidableEq, Repr

/-- The opcodes of the binary protocol that the driver uses. -/
inductive Opcode where
  | get
  | set
  | add
  | replace
  | delete
  | increment
  | decrement
  | noop
  | getKQ
  | append
  | prepend
  | stat
  | touch
deriving DecidableEq, Repr

/-- One binary packet; the lengths of its header are those of its parts. -/
structure BinaryPacket where
  opcode : Opcode
  status : UInt16 := 0
  opaqueId : UInt32 := 0
  cas : UInt64 := 0
  extras : Bytes := []
  key : Bytes := []
  value : Bytes := []
deriving DecidableEq, Repr

def BinaryPacket.bodyLen (p : BinaryPacket) : Nat := p.extras.length + p.key.length + p.value.length

/-- The longest value, or body, that the readers accept: 128 MiB. -/
def maxValueLen : Nat := 128 * 1024 * 1024

/-! ## Requests -/

/-- The errors that commands return: the sentinels of the package, errors of the server,
and what ends a connection. -/
inductive ClientError where
  | cacheMiss
  | notStored
  | casConflict
  | malformedKey
  | invalidCAS
  | protocol
  | memcached (kind : String) (status : UInt16) (msg : Bytes)
  | connection (text : String)
  /-- The tag of a binary packet is not the one of the request at the head. -/
  | opaqueMismatch (got expected : UInt32)
deriving DecidableEq, Repr

/-- A `VALUE` reply, or a hit of the binary protocol. -/
structure ValueItem where
  key : Bytes
  flags : UInt32 := 0
  cas : UInt64 := 0
  data : Bytes
deriving DecidableEq, Repr

/-- A `STAT` line. -/
structure StatItem where
  name : Bytes
  value : Bytes
deriving DecidableEq, Repr

/-- How a request is answered; the many-packet replies of the binary protocol end with a
packet that `terminates`. -/
inductive ReplyKind where
  | statusOnly
  | get
  | arith
  | stats
  | binary
  | binaryMulti (stats : Bool)
deriving DecidableEq, Repr

/-- `mcRequest`. -/
structure Request where
  kind : ReplyKind := .statusOnly
  opaqueId : UInt32 := 0
  values : List ValueItem := []
  stats : List StatItem := []
  number : UInt64 := 0
  version : Bytes := []
  status : Kind := .stored
  binStatus : UInt16 := 0
  resultErr : Option ClientError := none
  finished : Bool := false
deriving DecidableEq, Repr

/-- `isGetMultiTerminator` and `isStatsTerminator`. -/
def terminates (stats : Bool) (p : BinaryPacket) : Bool :=
  if stats then p.opcode = .stat ∧ p.key.length = 0 ∧ p.bodyLen = 0 else p.opcode = .noop

/-- `mcState`, with the requests that the pool has handed out: `owned` are in the hands of
callers, of this connection or another. -/
structure State where
  heap : Nat → Request := fun _ => {}
  owned : List Nat := []
  bridge : List Nat := []
  pendingGet : Option Nat := none
  pendingStats : Option Nat := none

namespace State

/-- Change a request. -/
def modify (s : State) (r : Nat) (f : Request → Request) : State :=
  { s with heap := Function.update s.heap r (f (s.heap r)) }

def pop (s : State) : State := { s with bridge := s.bridge.tail }

def drainWithError (s : State) (e : ClientError) : State :=
  { s with
    heap := fun r => if r ∈ s.bridge then { s.heap r with resultErr := some e, finished := true }
      else s.heap r
    bridge := [] }

/-! ## The text dialect -/

/-- The request that `END` is for is finished; it must be the one at the head. -/
def finishEnd (s : State) (r : Nat) : Except ClientError State :=
  if s.bridge.head? = some r then
    .ok (s.pop.modify r fun q => { q with status := .endMark, finished := true })
  else .error (.connection "celeris-memcached: bridge head mismatch on END")

/-- What a single-line reply makes of its request. -/
def settle (v : TextReply) (q : Request) : Request :=
  let q := { q with status := v.kind, finished := true }
  match v.kind with
  | .number => { q with number := v.int }
  | .version => { q with version := v.data }
  | .error => { q with resultErr := some (.memcached "ERROR" 0 []) }
  | .clientError => { q with resultErr := some (.memcached "CLIENT_ERROR" 0 v.data) }
  | .serverError => { q with resultErr := some (.memcached "SERVER_ERROR" 0 v.data) }
  | _ => q

/-- A `VALUE` line is added to a request. -/
def addValue (v : TextReply) (q : Request) : Request :=
  { q with values := q.values ++ [⟨v.key, v.flags, v.cas, v.data⟩] }

/-- A `STAT` line is added to a request. -/
def addStat (v : TextReply) (q : Request) : Request :=
  { q with stats := q.stats ++ [⟨v.key, v.data⟩] }

def dispatchText (s : State) (v : TextReply) : Except ClientError State :=
  match v.kind with
  | .value =>
    match s.pendingGet, s.bridge with
    | some r, _ => .ok (s.modify r (addValue v))
    | none, [] => .error (.connection "celeris-memcached: unexpected VALUE with empty queue")
    | none, r :: _ => .ok ({ s with pendingGet := some r }.modify r (addValue v))
  | .endMark =>
    match s.pendingGet, s.pendingStats, s.bridge with
    | some r, _, _ => { s with pendingGet := none }.finishEnd r
    | none, some r, _ => { s with pendingStats := none }.finishEnd r
    | none, none, [] => .error (.connection "celeris-memcached: unexpected END with empty queue")
    | none, none, r :: _ => s.finishEnd r
  | .stat =>
    match s.pendingStats, s.bridge with
    | some r, _ => .ok (s.modify r (addStat v))
    | none, [] => .error (.connection "celeris-memcached: unexpected STAT with empty queue")
    | none, r :: _ => .ok ({ s with pendingStats := some r }.modify r (addStat v))
  | _ =>
    match s.bridge with
    | [] => .error (.connection "celeris-memcached: unexpected server reply with empty queue")
    | r :: _ => .ok (s.pop.modify r (settle v))

/-! ## The binary dialect -/

/-- The flags in the extras of a packet, if there are four bytes of them. -/
def packetFlags (p : BinaryPacket) : UInt32 :=
  if 4 ≤ p.extras.length then UInt32.ofNat (BigEndian.value (p.extras.take 4)) else 0

def packetItem (p : BinaryPacket) : ValueItem := ⟨p.key, packetFlags p, p.cas, p.value⟩

/-- What the packet that answers a request makes of it. -/
def settleBinary (p : BinaryPacket) (q : Request) : Request :=
  let q := { q with binStatus := p.status, finished := true }
  if p.status = 0 then
    if p.value ≠ [] then { q with values := q.values ++ [packetItem p] }
    else if p.cas ≠ 0 then { q with number := p.cas }
    else q
  else { q with resultErr := some (.memcached "" p.status p.value) }

/-- What a packet in the middle of a reply makes of its request. -/
def accumulate (p : BinaryPacket) (q : Request) : Request :=
  if p.status = 0 then
    if p.opcode = .stat then { q with stats := q.stats ++ [⟨p.key, p.value⟩] }
    else { q with values := q.values ++ [packetItem p] }
  else { q with resultErr := q.resultErr.or (some (.memcached "" p.status p.value)) }

/-- What the last packet of a reply makes of its request. -/
def terminate (p : BinaryPacket) (q : Request) : Request :=
  let q := { q with binStatus := p.status, finished := true }
  if p.status ≠ 0 then { q with
    resultErr := q.resultErr.or (some (.memcached "" p.status p.value)) } else q

def dispatchBinary (s : State) (p : BinaryPacket) : Except ClientError State :=
  match s.bridge with
  | [] => .error (.connection "celeris-memcached: unexpected server reply with empty queue")
  | r :: _ =>
    match (s.heap r).kind with
    | .binaryMulti stats =>
      if terminates stats p then .ok (s.pop.modify r (terminate p))
        else .ok (s.modify r (accumulate p))
    | _ =>
      if p.opaqueId ≠ (s.heap r).opaqueId then
        .error (.opaqueMismatch p.opaqueId (s.heap r).opaqueId)
      else .ok (s.pop.modify r (settleBinary p))

end State

end Celeris.Memcached
