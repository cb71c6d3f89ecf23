import Celeris.Memcached.State
import Mathlib.Algebra.Ring.Nat
import Mathlib.Data.FinEnum

/-!
# The commands of the memcached driver (`driver/memcached/commands.go`)

A command is written in the dialect of its connection, and its request waits on the bridge
until the decoder has finished it; what the decoder leaves in the request is translated to a
value or an error of the package.

The server is the one that the published protocols describe. It has one store and does the
same for a command of either dialect; only the words of its answer differ.
-/

namespace Celeris.Memcached

/-! ## What is written -/

/-- The storage commands of the text dialect. -/
inductive Storage where
  | set
  | add
  | replace
  | append
  | prepend
  | cas
deriving DecidableEq, Repr

/-- A command of the text dialect: the words of its line, and its data block. -/
inductive TextCommand where
  | storage (cmd : Storage) (key : Bytes) (flags : UInt32) (exptime : Int) (data : Bytes)
      (casID : UInt64)
  /-- `get`, or `gets` where the tokens are asked for. -/
  | retrieval (cas : Bool) (keys : List Bytes)
  /-- `incr` or `decr`. -/
  | arith (incr : Bool) (key : Bytes) (delta : UInt64)
  | delete (key : Bytes)
  | touch (key : Bytes) (exptime : Int)
deriving DecidableEq, Repr

/-- A request of the binary dialect: the fields of its header, and the bytes written after it. -/
structure BinaryRequest where
  opcode : Opcode
  keyLen : UInt16
  extrasLen : UInt8
  bodyLen : UInt32
  opaqueId : UInt32
  cas : UInt64
  body : Bytes
deriving DecidableEq, Repr

def appendRequest (opcode : Opcode) (extras key value : Bytes) (cas : UInt64) (opaqueId : UInt32) :
    BinaryRequest where
  opcode := opcode
  keyLen := UInt16.ofNat key.length
  extrasLen := UInt8.ofNat extras.length
  bodyLen := UInt32.ofNat (extras.length + key.length + value.length)
  opaqueId := opaqueId
  cas := cas
  body := extras ++ key ++ value

/-- `AppendStorage` of the binary writer. -/
def appendStorage (opcode : Opcode) (key value : Bytes) (flags exptime : UInt32) (cas : UInt64)
    (opaqueId : UInt32) : BinaryRequest :=
  appendRequest opcode (BigEndian.bytes 4 flags.toNat ++ BigEndian.bytes 4 exptime.toNat) key value
    cas opaqueId

def appendConcat (opcode : Opcode) (key value : Bytes) (cas : UInt64) (opaqueId : UInt32) :
    BinaryRequest :=
  appendRequest opcode [] key value cas opaqueId

def appendGet (opcode : Opcode) (key : Bytes) (opaqueId : UInt32) : BinaryRequest :=
  appendRequest opcode [] key [] 0 opaqueId

/-- `AppendDelete` of the binary writer. -/
def appendDelete (key : Bytes) (cas : UInt64) (opaqueId : UInt32) : BinaryRequest :=
  appendRequest .delete [] key [] cas opaqueId

/-- `AppendArith` of the binary writer. -/
def appendArith (opcode : Opcode) (key : Bytes) (delta initial : UInt64)
    (exptime opaqueId : UInt32) : BinaryRequest :=
  appendRequest opcode
    (BigEndian.bytes 8 delta.toNat ++ BigEndian.bytes 8 initial.toNat ++
      BigEndian.bytes 4 exptime.toNat)
    key [] 0 opaqueId

/-- `AppendTouch` of the binary writer. -/
def appendTouch (key : Bytes) (exptime opaqueId : UInt32) : BinaryRequest :=
  appendRequest .touch (BigEndian.bytes 4 exptime.toNat) key [] 0 opaqueId

/-- `AppendSimple` of the binary writer. -/
def appendSimple (opcode : Opcode) (opaqueId : UInt32) : BinaryRequest :=
  appendRequest opcode [] [] [] 0 opaqueId

/-! ## The server -/

/-- An item of the store. -/
structure Item where
  value : Bytes
  flags : UInt32
  cas : UInt64
deriving DecidableEq, Repr

/-- The store, the length of the longest value it takes, and the token of the next item. -/
structure Server where
  items : Bytes → Option Item
  limit : Nat
  nextCas : UInt64 := 1

/-- What becomes of a storage command. -/
inductive Outcome where
  | stored
  /-- An `add` finds the key. -/
  | present
  /-- A `replace` does not find it. -/
  | absent
  /-- An `append` or a `prepend` cannot be done. -/
  | notStored
  /-- A `cas` finds another token. -/
  | conflict
  /-- A `cas` does not find the key. -/
  | notFound
  | tooLarge
deriving DecidableEq, Repr

/-- What becomes of an `incr` or a `decr`. -/
inductive Counted where
  | number (n : UInt64)
  | missing
  | notNumeric
deriving DecidableEq, Repr

/-- The number that a value is. -/
def decimal (b : Bytes) : Option UInt64 :=
  let n := b.foldl (fun n c => n * 10 + (c.toNat - 0x30)) 0
  if b ≠ [] ∧ (∀ c ∈ b, 0x30 ≤ c ∧ c ≤ 0x39) ∧ n < 2 ^ 64 then some (UInt64.ofNat n) else none

namespace Server

/-- A storage command with a value that is not too long. -/
def place (srv : Server) (cmd : Storage) (key value : Bytes) (casID : UInt64) : Outcome :=
  match cmd, srv.items key with
  | .set, _ => .stored
  | .add, none => .stored
  | .add, some _ => .present
  | .replace, none => .absent
  | .replace, some _ => .stored
  | .append, none | .prepend, none => .notStored
  | .append, some it | .prepend, some it =>
    if srv.limit < it.value.length + value.length then .notStored else .stored
  | .cas, none => .notFound
  | .cas, some it => if it.cas = casID then .stored else .conflict

/-- A storage command; the length of the value is looked at before the key. -/
def store (srv : Server) (cmd : Storage) (key value : Bytes) (casID : UInt64) : Outcome :=
  if srv.limit < value.length then .tooLarge else srv.place cmd key value casID

/-- `incr` wraps around at 2^64, and `decr` stops at 0. -/
def count (srv : Server) (incr : Bool) (key : Bytes) (delta : UInt64) : Counted :=
  match srv.items key with
  | none => .missing
  | some it =>
    match decimal it.value with
    | none => .notNumeric
    | some n => .number (if incr then n + delta else if n < delta then 0 else n - delta)

/-- The answer to a storage command, in the text dialect. -/
def textOutcome : Outcome → TextReply
  | .stored => { kind := .stored }
  | .present | .absent | .notStored => { kind := .notStored }
  | .conflict => { kind := .keyExists }
  | .notFound => { kind := .notFound }
  | .tooLarge => { kind := .serverError, data := ascii "object too large for cache" }

/-- A hit, in the text dialect. -/
def textItem (cas : Bool) (key : Bytes) (it : Item) : TextReply :=
  { kind := .value, key := key, flags := it.flags, cas := if cas then it.cas else 0,
    data := it.value }

/-- The replies to a command of the text dialect. -/
def answerText (srv : Server) : TextCommand → List TextReply
  | .storage cmd key _ _ data casID => [textOutcome (srv.store cmd key data casID)]
  | .retrieval cas keys =>
    keys.filterMap (fun key => (srv.items key).map (textItem cas key)) ++ [{ kind := .endMark }]
  | .arith incr key delta =>
    match srv.count incr key delta with
    | .number n => [{ kind := .number, int := n }]
    | .missing => [{ kind := .notFound }]
    | .notNumeric =>
      [{ kind := .clientError, data := ascii "cannot increment or decrement non-numeric value" }]
  | .delete key => [{ kind := if (srv.items key).isSome then .deleted else .notFound }]
  | .touch key _ => [{ kind := if (srv.items key).isSome then .touched else .notFound }]

end Server

/-- The extras, the key and the value that the server cuts from the stream by the lengths in
the header; none where the lengths contradict each other. -/
def BinaryRequest.parts (q : BinaryRequest) : Option (Bytes × Bytes × Bytes) :=
  let body := q.body.take q.bodyLen.toNat
  let keyEnd := q.extrasLen.toNat + q.keyLen.toNat
  if q.bodyLen.toNat < keyEnd then none
  else some (body.take q.extrasLen.toNat, (body.take keyEnd).drop q.extrasLen.toNat,
    body.drop keyEnd)

/-- A packet that answers a request. -/
def BinaryRequest.reply (q : BinaryRequest) (status : UInt16) (message : Bytes) : BinaryPacket :=
  { opcode := q.opcode, status := status, opaqueId := q.opaqueId, value := message }

namespace Server

/-- The answer to a storage command, in the binary dialect. -/
def binaryOutcome (srv : Server) (q : BinaryRequest) : Outcome → BinaryPacket
  | .stored => { q.reply 0 [] with cas := srv.nextCas }
  | .present | .conflict => q.reply 2 (ascii "Data exists for key.")
  | .absent | .notFound => q.reply 1 (ascii "Not found")
  | .notStored => q.reply 5 (ascii "Not stored.")
  | .tooLarge => q.reply 3 (ascii "Too large.")

/-- A hit, in the binary dialect. -/
def binaryItem (q : BinaryRequest) (key : Bytes) (it : Item) : BinaryPacket :=
  { q.reply 0 it.value with cas := it.cas, extras := BigEndian.bytes 4 it.flags.toNat, key := key }

/-- The packets that answer a request whose parts are these. A counter that is missing is
made from the initial value, unless the expiration is all ones. -/
def answerParts (srv : Server) (q : BinaryRequest) (extras key value : Bytes) : List BinaryPacket :=
  let arith (incr : Bool) : BinaryPacket :=
    match srv.count incr key (UInt64.ofNat (BigEndian.value (extras.take 8))) with
    | .number n => q.reply 0 (BigEndian.bytes 8 n.toNat)
    | .missing =>
      if BigEndian.value (extras.drop 16) = 0xFFFFFFFF then q.reply 1 (ascii "Not found")
      else q.reply 0 ((extras.drop 8).take 8)
    | .notNumeric => q.reply 6 (ascii "Non-numeric server-side value for incr or decr")
  let found : BinaryPacket :=
    if (srv.items key).isSome then q.reply 0 [] else q.reply 1 (ascii "Not found")
  match q.opcode with
  | .set => [srv.binaryOutcome q (srv.store (if q.cas = 0 then .set else .cas) key value q.cas)]
  | .add => [srv.binaryOutcome q (srv.store .add key value q.cas)]
  | .replace => [srv.binaryOutcome q (srv.store .replace key value q.cas)]
  | .append => [srv.binaryOutcome q (srv.store .append key value q.cas)]
  | .prepend => [srv.binaryOutcome q (srv.store .prepend key value q.cas)]
  | .get =>
    match srv.items key with
    | some it => [binaryItem q [] it]
    | none => [q.reply 1 (ascii "Not found")]
  | .getKQ => ((srv.items key).map (binaryItem q key)).toList
  | .increment => [arith true]
  | .decrement => [arith false]
  | .delete | .touch => [found]
  | .noop | .stat => [q.reply 0 []]

/-- The packets that answer a request of the binary dialect. -/
def answerBinary (srv : Server) (q : BinaryRequest) : List BinaryPacket :=
  match q.parts with
  | none => [q.reply 4 (ascii "Invalid arguments")]
  | some (extras, key, value) => srv.answerParts q extras key value

end Server

/-! ## The round trip -/

/-- The readers refuse a reply that is too long: a data block in the text dialect, and a body
in the binary dialect. -/
def TextReply.readable (v : TextReply) : Bool := v.kind ≠ .value ∨ v.data.length ≤ maxValueLen

@[inherit_doc TextReply.readable]
def BinaryPacket.readable (p : BinaryPacket) : Bool := p.bodyLen ≤ maxValueLen

/-- `ErrProtocol` of the readers, which is not the error of that name of the package. -/
def readerError : ClientError := .connection "celeris-memcached-protocol: protocol error"

namespace State

/-- The loop of `processText` and `processBinary` over the replies that have arrived. -/
def process {α : Type} (readable : α → Bool) (dispatch : State → α → Except ClientError State)
    (s : State) : List α → State × Option ClientError
  | [] => (s, none)
  | v :: vs =>
    if readable v then
      match dispatch s v with
      | .ok t => t.process readable dispatch vs
      | .error e => (s, some e)
    else (s, some readerError)

/-- `onRecv`: the requests of a connection that has failed are finished with the error. -/
def onRecv : State × Option ClientError → State
  | (s, none) => s
  | (s, some e) => s.drainWithError e

/-- A request is put on the bridge. -/
def enqueue (s : State) (r : Nat) (q : Request) : State :=
  { s with heap := Function.update s.heap r q, bridge := s.bridge ++ [r] }

end State

/-- A connection: its dialect, its decoder, the last tag it gave to a request, and the address
of the request that the pool hands out next. -/
structure Conn where
  binary : Bool
  state : State
  opaqueId : UInt32
  request : Nat

/-- No request waits for its reply. -/
structure Conn.Idle (c : Conn) : Prop where
  bridge : c.state.bridge = []
  pendingGet : c.state.pendingGet = none
  pendingStats : c.state.pendingStats = none

/-- A request has been written and its replies have been received. -/
def Conn.exchange {α : Type} (c : Conn) (readable : α → Bool)
    (dispatch : State → α → Except ClientError State) (q : Request) (replies : List α) : Request :=
  (State.onRecv ((c.state.enqueue c.request q).process readable dispatch replies)).heap c.request

/-- `execText`: the error of the request is returned. -/
def execText (srv : Server) (c : Conn) (kind : ReplyKind) (cmd : TextCommand) :
    Except ClientError Request :=
  let q := c.exchange TextReply.readable State.dispatchText { kind := kind } (srv.answerText cmd)
  match q.resultErr with
  | some e => .error e
  | none => .ok q

/-- `execBinary`: the error of the request is left to the caller. -/
def execBinary (srv : Server) (c : Conn) (encode : UInt32 → BinaryRequest) : Request :=
  c.exchange BinaryPacket.readable State.dispatchBinary
    { kind := .binary, opaqueId := c.opaqueId + 1 } (srv.answerBinary (encode (c.opaqueId + 1)))

def execBinaryMulti (srv : Server) (c : Conn) (encode : UInt32 → List BinaryRequest) : Request :=
  c.exchange BinaryPacket.readable State.dispatchBinary
    { kind := .binaryMulti false, opaqueId := c.opaqueId + 1 }
    ((encode (c.opaqueId + 1)).flatMap srv.answerBinary)

/-! ## The commands -/

/-- `exptime`, in seconds for a duration in nanoseconds; `now` is the time in seconds. -/
def exptime (now ttl : Int) : Int :=
  if ttl ≤ 0 then 0
  else
    let secs := max (ttl / 1000000000) 1
    if 60 * 60 * 24 * 30 < secs then now + secs else secs

def exptimeFromSeconds (s : Int) : UInt32 :=
  if s < 0 then 0 else UInt32.ofNat (min s.toNat 0xFFFFFFFF)

def validateKey (key : Bytes) : Except ClientError Unit :=
  if key.length = 0 ∨ 250 < key.length ∨ ∃ b ∈ key, b ≤ 0x20 ∨ b = 0x7f then .error .malformedKey
    else .ok ()

/-- An answer that a command does not know. -/
def unexpected (q : Request) : ClientError := .memcached "UNEXPECTED" 0 (ascii q.status.string)

def binaryStorageOp : Storage → Except ClientError Opcode
  | .set => .ok .set
  | .add => .ok .add
  | .replace => .ok .replace
  | .append => .ok .append
  | .prepend => .ok .prepend
  | .cas => .error (.connection "celeris-memcached: no binary opcode for \"cas\"")

def translateTextStorage (q : Request) : Except ClientError Unit :=
  match q.resultErr, q.status with
  | some e, _ => .error e
  | none, .stored => .ok ()
  | none, .notStored => .error .notStored
  | none, .keyExists => .error .casConflict
  | none, .notFound => .error .cacheMiss
  | none, _ => .error (unexpected q)

def translateBinaryStorage (q : Request) : Except ClientError Unit :=
  if q.binStatus = 0 then .ok ()
  else if q.binStatus = 1 then .error .cacheMiss
  else if q.binStatus = 2 then .error .casConflict
  else if q.binStatus = 5 then .error .notStored
  else .error (q.resultErr.getD (.memcached "" q.binStatus []))

/-- What a command makes of a status of the binary dialect that it has no word for: the error
of the request, and the value `out` where there is none. -/
def otherwise {α : Type} (q : Request) (out : α) : Except ClientError α :=
  match q.resultErr with
  | some e => .error e
  | none => .ok out

/-- What `Gets` returns. -/
structure CASItem where
  key : Bytes
  value : Bytes
  flags : UInt32
  cas : UInt64
deriving DecidableEq, Repr

section Commands

variable (srv : Server) (c : Conn) (now : Int)

def storeCmd (cmd : Storage) (key value : Bytes) (ttl : Int) : Except ClientError Unit := do
  validateKey key
  if c.binary then
    let opcode ← binaryStorageOp cmd
    let exp := exptimeFromSeconds (exptime now ttl)
    translateBinaryStorage (execBinary srv c fun opaqueId =>
      if opcode = .append ∨ opcode = .prepend then appendConcat opcode key value 0 opaqueId
      else appendStorage opcode key value 0 exp 0 opaqueId)
  else
    let q ← execText srv c .statusOnly (.storage cmd key 0 (exptime now ttl) value 0)
    translateTextStorage q

/-- `casBytes`; the value is whether the item was swapped. -/
def casBytes (key value : Bytes) (casID : UInt64) (ttl : Int) : Except ClientError Bool :=
  if c.binary then
    let exp := exptimeFromSeconds (exptime now ttl)
    let q := execBinary srv c (appendStorage .set key value 0 exp casID)
    if q.binStatus = 0 then .ok true
    else if q.binStatus = 2 then .error .casConflict
    else if q.binStatus = 1 then .error .cacheMiss
    else otherwise q false
  else do
    let q ← execText srv c .statusOnly (.storage .cas key 0 (exptime now ttl) value casID)
    match q.status with
    | .stored => .ok true
    | .keyExists => .error .casConflict
    | .notFound => .error .cacheMiss
    | .notStored => .error .notStored
    | _ => .error (q.resultErr.getD (unexpected q))

/-- `CASBytes`. -/
def casCmd (key value : Bytes) (casID : UInt64) (ttl : Int) : Except ClientError Bool := do
  validateKey key
  if casID = 0 then .error .invalidCAS else casBytes srv c now key value casID ttl

def getBytes (key : Bytes) : Except ClientError Bytes := do
  validateKey key
  if c.binary then
    let q := execBinary srv c (appendGet .get key)
    if q.binStatus = 0 then .ok (q.values.head?.elim [] (·.data))
    else if q.binStatus = 1 then .error .cacheMiss
    else otherwise q []
  else
    let q ← execText srv c .get (.retrieval false [key])
    match q.resultErr, q.values with
    | some e, _ => .error e
    | none, [] => .error .cacheMiss
    | none, v :: _ => .ok v.data

def encodeGetMultiBatch (opaqueId : UInt32) : List Bytes → List BinaryRequest
  | [] => [appendSimple .noop (opaqueId + 1)]
  | key :: keys => appendGet .getKQ key (opaqueId + 1) :: encodeGetMultiBatch (opaqueId + 1) keys

/-- The map that is filled with the values of a request. -/
def valueMap (values : List ValueItem) : Bytes → Option Bytes :=
  values.foldl (fun out v => Function.update out v.key (some v.data)) fun _ => none

/-- `GetMultiBytes`; a key that is missing is not in the map. -/
def getMultiBytes (keys : List Bytes) : Except ClientError (Bytes → Option Bytes) :=
  if keys = [] then .ok (valueMap [])
  else do
    keys.forM validateKey
    if c.binary then
      let q := execBinaryMulti srv c (encodeGetMultiBatch · keys)
      otherwise q (valueMap q.values)
    else
      let q ← execText srv c .get (.retrieval false keys)
      otherwise q (valueMap q.values)

def gets (key : Bytes) : Except ClientError CASItem := do
  validateKey key
  if c.binary then
    let q := execBinary srv c (appendGet .get key)
    if q.binStatus = 0 then
      match q.values with
      | [] => .error .cacheMiss
      | v :: _ => .ok ⟨key, v.data, v.flags, v.cas⟩
    else if q.binStatus = 1 then .error .cacheMiss
    else otherwise q ⟨[], [], 0, 0⟩
  else
    let q ← execText srv c .get (.retrieval true [key])
    match q.resultErr, q.values with
    | some e, _ => .error e
    | none, [] => .error .cacheMiss
    | none, v :: _ => .ok ⟨v.key, v.data, v.flags, v.cas⟩

/-- `arith`, for `Incr` and `Decr`. -/
def arith (incr : Bool) (key : Bytes) (delta : UInt64) : Except ClientError UInt64 := do
  validateKey key
  if c.binary then
    let opcode := if incr then .increment else .decrement
    let q := execBinary srv c (appendArith opcode key delta 0 0xFFFFFFFF)
    if q.binStatus = 0 then
      match q.values with
      | [] => .error .protocol
      | v :: _ =>
        if v.data.length < 8 then .error .protocol
        else .ok (UInt64.ofNat (BigEndian.value (v.data.take 8)))
    else if q.binStatus = 1 then .error .cacheMiss
    else otherwise q 0
  else
    let q ← execText srv c .arith (.arith incr key delta)
    match q.status with
    | .number => .ok q.number
    | .notFound => .error .cacheMiss
    | _ => .error (q.resultErr.getD (unexpected q))

/-- `Delete`. -/
def deleteCmd (key : Bytes) : Except ClientError Unit := do
  validateKey key
  if c.binary then
    let q := execBinary srv c (appendDelete key 0)
    if q.binStatus = 0 then .ok ()
    else if q.binStatus = 1 then .error .cacheMiss
    else otherwise q ()
  else
    let q ← execText srv c .statusOnly (.delete key)
    match q.status with
    | .deleted => .ok ()
    | .notFound => .error .cacheMiss
    | _ => .error (q.resultErr.getD (unexpected q))

/-- `Touch`. -/
def touchCmd (key : Bytes) (ttl : Int) : Except ClientError Unit := do
  validateKey key
  if c.binary then
    let exp := exptimeFromSeconds (exptime now ttl)
    let q := execBinary srv c (appendTouch key exp)
    if q.binStatus = 0 then .ok ()
    else if q.binStatus = 1 then .error .cacheMiss
    else otherwise q ()
  else
    let q ← execText srv c .statusOnly (.touch key (exptime now ttl))
    match q.status with
    | .touched => .ok ()
    | .notFound => .error .cacheMiss
    | _ => .error (q.resultErr.getD (unexpected q))

end Commands

/-! ## The operations of the client -/

/-- An operation of the client. -/
inductive Operation where
  | set (key value : Bytes) (ttl : Int)
  | add (key value : Bytes) (ttl : Int)
  | replace (key value : Bytes) (ttl : Int)
  | append (key value : Bytes)
  | prepend (key value : Bytes)
  | cas (key value : Bytes) (casID : UInt64) (ttl : Int)
  | get (key : Bytes)
  | gets (key : Bytes)
  | getMulti (keys : List Bytes)
  | incr (key : Bytes) (delta : UInt64)
  | decr (key : Bytes) (delta : UInt64)
  | delete (key : Bytes)
  | touch (key : Bytes) (ttl : Int)
deriving DecidableEq, Repr

/-- The value that an operation returns. -/
inductive Answer where
  | done
  | swapped (ok : Bool)
  | value (b : Bytes)
  | item (it : CASItem)
  | values (out : Bytes → Option Bytes)
  | number (n : UInt64)

/-- An operation on a connection to the server. -/
def Operation.run (srv : Server) (c : Conn) (now : Int) : Operation → Except ClientError Answer
  | .set key value ttl => (fun _ => .done) <$> storeCmd srv c now .set key value ttl
  | .add key value ttl => (fun _ => .done) <$> storeCmd srv c now .add key value ttl
  | .replace key value ttl => (fun _ => .done) <$> storeCmd srv c now .replace key value ttl
  | .append key value => (fun _ => .done) <$> storeCmd srv c now .append key value 0
  | .prepend key value => (fun _ => .done) <$> storeCmd srv c now .prepend key value 0
  | .cas key value casID ttl => .swapped <$> casCmd srv c now key value casID ttl
  | .get key => .value <$> getBytes srv c key
  | .gets key => .item <$> Memcached.gets srv c key
  | .getMulti keys => .values <$> getMultiBytes srv c keys
  | .incr key delta => .number <$> arith srv c true key delta
  | .decr key delta => .number <$> arith srv c false key delta
  | .delete key => (fun _ => .done) <$> deleteCmd srv c key
  | .touch key ttl => (fun _ => .done) <$> touchCmd srv c now key ttl

end Celeris.Memcached
