import Celeris.Conn.Response
import Celeris.Data.Pointwise
import Mathlib.Data.List.Dedup

/-!
# Pipelines of a cluster (`driver/redis/cluster.go`, `driver/redis/pipeline.go`)

`ClusterPipeline.Exec` groups its commands by slot, runs one `Pipeline` for each slot, and
sends the commands that were redirected once more: after a MOVED in a second round, after an
ASK one by one. The groups run in parallel and write to different indices, so their order
does not matter here.

`Pipeline.Exec` returns the first error among the replies, and the round takes that for an
error of the whole group. What one command is answered by itself is `outcome`; the results
are those of the commands themselves exactly when the first error of a group stands for each
command of it.
-/

namespace Celeris.Redis

open H1 Conn List Pointwise Function

/-! ## Replies and errors -/

/-- `protocol.Value`. Arrays, sets, maps, booleans, doubles and big integers are handed on as
they are. Attributes and pushes are not replies. -/
inductive Value (A : Type*) where
  | simple (str : Bytes)
  | error (str : Bytes)
  | int (n : Int)
  | bulk (str : Bytes)
  | null
  | blobErr (str : Bytes)
  | verbatim (str : Bytes)
  | other (a : A)
deriving DecidableEq, Repr

structure RedisError where
  errPrefix : Bytes
  msg : Bytes
deriving DecidableEq, Repr

/-- The errors that a command can end with. -/
inductive Error where
  /-- `ErrNil`. -/
  | nil
  | redis (e : RedisError)
  | other (text : String)
deriving DecidableEq, Repr

/-- `parseError`: the prefix ends at the first blank. -/
def parseError (body : Bytes) : RedisError :=
  if space ∈ body then
    let errPrefix := body.takeWhile (· ≠ space)
    ⟨errPrefix, body.drop (errPrefix.length + 1)⟩
  else ⟨[], body⟩

/-- `strings.Fields`, of ASCII text. -/
def fields (msg : Bytes) : List Bytes :=
  (msg.splitOnP fun c => c = space || (0x09 ≤ c && c ≤ 0x0d)).filter fun word => !word.isEmpty

def parseRedirectAddr (msg : Bytes) : Bytes :=
  let parts := fields msg
  if parts.length < 2 then [] else parts.getLastD []

/-! ## Commands and their requests -/

/-- `cmdKind`, of the commands that a `ClusterPipeline` queues. -/
inductive CmdKind where
  /-- `kindString`: GET. -/
  | string
  /-- `kindStatus`: SET. -/
  | status
deriving DecidableEq, Repr

structure ClusterPipeCmd where
  slot : Nat
  args : List Bytes
  kind : CmdKind
  origIdx : Nat := 0
deriving DecidableEq, Repr

variable {A : Type*}

/-- `protocol.Value` without a field set. -/
def Value.zero : Value A := .simple []

/-- `redisRequest`. `expect` is none where the reply is kept as a value. -/
structure RedisRequest (A : Type*) where
  result : Value A := .zero
  resultErr : Option Error := none
  expect : Option CmdKind
  strResult : Bytes := []
deriving DecidableEq, Repr

/-- `strconv.FormatInt` in base 10. -/
def formatInt (n : Int) : Bytes :=
  if n < 0 then ascii "-" ++ appendInt 10 n.natAbs else appendInt 10 n.natAbs

/-- The text of a verbatim string, without its format. -/
def verbatimText (b : Bytes) : Bytes :=
  if 4 ≤ b.length ∧ (b.drop 3).head? = some 0x3a then b.drop 4 else b

def extractDirect (kind : CmdKind) (v : Value A) : RedisRequest A :=
  match kind, v with
  | .string, .bulk str | .string, .simple str => { expect := some kind, strResult := str }
  | .string, .verbatim str => { expect := some kind, strResult := verbatimText str }
  | .string, .int n => { expect := some kind, strResult := formatInt n }
  | .status, .simple str | .status, .bulk str => { expect := some kind, strResult := str }
  | _, .null => { expect := some kind, resultErr := some .nil }
  | _, v => { expect := none, result := v }

/-- `dispatch`, of the reply to a request of a kind. -/
def dispatch (kind : CmdKind) (v : Value A) : RedisRequest A :=
  match v with
  | .error str | .blobErr str => { expect := none, resultErr := some (.redis (parseError str)) }
  | v => extractDirect kind v

structure PipeCmd (A : Type*) where
  kind : CmdKind
  direct : Bool := false
  str : Bytes := []
  err : Option Error := none
  val : Option (Value A) := none
deriving DecidableEq, Repr

def transferResult (pc : PipeCmd A) (r : RedisRequest A) : PipeCmd A :=
  if r.expect ≠ none ∧ r.resultErr = none then { pc with direct := true, str := r.strResult }
  else { pc with val := some r.result }

def directToValue (pc : PipeCmd A) : Value A :=
  match pc.kind with
  | .string => .bulk pc.str
  | .status => .simple pc.str

/-! ## Pipelines -/

/-- A sub-pipeline as its connection ends it: broken, or with a reply to each command. -/
abbrev Replies (A : Type*) := Except Error (Nat → Value A)

/-- `Pipeline.Exec`: the commands and the error returned. -/
def pipelineExec (replies : Replies A) (cmds : List ClusterPipeCmd) :
    List (PipeCmd A) × Option Error :=
  match replies with
  | .error err => ([], some err)
  | .ok reply =>
    let reqs := cmds.map fun c => (c.kind, dispatch c.kind (reply c.origIdx))
    (reqs.map fun (kind, r) =>
        let pc := transferResult { kind } r
        if r.resultErr = none then pc else { pc with err := r.resultErr },
      reqs.findSome? fun (_, r) => r.resultErr)

/-- The nodes as a pipeline finds them. -/
structure Cluster (A : Type*) where
  /-- The node of a slot in the first round and in the retry, if there is one, and how it
  answers the commands of the slot, by their indices. -/
  route : (isRetry : Bool) → (slot : Nat) → Option (Replies A)
  /-- The answer of the node an ASK names to a command that follows ASKING; the errors of
  finding the node, its connection and ASKING come first. -/
  ask : (addr : Bytes) → Nat → Except Error (Value A)

/-- The places of a command in `results` and `errs`. -/
structure Cell (A : Type*) where
  result : Value A
  err : Option Error
deriving DecidableEq, Repr

def noNodes : Error := .other "celeris-redis: no cluster nodes available"

/-- What the round makes of a command of a group and of what the sub-pipeline left of it. -/
def redistribute (execErr : Option Error) (pc : Option (PipeCmd A)) (c : Cell A) : Cell A :=
  match execErr with
  | some err => { c with err := some err }
  | none =>
    match pc with
    | none => c
    | some pc =>
      if pc.err ≠ none then { c with err := pc.err }
      else
        match pc.val with
        | some v => { c with result := v }
        | none => if pc.direct then { c with result := directToValue pc } else c

/-- The part of `execRound` for one slot. -/
def execGroup (cluster : Cluster A) (isRetry : Bool) (cmds : List ClusterPipeCmd)
    (cells : Nat → Cell A) (slot : Nat) : Nat → Cell A :=
  let icmds := cmds.filter (·.slot = slot)
  match cluster.route isRetry slot with
  | none =>
    icmds.foldl (fun cells ic => Function.update cells ic.origIdx
      { cells ic.origIdx with err := some noNodes }) cells
  | some replies =>
    let (pcs, execErr) := pipelineExec replies icmds
    icmds.zipIdx.foldl (fun cells (ic, i) =>
      Function.update cells ic.origIdx (redistribute execErr pcs[i]? (cells ic.origIdx))) cells

/-- `execRound` without the scan: the groups of all slots. -/
def execGroups (cluster : Cluster A) (isRetry : Bool) (cmds : List ClusterPipeCmd)
    (cells : Nat → Cell A) : Nat → Cell A :=
  (cmds.map (·.slot)).dedup.foldl (execGroup cluster isRetry cmds) cells

/-- What the scan does about an error. -/
inductive Redirect where
  | moved
  | ask (addr : Bytes)
deriving DecidableEq, Repr

/-- The redirect in an error, if it is one that is followed. -/
def redirect : Error → Option Redirect
  | .redis e =>
    if e.errPrefix = ascii "MOVED" then some .moved
    else if e.errPrefix = ascii "ASK" ∧ parseRedirectAddr e.msg ≠ [] then
      some (.ask (parseRedirectAddr e.msg))
    else none
  | _ => none

def Cell.of : Except Error (Value A) → Cell A
  | .ok v => ⟨v, none⟩
  | .error err => ⟨.zero, some err⟩

/-- The answer of `Client.Do`, which makes an error of an error reply only. -/
def doReply : Value A → Except Error (Value A)
  | .error str | .blobErr str => .error (.redis (parseError str))
  | v => .ok v

def scanCell (cluster : Cluster A) (i : Nat) (c : Cell A) : Cell A :=
  match c.err.bind redirect with
  | none => c
  | some .moved => { c with err := none }
  | some (.ask addr) =>
    match cluster.ask addr i >>= doReply with
    | .ok v => ⟨v, none⟩
    | .error err => { c with err := some err }

/-- The results and errors, the commands that are sent again in a second round, and those that
were sent again after an ASK, with the address. -/
structure Executed (A : Type*) where
  cells : Nat → Cell A
  retryCmds : List ClusterPipeCmd := []
  asked : List (Nat × Bytes) := []

/-- The scan for redirects, at one command. -/
def scanStep (cluster : Cluster A) (x : Executed A) (cmd : ClusterPipeCmd) : Executed A :=
  let i := cmd.origIdx
  let cells := Function.update x.cells i (scanCell cluster i (x.cells i))
  match (x.cells i).err.bind redirect with
  | none => x
  | some .moved => { x with cells, retryCmds := x.retryCmds ++ [cmd] }
  | some (.ask addr) => { x with cells, asked := x.asked ++ [(i, addr)] }

def tag (cmds : List ClusterPipeCmd) : List ClusterPipeCmd :=
  cmds.mapIdx fun i cmd => { cmd with origIdx := i }

/-- The first round. -/
def firstRound (cluster : Cluster A) (cmds : List ClusterPipeCmd) : Executed A where
  cells := execGroups cluster false (tag cmds) fun _ => ⟨.zero, none⟩

def exec (cluster : Cluster A) (cmds : List ClusterPipeCmd) : Executed A :=
  let scanned := (tag cmds).foldl (scanStep cluster) (firstRound cluster cmds)
  { scanned with cells := execGroups cluster true scanned.retryCmds scanned.cells }

/-! ## What a command is answered by itself -/

/-- A value as a command of a kind returns it. -/
def CmdKind.view : CmdKind → Value A → Value A
  | .string, .simple str => .bulk str
  | .string, .verbatim str => .bulk (verbatimText str)
  | .string, .int n => .bulk (formatInt n)
  | .status, .bulk str => .simple str
  | _, v => v

/-- What a reply is to a command of a kind. -/
def outcome (kind : CmdKind) : Value A → Except Error (Value A)
  | .error str | .blobErr str => .error (.redis (parseError str))
  | .null => .error .nil
  | v => .ok (kind.view v)

/-- What a command is answered in a round, by itself. -/
def own (cluster : Cluster A) (isRetry : Bool) (cmd : ClusterPipeCmd) : Except Error (Value A) :=
  match cluster.route isRetry cmd.slot with
  | none => .error noNodes
  | some (.error err) => .error err
  | some (.ok reply) => outcome cmd.kind (reply cmd.origIdx)

def errorOf : Except Error (Value A) → Option Error
  | .ok _ => none
  | .error err => some err

/-- The error that the commands of a slot share: the first there is. -/
def shared (cluster : Cluster A) (isRetry : Bool) (cmds : List ClusterPipeCmd) (slot : Nat) :
    Option Error :=
  (cmds.filter (·.slot = slot)).findSome? fun c => errorOf (own cluster isRetry c)

variable {kind : CmdKind} {v : Value A} {err : Error} {o : Except Error (Value A)}

variable {cluster : Cluster A} {isRetry : Bool} {cmds : List ClusterPipeCmd} {slot : Nat}
  {c : ClusterPipeCmd}

section Round

variable {cluster : Cluster A} {isRetry : Bool} {cmds : List ClusterPipeCmd} {cells : Nat → Cell A}
  {j : Nat}

end Round

/-! ## Both rounds -/

section Exec

variable {cluster : Cluster A} {cmds : List ClusterPipeCmd} {c : ClusterPipeCmd}

end Exec

end Celeris.Redis
