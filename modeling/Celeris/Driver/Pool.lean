import Celeris.Data.Counting
import Celeris.Data.Transition
import Mathlib.Tactic.Common

/-!
# The connection pool of the drivers (`driver/internal/async/pool.go`, `health.go`)

Each worker of the engine has a list of idle connections under a lock of its own. A
caller that acquires a connection takes a slot of a semaphore, looks through the lists
one after another, and dials if all were empty when it came by; it gives the slot back
after it has released or discarded the connection. A background goroutine checks the
idle connections, which it takes out of their list to do so, and `Close` drains the lists.

A `Session` is what one caller does: a call of `Acquire`, the use of the connection it
returned, and the call of `Release` or `Discard` that ends it. Every action of the system
is one visible operation of a session, of the health check or of `Close`, or an answer of
their environment: that a context ended, what a dial returned, that a connection has
expired or does not answer. The part of a call between `Lock` and `Unlock` that touches
nothing but the list is one step; where the source does more under the lock, the lock is
held over several.
-/

namespace Celeris.Driver

open Transition Counting Option

/-! ## States -/

/-- A connection, and the worker that it names as its own. -/
structure Conn where
  id : Nat
  worker : Int
deriving DecidableEq, Repr

/-- The sizes of a pool. -/
structure PoolConfig where
  /-- At most so many connections; zero means unlimited. -/
  maxOpen : Nat
  /-- At most so many idle connections for each worker; zero means unlimited. -/
  maxIdlePerWorker : Nat
  /-- There is a background checker. -/
  healthCheck : Bool
  numWorkers : Nat
  numWorkers_pos : 0 < numWorkers

/-- Where a caller is. -/
inductive Stage where
  /-- In `Acquire`, about to load `closed`. -/
  | loadClosed (workerHint : Int)
  /-- About to take a slot of the semaphore. -/
  | reserve (workerHint : Int)
  /-- In `acquireInner`, about to choose a worker to begin with. -/
  | choose (workerHint : Int)
  /-- In `popIdle`, on the `i`-th list. -/
  | popIdle (workerHint i : Nat)
  /-- In `popIdle`, about to close an expired connection. -/
  | evict (workerHint i : Nat) (c : Conn)
  /-- In `popIdle`, about to take it from `openCount`. -/
  | evicted (workerHint i : Nat)
  /-- Every list was empty; about to add to `openCount`. -/
  | countDial (workerHint : Nat)
  /-- In `dial`. -/
  | dial (workerHint : Nat)
  /-- The dial failed; about to subtract from `openCount`. -/
  | dialFailed
  /-- `Acquire` has returned a connection. -/
  | inUse (c : Conn)
  /-- In `Release`, about to load `closed`. -/
  | release (c : Conn)
  /-- In `Release`, about to put the connection on its list. -/
  | pushIdle (c : Conn) (w : Nat)
  /-- In `Release` or `Discard`, about to close the connection. -/
  | close (c : Conn)
  /-- In `Release` or `Discard`, about to take it from `openCount`. -/
  | closed
  /-- About to give the slot back. -/
  | releaseSem
  /-- The calls have returned. -/
  | finished
deriving DecidableEq, Repr

/-- A caller, and how many slots it has taken and given back. -/
structure Session where
  stage : Stage
  took : Nat := 0
  gave : Nat := 0
deriving DecidableEq, Repr

/-- Where the health check is. -/
inductive HealthLoop where
  /-- Waiting for the ticker or for `hcStop`. -/
  | waiting
  /-- In `healthSweep`, about to take the list of a worker. -/
  | snapshot (w : Nat)
  /-- Checking the connections that it took. -/
  | check (w : Nat) (snapshot survivors : List Conn)
  /-- About to close a connection that is expired or does not answer. -/
  | fail (w : Nat) (c : Conn) (snapshot survivors : List Conn)
  /-- About to take it from `openCount`. -/
  | failed (w : Nat) (snapshot survivors : List Conn)
  /-- About to lock the list. -/
  | lock (w : Nat) (survivors : List Conn)
  /-- Reinserting, with the list locked. -/
  | reinsert (w : Nat) (survivors : List Conn)
  /-- About to close a connection for which there is no room, with the list unlocked. -/
  | drop (w : Nat) (c : Conn) (survivors : List Conn)
  /-- About to take it from `openCount`. -/
  | dropped (w : Nat) (survivors : List Conn)
  /-- Returned, with `hcDone` closed; or not configured. -/
  | stopped
deriving DecidableEq, Repr

/-- Where `Close` is. -/
inductive Closer where
  | notCalled
  /-- Has set `closed`; about to close `hcStop`. -/
  | stop
  /-- Waiting for `hcDone`. -/
  | wait
  /-- About to lock the list of a worker. -/
  | lock (w : Nat)
  /-- Closing the connections of a list, with the list locked. -/
  | drain (w : Nat) (idle : List Conn)
  /-- About to take a connection from `openCount`, with the list locked. -/
  | drained (w : Nat) (idle : List Conn)
  | returned
deriving DecidableEq, Repr

/-- What the goroutines share, and what happened: the connections dialled and the
connections closed. -/
structure Shared where
  perWorker : List (List Conn)
  openCount : Int := 0
  rr : Nat := 0
  sem : Nat := 0
  closed : Bool := false
  hcStop : Bool := false
  dialled : List Conn := []
  closes : List Conn := []
deriving DecidableEq, Repr

/-- A pool and its goroutines. -/
structure Pool extends Shared where
  sessions : List Session := []
  health : HealthLoop
  closer : Closer := .notCalled
deriving DecidableEq, Repr

def newPool (cfg : PoolConfig) : Pool where
  perWorker := List.replicate cfg.numWorkers []
  health := if cfg.healthCheck then .waiting else .stopped

/-! ## Steps -/

def HealthLoop.locks (h : HealthLoop) (w : Nat) : Bool :=
  match h with
  | .reinsert v _ => v == w
  | _ => false

/-- The list of a worker is locked by `Close`. -/
def Closer.locks (c : Closer) (w : Nat) : Bool :=
  match c with
  | .drain v _ | .drained v _ => v == w
  | _ => false

namespace Shared

/-- Call `Close` on a connection. -/
def closeConn (s : Shared) (c : Conn) : Shared := { s with closes := s.closes ++ [c] }

def uncount (s : Shared) : Shared := { s with openCount := s.openCount - 1 }

def setIdle (s : Shared) (w : Nat) (idle : List Conn) : Shared :=
  { s with perWorker := s.perWorker.set w idle }

def full (cfg : PoolConfig) (idle : List Conn) : Bool :=
  0 < cfg.maxIdlePerWorker ∧ cfg.maxIdlePerWorker ≤ idle.length

/-- What `Release` makes of a connection when it has loaded `closed`. -/
def route (s : Shared) (cfg : PoolConfig) (c : Conn) (expired : Bool) : Stage :=
  if s.closed then .close c
  else if c.worker < 0 ∨ (cfg.numWorkers : Int) ≤ c.worker then .close c
  else if expired then .close c
  else .pushIdle c c.worker.toNat

/-- The next operation of a caller; `locked` are the lists that others hold, and `expired`
is what the connection answers, where it is asked. -/
def advance (s : Shared) (cfg : PoolConfig) (locked : Nat → Bool) (expired : Bool) (x : Session) :
    Option (Shared × Session) :=
  match x.stage with
  | .loadClosed hint => some (s, { x with stage := if s.closed then .finished else .reserve hint })
  | .reserve hint =>
    if cfg.maxOpen = 0 then some (s, { x with stage := .choose hint })
    else if s.sem < cfg.maxOpen then
      some ({ s with sem := s.sem + 1 }, { x with stage := .choose hint, took := x.took + 1 })
    else none
  | .choose hint =>
    if hint < 0 ∨ (cfg.numWorkers : Int) ≤ hint then
      some ({ s with rr := s.rr + 1 }, { x with stage := .popIdle (s.rr % cfg.numWorkers) 0 })
    else some (s, { x with stage := .popIdle hint.toNat 0 })
  | .popIdle hint i =>
    let w := (hint + i) % cfg.numWorkers
    if locked w then none
    else
      match s.perWorker[w]? with
      | none => none
      | some idle =>
        match idle.getLast? with
        | none =>
          some (s, { x with
            stage := if i + 1 < cfg.numWorkers then .popIdle hint (i + 1) else .countDial hint })
        | some c =>
          some (s.setIdle w idle.dropLast,
            { x with stage := if expired then .evict hint i c else .inUse c })
  | .evict hint i c => some (s.closeConn c, { x with stage := .evicted hint i })
  | .evicted hint i => some (s.uncount, { x with stage := .popIdle hint i })
  | .countDial hint => some ({ s with openCount := s.openCount + 1 },
      { x with stage := .dial hint })
  | .dial _ => none
  | .dialFailed => some (s.uncount, { x with stage := .releaseSem })
  | .inUse _ => none
  | .release c => some (s, { x with stage := s.route cfg c expired })
  | .pushIdle c w =>
    if locked w then none
    else
      match s.perWorker[w]? with
      | none => none
      | some idle =>
        if full cfg idle then some (s, { x with stage := .close c })
        else some (s.setIdle w (idle ++ [c]), { x with stage := .releaseSem })
  | .close c => some (s.closeConn c, { x with stage := .closed })
  | .closed => some (s.uncount, { x with stage := .releaseSem })
  | .releaseSem =>
    if cfg.maxOpen = 0 then some (s, { x with stage := .finished })
    else if 0 < s.sem then some ({ s with sem := s.sem - 1 },
      { x with stage := .finished, gave := x.gave + 1 })
    else none
  | .finished => none

/-- A dial returns: a connection of some worker, or an error. -/
def dialDone (s : Shared) (x : Session) (worker : Option Int) : Option (Shared × Session) :=
  match x.stage, worker with
  | .dial _, some w =>
    let c : Conn := ⟨s.dialled.length, w⟩
    some ({ s with dialled := s.dialled ++ [c] }, { x with stage := .inUse c })
  | .dial _, none => some (s, { x with stage := .dialFailed })
  | _, _ => none

/-- The next operation of the health check; `bad` tells that the connection in question
has expired or does not answer, and `tick` that the ticker fired. -/
def sweep (s : Shared) (cfg : PoolConfig) (locked : Nat → Bool) (bad tick : Bool) :
    HealthLoop → Option (Shared × HealthLoop)
  | .waiting =>
    if tick then some (s, .snapshot 0) else if s.hcStop then some (s, .stopped) else none
  | .snapshot w =>
    if cfg.numWorkers ≤ w then some (s, .waiting)
    else if locked w then none
    else
      match s.perWorker[w]? with
      | none => none
      | some [] => some (s, .snapshot (w + 1))
      | some idle => some (s.setIdle w [], .check w idle [])
  | .check w (c :: snapshot) survivors =>
    if bad then some (s, .fail w c snapshot survivors)
      else some (s, .check w snapshot (survivors ++ [c]))
  | .check w [] survivors => some (s, .lock w survivors)
  | .fail w c snapshot survivors => some (s.closeConn c, .failed w snapshot survivors)
  | .failed w snapshot survivors => some (s.uncount, .check w snapshot survivors)
  | .lock w survivors => if locked w then none else some (s, .reinsert w survivors)
  | .reinsert w (c :: survivors) =>
    match s.perWorker[w]? with
    | none => none
    | some idle =>
      if full cfg idle then some (s, .drop w c survivors)
      else some (s.setIdle w (idle ++ [c]), .reinsert w survivors)
  | .reinsert w [] => some (s, .snapshot (w + 1))
  | .drop w c survivors => some (s.closeConn c, .dropped w survivors)
  | .dropped w survivors => some (s.uncount, .lock w survivors)
  | .stopped => none

/-- The next operation of `Close`; `done` tells that `hcDone` is closed. Nobody sees the
list of a worker before its lock is released, so it is empty from the start. -/
def shut (s : Shared) (cfg : PoolConfig) (locked : Nat → Bool) (done : Bool) :
    Closer → Option (Shared × Closer)
  | .notCalled => none
  | .stop => if cfg.healthCheck then some ({ s with hcStop := true }, .wait) else some (s, .lock 0)
  | .wait => if done then some (s, .lock 0) else none
  | .lock w =>
    if cfg.numWorkers ≤ w then some (s, .returned)
    else if locked w then none
    else
      match s.perWorker[w]? with
      | none => none
      | some idle => some (s.setIdle w [], .drain w idle)
  | .drain w (c :: idle) => some (s.closeConn c, .drained w idle)
  | .drained w idle => some (s.uncount, .drain w idle)
  | .drain w [] => some (s, .lock (w + 1))
  | .returned => none

end Shared

namespace Pool

/-- What can happen. -/
inductive Action where
  /-- A caller calls `Acquire`. -/
  | acquire (workerHint : Int)
  /-- The context of a caller ends before it has a slot. -/
  | cancel (k : Nat)
  /-- A caller makes its next operation. -/
  | advance (k : Nat) (expired : Bool)
  /-- The dial of a caller returns. -/
  | dialDone (k : Nat) (worker : Option Int)
  /-- A caller calls `Release`, or `Discard`. -/
  | giveUp (k : Nat) (discard : Bool)
  /-- The health check makes its next operation. -/
  | sweep (bad tick : Bool)
  /-- `Close` is called. -/
  | close
  /-- `Close` makes its next operation. -/
  | shut
deriving DecidableEq, Repr

/-- The lists that the health check and `Close` have locked. -/
def locked (p : Pool) (w : Nat) : Bool := p.health.locks w || p.closer.locks w

/-- A caller has done something. -/
def put (p : Pool) (k : Nat) (r : Shared × Session) : Pool :=
  { p with toShared := r.1, sessions := p.sessions.set k r.2 }

def step (cfg : PoolConfig) (p : Pool) : Action → Option Pool
  | .acquire hint => some { p with sessions := p.sessions ++ [⟨.loadClosed hint, 0, 0⟩] }
  | .cancel k =>
    match p.sessions[k]? with
    | some ⟨.reserve _, took, gave⟩ => some (p.put k (p.toShared, ⟨.finished, took, gave⟩))
    | _ => none
  | .advance k expired => do
    let x ← p.sessions[k]?
    let r ← p.toShared.advance cfg p.locked expired x
    some (p.put k r)
  | .dialDone k worker => do
    let x ← p.sessions[k]?
    let r ← p.toShared.dialDone x worker
    some (p.put k r)
  | .giveUp k discard =>
    match p.sessions[k]? with
    | some ⟨.inUse c, took, gave⟩ =>
      some (p.put k (p.toShared, ⟨if discard then .close c else .release c, took, gave⟩))
    | _ => none
  | .sweep bad tick => do
    let r ← p.toShared.sweep cfg p.closer.locks bad tick p.health
    some { p with toShared := r.1, health := r.2 }
  | .close =>
    if p.closer = .notCalled then some { p with closed := true, closer := .stop } else none
  | .shut => do
    let r ← p.toShared.shut cfg p.health.locks (p.health == .stopped) p.closer
    some { p with toShared := r.1, closer := r.2 }

def Action.session? : Action → Option Nat
  | .cancel k | .advance k _ | .dialDone k _ | .giveUp k _ => some k
  | _ => none

end Pool

/-! ## What a step does -/

/-- What callers do. -/
inductive Advanced (cfg : PoolConfig) : Shared → Session → Shared → Session → Prop
  | refused {x : Session} :
      Advanced cfg s { x with stage := .loadClosed hint } s { x with stage := .finished }
  | opened {x : Session} :
      Advanced cfg s { x with stage := .loadClosed hint } s { x with stage := .reserve hint }
  | cancelled {x : Session} : Advanced cfg s { x with stage := .reserve hint } s
      { x with stage := .finished }
  | unlimited {x : Session} : cfg.maxOpen = 0 →
      Advanced cfg s { x with stage := .reserve hint } s { x with stage := .choose hint }
  | reserved {s : Shared} {x : Session} : s.sem < cfg.maxOpen →
      Advanced cfg s { x with stage := .reserve hint }
        { s with sem := s.sem + 1 } { x with stage := .choose hint, took := x.took + 1 }
  | chose {s : Shared} {x : Session} :
      Advanced cfg s { x with stage := .choose hint } { s with rr := rr }
        { x with stage := .popIdle w 0 }
  | empty {x : Session} :
      Advanced cfg s { x with stage := .popIdle hint i } s { x with stage := .popIdle hint (i + 1) }
  | allEmpty {s : Shared} {x : Session} : cfg.numWorkers ≤ i + 1 →
      s.perWorker[(hint + i) % cfg.numWorkers]? = some [] →
      Advanced cfg s { x with stage := .popIdle hint i } s { x with stage := .countDial hint }
  | popped {s : Shared} {x : Session} : s.perWorker[w]? = some (idle ++ [c]) →
      Advanced cfg s { x with stage := .popIdle hint i } (s.setIdle w idle)
        { x with stage := .inUse c }
  | expired {s : Shared} {x : Session} : s.perWorker[w]? = some (idle ++ [c]) →
      Advanced cfg s { x with stage := .popIdle hint i } (s.setIdle w idle)
        { x with stage := .evict hint i c }
  | evict {s : Shared} {x : Session} :
      Advanced cfg s { x with stage := .evict hint i c } (s.closeConn c)
        { x with stage := .evicted hint i }
  | evicted {s : Shared} {x : Session} :
      Advanced cfg s { x with stage := .evicted hint i } s.uncount
        { x with stage := .popIdle hint i }
  | countDial {s : Shared} {x : Session} : Advanced cfg s { x with stage := .countDial hint }
        { s with openCount := s.openCount + 1 } { x with stage := .dial hint }
  | dialled {s : Shared} {x : Session} :
      Advanced cfg s { x with stage := .dial hint }
        { s with dialled := s.dialled ++ [⟨s.dialled.length, w⟩] }
        { x with stage := .inUse ⟨s.dialled.length, w⟩ }
  | dialError {x : Session} : Advanced cfg s { x with stage := .dial hint } s
      { x with stage := .dialFailed }
  | dialFailed {s : Shared} {x : Session} :
      Advanced cfg s { x with stage := .dialFailed } s.uncount { x with stage := .releaseSem }
  | releases {x : Session} : Advanced cfg s { x with stage := .inUse c } s
      { x with stage := .release c }
  | discards {x : Session} : Advanced cfg s { x with stage := .inUse c } s
      { x with stage := .close c }
  | unwanted {x : Session} : Advanced cfg s { x with stage := .release c } s
      { x with stage := .close c }
  | wanted {x : Session} : Advanced cfg s { x with stage := .release c } s
      { x with stage := .pushIdle c w }
  | full {x : Session} : Advanced cfg s { x with stage := .pushIdle c w } s
      { x with stage := .close c }
  | pushed {s : Shared} {x : Session} : s.perWorker[w]? = some idle →
      Advanced cfg s { x with stage := .pushIdle c w } (s.setIdle w (idle ++ [c]))
        { x with stage := .releaseSem }
  | close {s : Shared} {x : Session} :
      Advanced cfg s { x with stage := .close c } (s.closeConn c) { x with stage := .closed }
  | closed {s : Shared} {x : Session} :
      Advanced cfg s { x with stage := .closed } s.uncount { x with stage := .releaseSem }
  | noSem {x : Session} : cfg.maxOpen = 0 →
      Advanced cfg s { x with stage := .releaseSem } s { x with stage := .finished }
  | gaveBack {s : Shared} {x : Session} : cfg.maxOpen ≠ 0 → 0 < s.sem →
      Advanced cfg s { x with stage := .releaseSem }
        { s with sem := s.sem - 1 } { x with stage := .finished, gave := x.gave + 1 }

/-- What the health check does. -/
inductive Swept (cfg : PoolConfig) : Shared → HealthLoop → Shared → HealthLoop → Prop
  | ticked : Swept cfg s .waiting s (.snapshot 0)
  | stopped : Swept cfg s .waiting s .stopped
  | swept : Swept cfg s (.snapshot w) s .waiting
  | skipped : Swept cfg s (.snapshot w) s (.snapshot (w + 1))
  | taken {s : Shared} : s.perWorker[w]? = some idle →
      Swept cfg s (.snapshot w) (s.setIdle w []) (.check w idle [])
  | bad : Swept cfg s (.check w (c :: snapshot) survivors) s (.fail w c snapshot survivors)
  | good : Swept cfg s (.check w (c :: snapshot) survivors) s (.check w snapshot (survivors ++ [c]))
  | checked : Swept cfg s (.check w [] survivors) s (.lock w survivors)
  | fail {s : Shared} :
      Swept cfg s (.fail w c snapshot survivors) (s.closeConn c) (.failed w snapshot survivors)
  | failed {s : Shared} : Swept cfg s (.failed w snapshot survivors) s.uncount
      (.check w snapshot survivors)
  | locked : Swept cfg s (.lock w survivors) s (.reinsert w survivors)
  | full : Swept cfg s (.reinsert w (c :: survivors)) s (.drop w c survivors)
  | reinserted {s : Shared} : s.perWorker[w]? = some idle →
      Swept cfg s (.reinsert w (c :: survivors)) (s.setIdle w (idle ++ [c])) (.reinsert w survivors)
  | unlocked : Swept cfg s (.reinsert w []) s (.snapshot (w + 1))
  | drop {s : Shared} : Swept cfg s (.drop w c survivors) (s.closeConn c) (.dropped w survivors)
  | dropped {s : Shared} : Swept cfg s (.dropped w survivors) s.uncount (.lock w survivors)

/-- What `Close` does; `health` is where the health check is. -/
inductive Shut (cfg : PoolConfig) (health : HealthLoop) : Shared → Closer → Shared → Closer → Prop
  | called {s : Shared} : Shut cfg health s .notCalled { s with closed := true } .stop
  | stop {s : Shared} : Shut cfg health s .stop { s with hcStop := true } .wait
  | unchecked : cfg.healthCheck = false → Shut cfg health s .stop s (.lock 0)
  | waited : health = .stopped → Shut cfg health s .wait s (.lock 0)
  | returned : cfg.numWorkers ≤ w → Shut cfg health s (.lock w) s .returned
  | taken {s : Shared} : s.perWorker[w]? = some idle →
      Shut cfg health s (.lock w) (s.setIdle w []) (.drain w idle)
  | drain {s : Shared} : Shut cfg health s (.drain w (c :: idle)) (s.closeConn c) (.drained w idle)
  | drained {s : Shared} : Shut cfg health s (.drained w idle) s.uncount (.drain w idle)
  | unlocked : Shut cfg health s (.drain w []) s (.lock (w + 1))

variable {cfg : PoolConfig}

theorem Session.withStage {x : Session} {stage : Stage} (h : x.stage = stage) :
    { x with stage := stage } = x := by
  cases x
  cases h
  rfl

namespace Shared

variable {s s' : Shared} {locked : Nat → Bool} {x x' : Session} {health : HealthLoop}

theorem advanced {expired : Bool}
    (h : s.advance cfg locked expired x = some (s', x')) : Advanced cfg s x s' x' := by
  generalize hs : x.stage = stage
  rw [← Session.withStage hs] at h ⊢
  unfold advance at h
  dsimp only at h
  split at h
  next =>
    split_ifs at h <;> cases h
    · exact .refused
    · exact .opened
  next =>
    split_ifs at h with hz hr <;> cases h
    · exact .unlimited hz
    · exact .reserved hr
  next =>
    split_ifs at h <;> cases h <;> exact .chose
  next hint i =>
    replace h := (ite_none_left_eq_some.mp h).2
    split at h
    next => cases h
    next idle hidle =>
      split at h
      next hl =>
        rw [List.getLast?_eq_none_iff.mp hl] at hidle
        split_ifs at h with hi <;> cases h
        · exact .empty
        · exact .allEmpty (Nat.le_of_not_lt hi) hidle
      next c hl =>
        rw [← List.dropLast_append_getLast? c hl] at hidle
        split_ifs at h <;> cases h
        · exact .expired hidle
        · exact .popped hidle
  next =>
    cases h
    exact .evict
  next =>
    cases h
    exact .evicted
  next =>
    cases h
    exact .countDial
  next => cases h
  next =>
    cases h
    exact .dialFailed
  next => cases h
  next c =>
    unfold route at h
    split_ifs at h <;> cases h
    · exact .unwanted
    · exact .unwanted
    · exact .unwanted
    · exact .wanted
  next =>
    replace h := (ite_none_left_eq_some.mp h).2
    split at h
    next => cases h
    next idle hidle =>
      split_ifs at h <;> cases h
      · exact .full
      · exact .pushed hidle
  next =>
    cases h
    exact .close
  next =>
    cases h
    exact .closed
  next =>
    split_ifs at h with hz hsem <;> cases h
    · exact .noSem hz
    · exact .gaveBack hz hsem
  next => cases h

theorem advanced_dialDone {worker : Option Int}
    (h : s.dialDone x worker = some (s', x')) : Advanced cfg s x s' x' := by
  unfold dialDone at h
  split at h
  next hs =>
    rw [← Session.withStage hs]
    cases h
    exact .dialled
  next hs =>
    rw [← Session.withStage hs]
    cases h
    exact .dialError
  next => cases h

theorem swept {health' : HealthLoop} {bad tick : Bool}
    (h : s.sweep cfg locked bad tick health = some (s', health')) :
    Swept cfg s health s' health' := by
  unfold sweep at h
  split at h
  next =>
    split_ifs at h <;> cases h
    · exact .ticked
    · exact .stopped
  next w =>
    split_ifs at h
    · cases h
      exact .swept
    · split at h
      next => cases h
      next =>
        cases h
        exact .skipped
      next hi =>
        cases h
        exact .taken hi
  next =>
    split_ifs at h <;> cases h
    · exact .bad
    · exact .good
  next =>
    cases h
    exact .checked
  next =>
    cases h
    exact .fail
  next =>
    cases h
    exact .failed
  next =>
    split_ifs at h
    cases h
    exact .locked
  next =>
    split at h
    next => cases h
    next hi =>
      split_ifs at h <;> cases h
      · exact .full
      · exact .reinserted hi
  next =>
    cases h
    exact .unlocked
  next =>
    cases h
    exact .drop
  next =>
    cases h
    exact .dropped
  next => cases h

theorem hasShut {closer closer' : Closer}
    (h : s.shut cfg locked (health == .stopped) closer = some (s', closer')) :
    Shut cfg health s closer s' closer' := by
  unfold shut at h
  split at h
  next => cases h
  next =>
    split_ifs at h with hc <;> cases h
    · exact .stop
    · exact .unchecked (Bool.not_eq_true _ ▸ hc)
  next =>
    split_ifs at h with hd
    cases h
    exact .waited (eq_of_beq hd)
  next =>
    split_ifs at h with hw
    · cases h
      exact .returned hw
    · split at h
      next => cases h
      next hi =>
        cases h
        exact .taken hi
  next =>
    cases h
    exact .drain
  next =>
    cases h
    exact .drained
  next =>
    cases h
    exact .unlocked
  next => cases h

end Shared

namespace Pool

/-- What can happen, by the goroutines. -/
inductive Stepped (cfg : PoolConfig) (p : Pool) : Action → Pool → Prop
  | acquire {hint : Int} :
      Stepped cfg p (.acquire hint) { p with sessions := p.sessions ++ [⟨.loadClosed hint, 0, 0⟩] }
  | session {a : Action} {k : Nat} {x x' : Session} {s' : Shared} : a.session? = some k →
      p.sessions[k]? = some x → Advanced cfg p.toShared x s' x' → Stepped cfg p a (p.put k (s', x'))
  | health {a : Action} {s' : Shared}
      {health' : HealthLoop} : Swept cfg p.toShared p.health s' health' →
      Stepped cfg p a { p with toShared := s', health := health' }
  | closer {a : Action} {s' : Shared}
      {closer' : Closer} : Shut cfg p.health p.toShared p.closer s' closer' →
      Stepped cfg p a { p with toShared := s', closer := closer' }

theorem stepped {p q : Pool} {a : Action} (h : p.step cfg a = some q) : Stepped cfg p a q := by
  cases a with simp only [step, bind_eq_bind, bind_eq_some_iff] at h
  | acquire hint =>
    cases h
    exact .acquire
  | cancel k =>
    split at h
    next hk =>
      cases h
      exact .session rfl hk (.cancelled (x := ⟨.finished, _, _⟩))
    next => cases h
  | advance k expired =>
    obtain ⟨x, hk, ⟨s', x'⟩, hst, hq⟩ := h
    cases hq
    exact .session rfl hk (Shared.advanced hst)
  | dialDone k worker =>
    obtain ⟨x, hk, ⟨s', x'⟩, hst, hq⟩ := h
    cases hq
    exact .session rfl hk (Shared.advanced_dialDone hst)
  | giveUp k discard =>
    split at h
    next c took gave hk =>
      cases h
      cases discard with
      | false => exact .session rfl hk (.releases (x := ⟨.finished, took, gave⟩))
      | true => exact .session rfl hk (.discards (x := ⟨.finished, took, gave⟩))
    next => cases h
  | sweep bad tick =>
    obtain ⟨⟨s', health'⟩, hst, hq⟩ := h
    cases hq
    exact .health (Shared.swept hst)
  | close =>
    split_ifs at h with hcl
    cases h
    have hc : Shut cfg p.health p.toShared .notCalled { p.toShared with closed := true } .stop :=
      .called
    rw [← hcl] at hc
    exact .closer hc
  | shut =>
    obtain ⟨⟨s', closer'⟩, hst, hq⟩ := h
    cases hq
    exact .closer (Shared.hasShut hst)

end Pool

end Celeris.Driver
