import Celeris.Data.Counting
import Celeris.Data.Transition
import Mathlib.Data.List.Perm.Basic

/-!
# The worker pool (`internal/protocol/h2/stream/processor.go`)

Handlers of HTTP/2 streams run on a pool of goroutines that all connections share. A
handler may run for as long as its client stays, so a task must never wait in the queue
behind one: `Submit` queues a task only against a credit that a worker gives before it
parks, and starts a goroutine for the task when there is none. Every action of the
system is one atomic operation of a `Submit` call, or of a worker: the addition to
`idle`, the receive, the end of a handler.

A handler ends its worker's turn by returning, by a panic, which `executeHandler`
recovers, or by `runtime.Goexit`, which ends the goroutine; the deferred function of
`run` then starts another one in its place. The channel is never closed. `submitted`
and `started` only tell what happened.
-/

namespace Celeris.H2

open Transition Counting Option List Int Nat

/-! ## States -/

/-- Where a worker is. -/
inductive Worker (τ : Type) where
  /-- About to credit `idle`. -/
  | credit
  /-- In the receive. -/
  | parked
  /-- In `executeHandler`. -/
  | running (task : τ)
  /-- Ended by `runtime.Goexit`; its deferred function is about to replace it. -/
  | gone
deriving DecidableEq, Repr

/-- Where a `Submit` call is. -/
inductive Submit (τ : Type) where
  /-- About to load `idle`. -/
  | load (task : τ)
  /-- About to swap `idle`, which was `n`. -/
  | swap (task : τ) (n : Int)
  /-- About to send on the channel, with a credit spent. -/
  | send (task : τ)
  /-- The channel was full: about to give the credit back. -/
  | refund (task : τ)
  /-- About to start a goroutine. -/
  | spawn (task : τ)
  /-- Returned. -/
  | done
deriving DecidableEq, Repr

/-- A pool, the calls on it and the goroutines that `Submit` has started. -/
structure WorkerPool (τ : Type) where
  capacity : Nat
  workers : List (Worker τ)
  idle : Int := 0
  work : List τ := []
  submits : List (Submit τ) := []
  spawned : List τ := []
  submitted : List τ := []
  started : List τ := []

/-- A pool with workers that have not parked yet. -/
def newH2WorkerPool (τ : Type) (size : Nat) : WorkerPool τ where
  capacity := size * 16
  workers := List.replicate size .credit

namespace WorkerPool

variable {τ : Type}

/-! ## Steps -/

/-- One operation of `Submit`. -/
def submit (p : WorkerPool τ) : Submit τ → Option (WorkerPool τ × Submit τ)
  | .load task => if p.idle ≤ 0 then some (p, .spawn task) else some (p, .swap task p.idle)
  | .swap task n => if p.idle = n then some ({ p with idle := n - 1 }, .send task)
      else some (p, .load task)
  | .send task =>
    if p.work.length < p.capacity then some ({ p with work := p.work ++ [task] }, .done)
    else some (p, .refund task)
  | .refund task => some ({ p with idle := p.idle + 1 }, .spawn task)
  | .spawn task => some ({ p with spawned := p.spawned ++ [task] }, .done)
  | .done => none

/-- One operation of a worker that runs no handler. -/
def run (p : WorkerPool τ) : Worker τ → Option (WorkerPool τ × Worker τ)
  | .credit => some ({ p with idle := p.idle + 1 }, .parked)
  | .parked =>
    match p.work with
    | [] => none
    | task :: work => some ({ p with work := work, started := p.started ++ [task] }, .running task)
  | .running _ => none
  | .gone => some (p, .credit)

/-- How a handler ends. -/
inductive Ending where
  | returned
  | panicked
  | goexit
deriving DecidableEq, Repr

/-- What can happen. -/
inductive Action (τ : Type) where
  /-- `Submit` is called. -/
  | call (task : τ)
  /-- A call makes its next operation. -/
  | submit (call : Nat)
  /-- A worker makes its next operation. -/
  | run (worker : Nat)
  /-- The handler of a worker ends. -/
  | finish (worker : Nat) (ending : Ending)
  /-- A goroutine that `Submit` has started begins its handler. -/
  | begin (goroutine : Nat)
deriving DecidableEq, Repr

def step (p : WorkerPool τ) : Action τ → Option (WorkerPool τ)
  | .call task => some { p with
      submits := p.submits ++ [.load task], submitted := p.submitted ++ [task] }
  | .submit k => do
    let c ← p.submits[k]?
    let (q, c') ← p.submit c
    some { q with submits := p.submits.set k c' }
  | .run k => do
    let w ← p.workers[k]?
    let (q, w') ← p.run w
    some { q with workers := p.workers.set k w' }
  | .finish k ending =>
    match p.workers[k]? with
    | some (.running _) =>
      some { p with workers := p.workers.set k (if ending = .goexit then .gone else .credit) }
    | _ => none
  | .begin k => do
    let task ← p.spawned[k]?
    some { p with spawned := p.spawned.eraseIdx k, started := p.started ++ [task] }

/-! ## What a step does -/

/-- The operations of a call. -/
inductive Submitted (p : WorkerPool τ) : Submit τ → WorkerPool τ → Submit τ → Prop
  | refused {task : τ} : p.idle ≤ 0 → Submitted p (.load task) p (.spawn task)
  | loaded {task : τ} : 0 < p.idle → Submitted p (.load task) p (.swap task p.idle)
  | claimed {task : τ} : Submitted p (.swap task p.idle) { p with idle := p.idle - 1 } (.send task)
  | lost {task : τ} {n : Int} : Submitted p (.swap task n) p (.load task)
  | queued {task : τ} : Submitted p (.send task) { p with work := p.work ++ [task] } .done
  | full {task : τ} : p.capacity ≤ p.work.length → Submitted p (.send task) p (.refund task)
  | refunded {task : τ} : Submitted p (.refund task) { p with idle := p.idle + 1 } (.spawn task)
  | spawned {task : τ} : Submitted p (.spawn task) { p with spawned := p.spawned ++ [task] } .done

variable {p q : WorkerPool τ} {k : Nat}

theorem submitted_of_submit {c c' : Submit τ} (h : p.submit c = some (q, c')) :
    Submitted p c q c' := by
  cases c with rw [submit] at h
  | load task =>
    split_ifs at h with hi <;> cases h
    · exact .refused hi
    · exact .loaded (not_le.mp hi)
  | swap task n =>
    split_ifs at h with hi <;> cases h
    · subst hi
      exact .claimed
    · exact .lost
  | send task =>
    split_ifs at h with hr <;> cases h
    · exact .queued
    · exact .full (Nat.le_of_not_lt hr)
  | refund task =>
    cases h
    exact .refunded
  | spawn task =>
    cases h
    exact .spawned
  | done => cases h

theorem step_submit (h : p.step (.submit k) = some q) :
    ∃ c, p.submits[k]? = some c ∧ ∃ c' r, Submitted p c r c' ∧
      q = { r with submits := p.submits.set k c' } := by
  simp only [step, bind_eq_bind, bind_eq_some_iff] at h
  obtain ⟨c, hc, ⟨r, c'⟩, hs, hq⟩ := h
  exact ⟨c, hc, c', r, submitted_of_submit hs, (some.inj hq).symm⟩

/-- The operations of a worker. -/
inductive Ran (p : WorkerPool τ) : Worker τ → WorkerPool τ → Worker τ → Prop
  | parked : Ran p .credit { p with idle := p.idle + 1 } .parked
  | took {task : τ} {work : List τ} : p.work = task :: work →
      Ran p .parked { p with work := work, started := p.started ++ [task] } (.running task)
  | replaced : Ran p .gone p .credit
  | finished {task : τ} {w : Worker τ} : w ≠ .parked → Ran p (.running task) p w

theorem ran_of_run {w w' : Worker τ} (h : p.run w = some (q, w')) : Ran p w q w' := by
  cases w with
  | credit =>
    cases h
    exact .parked
  | parked =>
    rw [run] at h
    split at h
    next => cases h
    next task work hw =>
      cases h
      exact .took hw
  | running task => cases h
  | gone =>
    cases h
    exact .replaced

theorem step_run (h : p.step (.run k) = some q) :
    ∃ w, p.workers[k]? = some w ∧ ∃ w' r, Ran p w r w' ∧
      q = { r with workers := p.workers.set k w' } := by
  simp only [step, bind_eq_bind, bind_eq_some_iff] at h
  obtain ⟨w, hw, ⟨r, w'⟩, hs, hq⟩ := h
  exact ⟨w, hw, w', r, ran_of_run hs, (some.inj hq).symm⟩

theorem step_finish {ending : Ending} (h : p.step (.finish k ending) = some q) :
    ∃ w, p.workers[k]? = some w ∧ ∃ w', Ran p w p w' ∧
      q = { p with workers := p.workers.set k w' } := by
  rw [step] at h
  split at h
  next task hw =>
    cases h
    refine ⟨_, hw, _, .finished ?_, rfl⟩
    cases ending <;> simp
  next => cases h

theorem step_begin (h : p.step (.begin k) = some q) : ∃ task, p.spawned[k]? = some task ∧
      q = { p with spawned := p.spawned.eraseIdx k, started := p.started ++ [task] } := by
  simp only [step, bind_eq_bind, bind_eq_some_iff] at h
  obtain ⟨task, ht, hq⟩ := h
  exact ⟨task, ht, (some.inj hq).symm⟩

/-! ## Credits -/

end WorkerPool

def Worker.isParked {τ : Type} : Worker τ → Int
  | .parked => 1
  | _ => 0

/-- One for a call that has spent a credit and not queued its task. -/
def Submit.hasClaimed {τ : Type} : Submit τ → Int
  | .send _ | .refund _ => 1
  | _ => 0

/-- The task of a call that has not handed it on. -/
def Submit.task? {τ : Type} : Submit τ → Option τ
  | .load task | .swap task _ | .send task | .refund task | .spawn task => some task
  | .done => none

def Submit.holds {τ : Type} [DecidableEq τ] (task : τ) (c : Submit τ) : Int :=
  if c.task? = some task then 1 else 0

theorem Worker.isParked_le {τ : Type} (w : Worker τ) : w.isParked ≤ 1 := by
  cases w <;> simp [isParked]

theorem Submit.hasClaimed_nonneg {τ : Type} (c : Submit τ) : 0 ≤ c.hasClaimed := by
  cases c <;> simp [hasClaimed]

namespace WorkerPool

def parked (p : WorkerPool τ) : Int := total Worker.isParked p.workers

def claimed (p : WorkerPool τ) : Int := total Submit.hasClaimed p.submits

/-- What holds in every state of a run of a pool. -/
structure Inv [DecidableEq τ] (size : Nat) (p : WorkerPool τ) : Prop where
  capacity : p.capacity = size * 16
  workers : p.workers.length = size
  credits : p.idle = p.parked - p.work.length - p.claimed
  idle : 0 ≤ p.idle
  loaded : ∀ task n, .swap task n ∈ p.submits → 0 < n
  room : ∀ task, .refund task ∉ p.submits
  once : ∀ task, (p.submitted.count task : Int) = total (Submit.holds task) p.submits +
    p.work.count task + p.spawned.count task + p.started.count task

variable [DecidableEq τ] {size : Nat}

theorem Inv.init : (newH2WorkerPool τ size).Inv size where
  capacity := rfl
  workers := length_replicate
  credits := by
    have hp : (newH2WorkerPool τ size).parked = 0 :=
      total_eq_zero fun w hw => by rw [eq_of_mem_replicate hw]; rfl
    rw [hp]
    rfl
  idle := le_refl 0
  loaded := fun _ _ h => absurd h not_mem_nil
  room := fun _ => not_mem_nil
  once := fun _ => rfl

variable {p q : WorkerPool τ} {k : Nat} {task : τ} {c c' : Submit τ}

theorem Inv.parked_le (h : p.Inv size) : p.parked ≤ size := by
  have hle := total_le_length (l := p.workers) fun w _ => Worker.isParked_le w
  rw [h.workers] at hle
  exact hle

/-- A call that has spent a credit finds room in the channel. -/
theorem Inv.not_full (h : p.Inv size) (hc : p.submits[k]? = some (.send task)) :
    p.work.length < p.capacity := by
  have hcl : 1 ≤ p.claimed :=
    le_total (fun c _ => c.hasClaimed_nonneg) (mem_of_getElem? hc)
  have hcr := h.credits
  have hi := h.idle
  have hp := h.parked_le
  rw [h.capacity]
  omega

variable {idle : Int} {work : List τ} {a : Action τ} {w w' : Worker τ}

/-- A call has made an operation. -/
theorem Inv.set_submit (h : p.Inv size) {spawned : List τ} (hc : p.submits[k]? = some c)
    (hcr : idle = p.parked - work.length - (p.claimed - c.hasClaimed + c'.hasClaimed))
    (hi : 0 ≤ idle) (hl : ∀ task n, c' = .swap task n → 0 < n) (hr : ∀ task, c' ≠ .refund task)
    (ho : ∀ task, (work.count task + spawned.count task : Int) + c'.holds task =
      p.work.count task + p.spawned.count task + c.holds task) :
    Inv size { p with
      idle := idle, work := work, spawned := spawned, submits := p.submits.set k c' } where
  __ := h
  credits := by
    rw [claimed, total_set hc c']
    exact hcr
  idle := hi
  loaded := by
    intro task n hm
    rcases mem_or_eq_of_mem_set hm with hm | heq
    · exact h.loaded task n hm
    · exact hl task n heq.symm
  room := by
    intro task hm
    rcases mem_or_eq_of_mem_set hm with hm | heq
    · exact h.room task hm
    · exact hr task heq.symm
  once := by
    intro task
    have hb := h.once task
    have ha := ho task
    dsimp only
    rw [total_set hc c']
    omega

theorem count_append_singleton {l : List τ} {a : τ} :
    ((l ++ [a]).count task : Int) = l.count task + if a = task then 1 else 0 := by
  split_ifs <;> simp_all

theorem Inv.submit (h : p.Inv size) (hc : p.submits[k]? = some c) (hst : Submitted p c q c') :
    Inv size { q with submits := p.submits.set k c' } := by
  have hcr := h.credits
  have hi := h.idle
  cases hst with
  | @refused task hn | @lost task n =>
    refine h.set_submit hc ?_ hi (by simp) (by simp) fun t => rfl
    simp only [Submit.hasClaimed]
    omega
  | @loaded task hp =>
    refine h.set_submit hc ?_ hi ?_ (by simp) fun t => rfl
    · simp only [Submit.hasClaimed]
      omega
    · rintro t n heq
      cases heq
      exact hp
  | @claimed task =>
    have hp := h.loaded task p.idle (mem_of_getElem? hc)
    refine h.set_submit hc ?_ ?_ (by simp) (by simp) fun t => rfl
    · simp only [Submit.hasClaimed]
      omega
    · exact sub_nonneg.mpr hp
  | @queued task =>
    refine h.set_submit hc ?_ hi (by simp) (by simp) fun t => ?_
    · simp only [Submit.hasClaimed, length_append, length_singleton]
      omega
    · simp only [count_append_singleton, Submit.holds, Submit.task?, some.injEq, reduceCtorEq,
        ↓reduceIte]
      omega
  | @full task hf => exact absurd (h.not_full hc) (not_lt.mpr hf)
  | @refunded task => exact absurd (mem_of_getElem? hc) (h.room task)
  | @spawned task =>
    refine h.set_submit hc ?_ hi (by simp) (by simp) fun t => ?_
    · simp only [Submit.hasClaimed]
      omega
    · simp only [count_append_singleton, Submit.holds, Submit.task?, some.injEq, reduceCtorEq,
        ↓reduceIte]
      omega

/-- A worker has made an operation. -/
theorem Inv.set_worker (h : p.Inv size) {started : List τ} (hw : p.workers[k]? = some w)
    (hc : idle = p.parked - w.isParked + w'.isParked - work.length - p.claimed) (hi : 0 ≤ idle)
    (ho : ∀ task, (work.count task + started.count task : Int) = p.work.count task +
      p.started.count task) :
    Inv size { p with
      idle := idle, work := work, started := started, workers := p.workers.set k w' } where
  __ := h
  workers := by
    rw [length_set]
    exact h.workers
  credits := by
    rw [parked, total_set hw w']
    exact hc
  idle := hi
  once := by
    intro task
    have hb := h.once task
    have ha := ho task
    dsimp only
    omega

theorem Inv.run (h : p.Inv size) (hw : p.workers[k]? = some w) (hst : Ran p w q w') :
    Inv size { q with workers := p.workers.set k w' } := by
  have hc := h.credits
  have hi := h.idle
  cases hst with
  | parked =>
    refine h.set_worker hw ?_ (le_trans hi (le_add_one (le_refl _))) fun task => rfl
    simp only [Worker.isParked]
    omega
  | @took task work hwork =>
    refine h.set_worker hw ?_ hi fun t => ?_
    · rw [hwork, length_cons] at hc
      simp only [Worker.isParked]
      omega
    · simp only [count_append_singleton, hwork, count_cons, beq_iff_eq]
      split_ifs <;> omega
  | replaced =>
    refine h.set_worker hw ?_ hi fun task => rfl
    simp only [Worker.isParked]
    omega
  | @finished task w' hp =>
    have hz : w'.isParked = 0 := by
      cases w' <;> simp_all [Worker.isParked]
    refine h.set_worker hw ?_ hi fun task => rfl
    simp only [Worker.isParked]
    omega

theorem Inv.call (h : p.Inv size) :
    Inv size { p with
      submits := p.submits ++ [.load task], submitted := p.submitted ++ [task] } where
  __ := h
  credits := by
    have hc : claimed { p with
      submits := p.submits ++ [.load task], submitted := p.submitted ++ [task] } =
        p.claimed := by
      rw [claimed, total_append, total_cons, total_nil]
      exact add_zero _
    rw [hc]
    exact h.credits
  loaded := by simpa using h.loaded
  room := by simpa using h.room
  once := by
    intro t
    have hb := h.once t
    simp only [count_append_singleton, total_append, total_cons, total_nil, Submit.holds,
      Submit.task?, some.injEq]
    split_ifs <;> omega

theorem Inv.begin (h : p.Inv size) (ht : p.spawned[k]? = some task) :
    Inv size { p with spawned := p.spawned.eraseIdx k, started := p.started ++ [task] } where
  __ := h
  once := by
    intro t
    have hb := h.once t
    obtain ⟨hk, rfl⟩ := List.getElem?_eq_some_iff.mp ht
    have hp := (getElem_cons_eraseIdx_perm hk).count_eq t
    rw [count_cons] at hp
    simp only [count_append_singleton, beq_iff_eq] at hp ⊢
    split_ifs at hp ⊢ <;> omega

theorem Inv.step (h : p.Inv size) (hst : p.step a = some q) : q.Inv size := by
  cases a with
  | call task =>
    cases hst
    exact h.call
  | submit k =>
    obtain ⟨c, hc, c', r, hs, rfl⟩ := step_submit hst
    exact h.submit hc hs
  | run k =>
    obtain ⟨w, hw, w', r, hs, rfl⟩ := step_run hst
    exact h.run hw hs
  | finish k ending =>
    obtain ⟨w, hw, w', hs, rfl⟩ := step_finish hst
    exact h.run hw hs
  | begin k =>
    obtain ⟨task, ht, rfl⟩ := step_begin hst
    exact h.begin ht

/-! ## Every task is run -/

/-- The actions that end no handler and submit nothing. -/
def Action.ofPool : Action τ → Prop
  | .submit _ | .run _ | .begin _ => True
  | _ => False

/-- The pool runs on its own while the handlers it runs go on. -/
structure PoolRuns (size : Nat) (p q : WorkerPool τ) : Prop where
  runs : Runs step (fun _ a => a.ofPool) p q
  submitted : q.submitted = p.submitted
  inv : p.Inv size → q.Inv size

theorem PoolRuns.refl : PoolRuns size p p := ⟨.refl, rfl, id⟩

theorem PoolRuns.trans {r : WorkerPool τ} (h : PoolRuns size p q) (h' : PoolRuns size q r) :
    PoolRuns size p r :=
      ⟨h.runs.trans h'.runs, h'.submitted.trans h.submitted, fun hi => h'.inv (h.inv hi)⟩

theorem PoolRuns.step (ha : a.ofPool) (hst : p.step a = some q) (hs : q.submitted = p.submitted) :
    PoolRuns size p q :=
  ⟨Runs.refl.tail ha hst, hs, fun hi => hi.step hst⟩

/-- A call returns. -/
def Returns (size : Nat) (p : WorkerPool τ) (k : Nat) : Prop :=
  ∃ q, PoolRuns size p q ∧ q.submits = p.submits.set k .done

theorem Returns.submit (hc : p.submits[k]? = some c) (hst : p.submit c = some (q, c'))
    (hs : q.submitted = p.submitted)
    (h : Returns size { q with submits := p.submits.set k c' } k) : Returns size p k := by
  obtain ⟨r, hruns, hr⟩ := h
  have hstep : p.step (.submit k) = some { q with submits := p.submits.set k c' } := by
    simp [WorkerPool.step, hc, hst]
  refine ⟨r, (PoolRuns.step (a := .submit k) trivial hstep hs).trans hruns, ?_⟩
  rw [hr, set_set]

theorem returns_done (hc : p.submits[k]? = some .done) : Returns size p k := by
  obtain ⟨hk, hd⟩ := List.getElem?_eq_some_iff.mp hc
  refine ⟨p, .refl, ?_⟩
  rw [← hd, set_getElem_self]

theorem returns_spawn (hc : p.submits[k]? = some (.spawn task)) : Returns size p k := by
  refine Returns.submit hc rfl rfl ?_
  exact returns_done (getElem?_set_of_some hc _)

theorem returns_send (h : p.Inv size) (hc : p.submits[k]? = some (.send task)) :
    Returns size p k := by
  refine Returns.submit hc (if_pos (h.not_full hc)) rfl ?_
  exact returns_done (getElem?_set_of_some hc _)

theorem returns_load (h : p.Inv size) (hc : p.submits[k]? = some (.load task)) :
    Returns size p k := by
  by_cases hi : p.idle ≤ 0
  · refine Returns.submit hc (if_pos hi) rfl ?_
    exact returns_spawn (getElem?_set_of_some hc _)
  · -- nothing comes between the load and the swap, so the swap succeeds
    have hl := h.submit hc (.loaded (not_le.mp hi))
    have hc' := getElem?_set_of_some hc (.swap task p.idle)
    refine Returns.submit hc (if_neg hi) rfl ?_
    refine Returns.submit hc' (if_pos rfl) rfl ?_
    exact returns_send (hl.submit hc' .claimed) (getElem?_set_of_some hc' _)

theorem Inv.returns (h : p.Inv size) (hc : p.submits[k]? = some c) : Returns size p k := by
  cases c with
  | load task => exact returns_load h hc
  | swap task n =>
    by_cases hi : p.idle = n
    · subst hi
      refine Returns.submit hc (if_pos rfl) rfl ?_
      exact returns_send (h.submit hc .claimed) (getElem?_set_of_some hc _)
    · refine Returns.submit hc (if_neg hi) rfl ?_
      exact returns_load (h.submit hc .lost) (getElem?_set_of_some hc _)
  | send task => exact returns_send h hc
  | refund task => exact absurd (mem_of_getElem? hc) (h.room task)
  | spawn task => exact returns_spawn hc
  | done => exact returns_done hc

section

variable (h : p.Inv size)

include h

/-- The calls return, one after another. -/
theorem Inv.exists_returned {n : Nat} (hn : n ≤ p.submits.length) :
    ∃ q, PoolRuns size p q ∧ q.submits.length = p.submits.length ∧
      ∀ k < n, q.submits[k]? = some .done := by
  induction n with
  | zero => exact ⟨p, .refl, rfl, fun k hk => absurd hk (not_lt_zero k)⟩
  | succ n ih =>
    obtain ⟨q, hruns, hl, hd⟩ := ih (le_of_succ_le hn)
    have hlt : n < q.submits.length := by omega
    obtain ⟨r, hre, hr⟩ := (hruns.inv h).returns (getElem?_eq_getElem hlt)
    refine ⟨r, hruns.trans hre, by rw [hr, length_set, hl], fun k hk => ?_⟩
    rw [hr]
    by_cases hkn : k = n
    · subst hkn
      exact getElem?_set_self hlt
    · rw [getElem?_set_ne (Ne.symm hkn)]
      exact hd k (by omega)

/-- A queued task has a parked worker. -/
theorem Inv.exists_parked (hwork : p.work ≠ []) :
    ∃ k : Nat, p.workers[k]? = some Worker.parked := by
  have hcl : 0 ≤ p.claimed := total_nonneg fun c _ => c.hasClaimed_nonneg
  have hl := length_pos_iff.mpr hwork
  have hc := h.credits
  have hi := h.idle
  have hp : 0 < total Worker.isParked p.workers := by
    unfold parked at hc
    omega
  obtain ⟨k, w, hk, hw⟩ := exists_pos_of_total_pos hp
  cases w with
  | parked => exact ⟨k, hk⟩
  | credit | running | gone => exact absurd hw (lt_irrefl 0)

/-- The queued tasks are taken, one after another. -/
theorem Inv.exists_taken : ∃ q, PoolRuns size p q ∧ q.submits = p.submits ∧ q.work = [] := by
  induction hw : p.work generalizing p with
  | nil => exact ⟨p, .refl, rfl, hw⟩
  | cons task work ih =>
    obtain ⟨k, hk⟩ := h.exists_parked (by simp [hw])
    have hstep : p.step (.run k) = some { p with
          work := work
          started := p.started ++ [task]
          workers := p.workers.set k (.running task) } := by
      simp [WorkerPool.step, hk, WorkerPool.run, hw]
    obtain ⟨q, hr, hs, hq⟩ := ih (h.step hstep) rfl
    exact ⟨q, (PoolRuns.step (a := .run k) trivial hstep rfl).trans hr, hs, hq⟩

/-- The goroutines begin, one after another. -/
theorem Inv.exists_begun :
    ∃ q, PoolRuns size p q ∧ q.submits = p.submits ∧ q.work = p.work ∧ q.spawned = [] := by
  induction hs : p.spawned generalizing p with
  | nil => exact ⟨p, .refl, rfl, rfl, hs⟩
  | cons task spawned ih =>
    have hstep : p.step (.begin 0) =
        some { p with spawned := spawned, started := p.started ++ [task] } := by
      simp [WorkerPool.step, hs]
    obtain ⟨q, hr, hsu, hw, hq⟩ := ih (h.step hstep) rfl
    exact ⟨q, (PoolRuns.step (a := .begin 0) trivial hstep rfl).trans hr, hsu, hw, hq⟩

/-- Nothing waits: every task has been started, and once. -/
theorem Inv.perm (hs : ∀ c ∈ p.submits, c = .done)
    (hw : p.work = []) (hsp : p.spawned = []) : p.started.Perm p.submitted := by
  refine perm_iff_count.mpr fun task => ?_
  have ho := h.once task
  have hh : total (Submit.holds task) p.submits = 0 :=
    total_eq_zero fun c hc => by rw [hs c hc]; rfl
  rw [hh, hw, hsp, count_nil] at ho
  omega

/-- Without any handler returning, the pool starts every task that was submitted, and
each of them once. -/
theorem exists_started :
    ∃ q, Runs step (fun _ a => a.ofPool) p q ∧ q.submitted = p.submitted ∧
      q.started.Perm q.submitted := by
  obtain ⟨q, hq, hl, hre⟩ := h.exists_returned (le_refl _)
  obtain ⟨r, hr, hs, hw⟩ := (hq.inv h).exists_taken
  obtain ⟨t, ht, hs', hw', hsp⟩ := (hr.inv (hq.inv h)).exists_begun
  have hruns := (hq.trans hr).trans ht
  refine ⟨t, hruns.runs, hruns.submitted, (hruns.inv h).perm (fun c hc => ?_) (hw'.trans hw) hsp⟩
  rw [hs', hs] at hc
  obtain ⟨k, hk, rfl⟩ := getElem_of_mem hc
  have hd := hre k (by omega)
  rw [getElem?_eq_getElem hk] at hd
  exact some.inj hd

end

/-- Whatever the interleaving, credits are never negative, there are no more queued
tasks than parked workers, with a worker more for every credit spent on a task that is
not queued yet, no task is started more often than it was submitted, and every task is
started, and once, though no handler ever returns. -/
theorem pool_serves {size : Nat} {p : WorkerPool τ}
    (h : Runs step (fun _ _ => True) (newH2WorkerPool τ size) p) :
    0 ≤ p.idle ∧ p.idle ≤ size ∧ p.work.length + p.claimed ≤ p.parked ∧
      (∀ task, p.started.count task ≤ p.submitted.count task) ∧
      ∃ q, Runs step (fun _ a => a.ofPool) p q ∧ q.submitted = p.submitted ∧
        q.started.Perm q.submitted := by
  have hinv := h.invariant (fun hinv _ hst => hinv.step hst) Inv.init
  have hc := hinv.credits
  have hi := hinv.idle
  have hp := hinv.parked_le
  have hcl : 0 ≤ p.claimed := total_nonneg fun c _ => c.hasClaimed_nonneg
  refine ⟨hi, by omega, by omega, fun task => ?_, exists_started hinv⟩
  have ho := hinv.once task
  have hh : 0 ≤ total (Submit.holds task) p.submits := total_nonneg fun c _ => by
    unfold Submit.holds
    split_ifs <;> decide
  omega

/-- A pool of one worker is given a second task while it runs the first. -/
def busyWorker : List (Action Nat) :=
  [.run 0, .call 7, .submit 0, .submit 0, .submit 0, .run 0, .call 8, .submit 1, .submit 1]

theorem busyWorker_served :
    ∃ p, exec step (fun _ _ => True) (newH2WorkerPool Nat 1) busyWorker = some p ∧
    p.workers = [.running 7] ∧ p.spawned = [8] ∧ p.work.length + p.claimed ≤ p.parked :=
  have hexec : exec step (fun _ _ => True) (newH2WorkerPool Nat 1) busyWorker = some _ := rfl
  ⟨_, hexec, rfl, rfl, (pool_serves (runs_of_exec hexec)).2.2.1⟩

end WorkerPool

end Celeris.H2
