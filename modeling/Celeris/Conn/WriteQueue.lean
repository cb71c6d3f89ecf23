import Celeris.Data.Bytes
import Celeris.Data.Counting
import Celeris.Data.Transition

/-!
# The sharded write queue (`internal/conn/h2.go`)

Handler goroutines append frames to the shards of a queue and wake the event loop,
which takes the shards one after another and writes what they held. An `Enqueue` call
appends under the lock of its shard, then exchanges the flag `pending`, then signals
the eventfd of the loop if it was the one that set the flag; a drain clears the flag,
then takes each shard under its lock. Every action of the system is one of these
operations.

The event loop sleeps until its eventfd is signalled or a socket is ready. Awake, in
`ProcessH2`, it may append frames of its own (`enqueueFromLoop`, which sets the flag and
signals nothing), and it drains whenever the flag is set: after every frame, and one
last time before it sleeps again. `enqueued` and `written` only tell what happened:
the frames in the order they were appended, and in the order they were written.
-/

namespace Celeris.Conn

open Transition Counting List Function Nat Option

/-! ## States -/

def h2QueueShards : Nat := 4

/-- Pre-encoded frame bytes, and the stream they are for. -/
structure FrameBuf where
  streamID : Nat
  data : Bytes
deriving DecidableEq, Repr

def shardOf (streamID : Nat) : Nat := (streamID >>> 1) % h2QueueShards

/-- Where an `Enqueue` call is. -/
inductive Enqueue where
  /-- About to append to the shard. -/
  | append (buf : FrameBuf)
  /-- About to exchange `pending`. -/
  | exchange
  /-- About to signal the eventfd. -/
  | signal
  /-- Returned. -/
  | done
deriving DecidableEq, Repr

/-- Where the event loop is; `last` tells the drain before it sleeps. -/
inductive LoopAt where
  | asleep
  /-- In `ProcessH2`, not in a drain. -/
  | awake
  /-- In `enqueueFromLoop`, about to set `pending`. -/
  | store
  /-- In `DrainTo`, about to take a shard. -/
  | take (last : Bool) (shard : Nat)
  /-- In `DrainTo`, writing what it took from a shard. -/
  | write (last : Bool) (shard : Nat) (spare : List FrameBuf)
deriving DecidableEq, Repr

/-- A write queue, the calls on it and the event loop. -/
structure ShardedQueue where
  shards : Nat → List FrameBuf := fun _ => []
  pending : Bool := false
  wakeups : Nat := 0
  calls : List Enqueue := []
  loop : LoopAt := .asleep
  enqueued : List FrameBuf := []
  written : List FrameBuf := []

namespace ShardedQueue

/-! ## Steps -/

/-- Append to the shard of a stream, under its lock. -/
def append (q : ShardedQueue) (buf : FrameBuf) : ShardedQueue :=
  { q with
    shards := Function.update q.shards (shardOf buf.streamID)
      (q.shards (shardOf buf.streamID) ++ [buf])
    enqueued := q.enqueued ++ [buf] }

/-- One operation of `Enqueue`. -/
def enqueue (q : ShardedQueue) : Enqueue → Option (ShardedQueue × Enqueue)
  | .append buf => some (q.append buf, .exchange)
  | .exchange => if q.pending then some (q, .done) else some ({ q with pending := true }, .signal)
  | .signal => some ({ q with wakeups := q.wakeups + 1 }, .done)
  | .done => none

/-- One operation of `enqueueFromLoop` after its append, or of `DrainTo` after it has
cleared `pending`. -/
def advance (q : ShardedQueue) : Option ShardedQueue :=
  match q.loop with
  | .store => some { q with pending := true, loop := .awake }
  | .take last i =>
    if i < h2QueueShards then
      some { q with shards := Function.update q.shards i [], loop := .write last i (q.shards i) }
    else some { q with loop := if last then .asleep else .awake }
  | .write last i [] => some { q with loop := .take last (i + 1) }
  | .write last i (buf :: spare) =>
    some { q with written := q.written ++ [buf], loop := .write last i spare }
  | _ => none

/-- What can happen. -/
inductive Action where
  /-- `Enqueue` is called. -/
  | call (buf : FrameBuf)
  /-- A call makes its next operation. -/
  | enqueue (call : Nat)
  /-- The loop reads its eventfd, which has been signalled. -/
  | wake
  /-- The loop wakes for a socket. -/
  | read
  /-- The loop appends a frame of its own. -/
  | enqueueFromLoop (buf : FrameBuf)
  /-- The loop tests `pending`, and clears it and drains if it is set. -/
  | drain (last : Bool)
  /-- The loop makes its next operation. -/
  | advance
deriving DecidableEq, Repr

def step (q : ShardedQueue) : Action → Option ShardedQueue
  | .call buf => some { q with calls := q.calls ++ [.append buf] }
  | .enqueue k => do
    let c ← q.calls[k]?
    let (r, c') ← q.enqueue c
    some { r with calls := q.calls.set k c' }
  | .wake =>
    if q.loop = .asleep ∧ 0 < q.wakeups then some { q with loop := .awake, wakeups := 0 } else none
  | .read => if q.loop = .asleep then some { q with loop := .awake } else none
  | .enqueueFromLoop buf =>
    if q.loop = .awake then some { q.append buf with loop := .store } else none
  | .drain last =>
    if q.loop = .awake then
      if q.pending then some { q with pending := false, loop := .take last 0 }
      else some { q with loop := if last then .asleep else .awake }
    else none
  | .advance => q.advance

/-! ## What a step does -/

/-- The operations of a call. -/
inductive Enqueued (q : ShardedQueue) : Enqueue → ShardedQueue → Enqueue → Prop
  | appended {buf : FrameBuf} : Enqueued q (.append buf) (q.append buf) .exchange
  | coalesced : q.pending = true → Enqueued q .exchange q .done
  | set : q.pending = false → Enqueued q .exchange { q with pending := true } .signal
  | signalled : Enqueued q .signal { q with wakeups := q.wakeups + 1 } .done

variable {q r : ShardedQueue} {k i : Nat} {last : Bool} {c c' : Enqueue} {streamID wakeups : Nat}
  {l l' : List FrameBuf} {loop : LoopAt} {pending : Bool}

theorem enqueued_of_enqueue (h : q.enqueue c = some (r, c')) : Enqueued q c r c' := by
  cases c with
  | append buf =>
    cases h
    exact .appended
  | exchange =>
    rw [enqueue] at h
    split_ifs at h with hp <;> cases h
    · exact .coalesced hp
    · exact .set (Bool.not_eq_true _ ▸ hp)
  | signal =>
    cases h
    exact .signalled
  | done => cases h

theorem step_enqueue (h : q.step (.enqueue k) = some r) :
    ∃ c, q.calls[k]? = some c ∧ ∃ c' t, Enqueued q c t c' ∧
      r = { t with calls := q.calls.set k c' } := by
  simp only [step, bind_eq_bind, bind_eq_some_iff] at h
  obtain ⟨c, hc, ⟨t, c'⟩, hs, hr⟩ := h
  exact ⟨c, hc, c', t, enqueued_of_enqueue hs, (some.inj hr).symm⟩

/-- The operations of the event loop. -/
inductive Advanced (q : ShardedQueue) : ShardedQueue → Prop
  | stored : q.loop = .store → Advanced q { q with pending := true, loop := .awake }
  | took {last : Bool} {i : Nat} : q.loop = .take last i → i < h2QueueShards →
      Advanced q { q with
        shards := Function.update q.shards i [], loop := .write last i (q.shards i) }
  | finished {last : Bool} {i : Nat} : q.loop = .take last i → h2QueueShards ≤ i →
      Advanced q { q with loop := if last then .asleep else .awake }
  | emptied {last : Bool} {i : Nat} : q.loop = .write last i [] →
      Advanced q { q with loop := .take last (i + 1) }
  | wrote {last : Bool} {i : Nat} {buf : FrameBuf} {spare : List FrameBuf} :
      q.loop = .write last i (buf :: spare) →
      Advanced q { q with written := q.written ++ [buf], loop := .write last i spare }

theorem advanced (h : q.advance = some r) : Advanced q r := by
  unfold advance at h
  split at h
  next hl =>
    cases h
    exact .stored hl
  next last i hl =>
    split at h
    · rename_i hi
      cases h
      exact .took hl hi
    · rename_i hi
      cases h
      exact .finished hl (Nat.le_of_not_lt hi)
  next last i hl =>
    cases h
    exact .emptied hl
  next last i buf spare hl =>
    cases h
    exact .wrote hl
  next => cases h

/-! ## The invariant -/

def ofStream (streamID : Nat) (bufs : List FrameBuf) : List FrameBuf :=
  bufs.filter fun buf => buf.streamID = streamID

@[simp] theorem ofStream_nil : ofStream streamID [] = [] := rfl

@[simp] theorem ofStream_append :
    ofStream streamID (l ++ l') = ofStream streamID l ++ ofStream streamID l' := filter_append ..

def taken (q : ShardedQueue) : List FrameBuf :=
  match q.loop with
  | .write _ _ spare => spare
  | _ => []

/-- A drain is in progress that has not come to a shard yet. -/
def visits (q : ShardedQueue) (k : Nat) : Prop :=
  match q.loop with
  | .take _ i => i ≤ k
  | .write _ i _ => i < k
  | _ => False

/-- The loop sleeps, or will without testing `pending` again. -/
def resting (q : ShardedQueue) : Prop :=
  match q.loop with
  | .asleep | .take true _ | .write true _ _ => True
  | _ => False

/-- What the loop has taken came from one shard. -/
def TakenFrom (q : ShardedQueue) : Prop :=
  match q.loop with
  | .write _ i spare => ∀ buf ∈ spare, shardOf buf.streamID = i
  | _ => True

/-- What holds in every state of a run. -/
structure Inv (q : ShardedQueue) : Prop where
  sharded : ∀ k, ∀ buf ∈ q.shards k, shardOf buf.streamID = k
  takenFrom : q.TakenFrom
  ordered : ∀ i, ofStream i q.written ++ ofStream i q.taken ++ ofStream i (q.shards (shardOf i)) =
    ofStream i q.enqueued
  visited : ∀ k, q.shards k ≠ [] →
    q.pending = true ∨ q.visits k ∨ .exchange ∈ q.calls ∨ q.loop = .store
  woken : q.resting → q.pending = true → 0 < q.wakeups ∨ .signal ∈ q.calls

theorem Inv.lt_of_ne_nil (h : q.Inv) (hk : q.shards k ≠ []) : k < h2QueueShards := by
  obtain ⟨buf, hb⟩ := exists_mem_of_ne_nil _ hk
  rw [← h.sharded k buf hb]
  exact mod_lt _ (by decide)

/-- Only frames of its own streams are in a shard. -/
theorem ofStream_eq_nil {bufs : List FrameBuf} (h : ∀ buf ∈ bufs, shardOf buf.streamID = k)
    (hik : shardOf i ≠ k) : ofStream i bufs = [] := by
  refine filter_eq_nil_iff.mpr fun buf hb hi => hik ?_
  rw [← of_decide_eq_true hi]
  exact h buf hb

/-- A frame is appended by a thread that will set `pending`, or by the loop. -/
theorem Inv.appended (h : q.Inv) {buf : FrameBuf} {calls : List Enqueue}
    (hc : .exchange ∈ calls ∨ loop = .store) (hs : .signal ∈ q.calls → .signal ∈ calls)
    (hl : loop = q.loop ∨ loop = .store ∧ q.loop = .awake) :
    Inv { q.append buf with calls := calls, loop := loop } := by
  have ht : taken { q.append buf with calls := calls, loop := loop } = q.taken := by
    rcases hl with rfl | ⟨rfl, ha⟩
    · rfl
    · unfold taken
      rw [ha]
  constructor
  · exact (forall_update_iff q.shards fun k l => ∀ b ∈ l, shardOf b.streamID = k).mpr
      ⟨forall_mem_append.mpr ⟨h.sharded _, forall_mem_singleton.mpr rfl⟩, fun k _ => h.sharded k⟩
  · rcases hl with rfl | ⟨rfl, -⟩
    · exact h.takenFrom
    · trivial
  · intro i
    rw [ht]
    have ho := h.ordered i
    by_cases hi : shardOf i = shardOf buf.streamID
    · simp only [append, hi, update_self, ofStream_append, ← append_assoc]
      rw [← hi, ho]
    · have hne : buf.streamID ≠ i := by
        rintro rfl
        exact hi rfl
      simp only [append, update_of_ne hi, ofStream_append]
      rw [ho, ofStream, ofStream, filter_singleton]
      simp [hne]
  · intro k _
    rcases hc with hc | hc
    · exact .inr (.inr (.inl hc))
    · exact .inr (.inr (.inr hc))
  · intro hr hp
    rcases hl with rfl | ⟨rfl, -⟩
    · exact (h.woken hr hp).imp_right hs
    · exact hr.elim

/-- Nothing changes but the calls, the flag and the wakeups. -/
theorem Inv.calls (h : q.Inv) {calls : List Enqueue}
    (hp : q.pending = true ∨ .exchange ∈ q.calls → pending = true ∨ .exchange ∈ calls)
    (hw : pending = true → (q.pending = true ∧ (0 < q.wakeups ∨ .signal ∈ q.calls)) ∨
      q.pending = false →
      0 < wakeups ∨ .signal ∈ calls) :
        Inv { q with pending := pending, wakeups := wakeups, calls := calls } where
  __ := h
  visited := by
    intro k hk
    rcases h.visited k hk with hset | hv | hc | hs
    · exact (hp (.inl hset)).imp_right fun hc => .inr (.inl hc)
    · exact .inr (.inl hv)
    · exact (hp (.inr hc)).imp_right fun hc => .inr (.inl hc)
    · exact .inr (.inr (.inr hs))
  woken := by
    intro hr hset
    refine hw hset ?_
    cases hb : q.pending with
    | false => exact .inr rfl
    | true => exact .inl ⟨rfl, h.woken hr hb⟩

theorem Inv.enqueue (h : q.Inv) (hc : q.calls[k]? = some c) (hst : Enqueued q c r c') :
    Inv { r with calls := q.calls.set k c' } := by
  have hn := mem_set_of_some hc c'
  cases hst with
  | @appended buf =>
    refine h.appended (.inl hn) (fun hs => ?_) (.inl rfl)
    exact mem_set_of_ne hc hs (by simp)
  | coalesced hset =>
    refine h.calls (fun _ => .inl hset) fun _ hw => ?_
    rcases hw with ⟨-, hw⟩ | hcl
    · exact hw.imp_right fun hs => mem_set_of_ne hc hs (by simp)
    · rw [hset] at hcl
      cases hcl
  | set hcl => exact h.calls (fun _ => .inl rfl) fun _ _ => .inr hn
  | signalled =>
    refine h.calls (fun hset => ?_) fun _ _ => .inl (succ_pos _)
    exact hset.imp_right fun hcall => mem_set_of_ne hc hcall (by simp)

/-- The loop takes a shard. -/
theorem Inv.take (h : q.Inv) (hl : q.loop = .take last i) :
    Inv { q with shards := Function.update q.shards i [], loop := .write last i (q.shards i) } := by
  constructor
  · exact (forall_update_iff q.shards fun k l => ∀ b ∈ l, shardOf b.streamID = k).mpr
      ⟨nofun, fun k _ => h.sharded k⟩
  · exact h.sharded i
  · intro j
    have ho := h.ordered j
    simp only [taken, hl] at ho ⊢
    by_cases hj : shardOf j = i
    · rw [← ho, hj, update_self]
      simp
    · rw [← ho, update_of_ne hj, ofStream_eq_nil (h.sharded i) hj]
      rfl
  · intro k hk
    by_cases hki : k = i
    · simp [hki] at hk
    · simp only [update_of_ne hki] at hk
      rcases h.visited k hk with hset | hv | hc | hs
      · exact .inl hset
      · rw [visits, hl] at hv
        exact .inr (.inl (lt_of_le_of_ne hv (Ne.symm hki)))
      · exact .inr (.inr (.inl hc))
      · rw [hl] at hs
        cases hs
  · intro hr
    refine h.woken ?_
    rw [resting, hl]
    cases last <;> exact hr

/-- The loop is somewhere else, with the same frames. -/
theorem Inv.move (h : q.Inv) (hf : TakenFrom { q with loop := loop })
    (ht : taken { q with loop := loop } = q.taken)
    (hv : ∀ k, q.shards k ≠ [] → q.pending = true ∨ q.visits k ∨ q.loop = .store →
      pending = true ∨ visits { q with loop := loop } k ∨ loop = .store)
    (hw : resting { q with loop := loop } → pending = true → 0 < wakeups ∨ .signal ∈ q.calls) :
    Inv { q with loop := loop, pending := pending, wakeups := wakeups } where
  sharded := h.sharded
  takenFrom := hf
  ordered := by
    intro i
    rw [← h.ordered i, ← ht]
    rfl
  visited := by
    intro k hk
    by_cases hc : .exchange ∈ q.calls
    · exact .inr (.inr (.inl hc))
    · refine (hv k hk ?_).imp_right (.imp_right .inr)
      exact (h.visited k hk).imp_right (.imp_right (Or.resolve_left · hc))
  woken := hw

/-- The loop wakes. -/
theorem Inv.awake (h : q.Inv) (hl : q.loop = .asleep) :
    Inv { q with loop := .awake, wakeups := wakeups } := by
  refine h.move trivial ?_ ?_ fun hr => hr.elim
  · simp [taken, hl]
  · simp [visits, hl]

/-- A drain begins: it will come to every shard. -/
theorem Inv.drain (h : q.Inv) (hl : q.loop = .awake) :
    Inv { q with pending := false, loop := .take last 0 } := by
  refine h.move trivial ?_ (fun k _ _ => .inr (.inl (zero_le k))) fun _ hs => ?_
  · simp [taken, hl]
  · cases hs

/-- There is nothing to drain. -/
theorem Inv.skip (h : q.Inv) (hl : q.loop = .awake) (hc : ¬ q.pending = true) :
    Inv { q with loop := if last then .asleep else .awake } := by
  refine h.move ?_ ?_ ?_ fun _ hs => absurd hs hc
  · cases last <;> trivial
  · cases last <;> simp [taken, hl]
  · simp +contextual [visits, hl]

theorem Inv.advance (h : q.Inv) (hst : Advanced q r) : r.Inv := by
  cases hst with
  | stored hl =>
    refine h.move trivial ?_ (fun _ _ _ => .inl rfl) fun hr => hr.elim
    simp [taken, hl]
  | took hl _ => exact h.take hl
  | @finished last i hl hi =>
    refine h.move ?_ ?_ (fun k hk hbe => ?_) fun hr => ?_
    · cases last <;> trivial
    · cases last <;> simp [taken, hl]
    · rcases hbe with hset | hv | hs
      · exact .inl hset
      · rw [visits, hl] at hv
        exact absurd (h.lt_of_ne_nil hk) (not_lt.mpr (le_trans hi hv))
      · rw [hl] at hs
        cases hs
    · cases last with
      | false => exact hr.elim
      | true =>
        refine h.woken ?_
        rw [resting, hl]
        trivial
  | @emptied last i hl =>
    refine h.move trivial ?_ ?_ fun hr => ?_
    · simp [taken, hl]
    · intro k _ hb
      rw [visits, hl] at hb
      exact hb.imp_right (.imp_right fun hs => by cases hs)
    · refine h.woken ?_
      rw [resting, hl]
      cases last <;> exact hr
  | @wrote last i buf spare hl =>
    have hf := h.takenFrom
    rw [TakenFrom, hl] at hf
    constructor
    · exact h.sharded
    · exact fun b hb => hf b (mem_cons_of_mem _ hb)
    · intro j
      have ho := h.ordered j
      have hsp : ofStream j (buf :: spare) = ofStream j [buf] ++ ofStream j spare := by
        rw [← ofStream_append, singleton_append]
      simp only [taken, hl, ofStream_append] at ho ⊢
      simp [← ho, hsp]
    · intro k hk
      have hbe := h.visited k hk
      simpa [visits, hl] using hbe
    · intro hr
      refine h.woken ?_
      rw [resting, hl]
      cases last <;> exact hr

theorem Inv.step {a : Action} (h : q.Inv) (hst : q.step a = some r) : r.Inv := by
  cases a with rw [ShardedQueue.step] at hst
  | call buf =>
    cases hst
    refine h.calls (fun hset => ?_) fun hset hw => ?_
    · exact hset.imp_right fun hcall => mem_append_left _ hcall
    · rcases hw with ⟨-, hw⟩ | hcl
      · exact hw.imp_right fun hs => mem_append_left _ hs
      · rw [hset] at hcl
        cases hcl
  | enqueue k =>
    obtain ⟨c, hc, c', t, hstep, rfl⟩ := step_enqueue hst
    exact h.enqueue hc hstep
  | wake =>
    split_ifs at hst with ha
    cases hst
    exact h.awake ha.1
  | read =>
    split_ifs at hst with ha
    cases hst
    exact h.awake ha
  | enqueueFromLoop buf =>
    split_ifs at hst with haw
    cases hst
    exact h.appended (.inr rfl) id (.inr ⟨rfl, haw⟩)
  | drain last =>
    split at hst
    · rename_i haw
      split at hst
      · cases hst
        exact h.drain haw
      · rename_i hset
        cases hst
        exact h.skip haw hset
    · cases hst
  | advance => exact h.advance (advanced hst)

theorem Inv.init : Inv {} where
  sharded := fun _ _ hb => absurd hb not_mem_nil
  takenFrom := trivial
  ordered := fun _ => rfl
  visited := fun _ hk => absurd rfl hk
  woken := fun _ hs => by cases hs

/-! ## No frame is lost -/

/-- Some thread has appended a frame and has not signalled yet, or the loop has and has
not set `pending` yet. -/
def between (q : ShardedQueue) : Prop := .exchange ∈ q.calls ∨ .signal ∈ q.calls ∨ q.loop = .store

/-- A shard that holds frames is announced, and a loop that sleeps is woken for it. -/
def Announced (q : ShardedQueue) : Prop :=
  ∀ k, q.shards k ≠ [] → ¬ q.between →
    (q.pending = true ∨ q.visits k) ∧ (q.loop = .asleep → 0 < q.wakeups)

/-- Every frame was written once, and the frames of a stream in their order. -/
def Delivered (q : ShardedQueue) : Prop :=
  q.written.Perm q.enqueued ∧ ∀ i, ofStream i q.written = ofStream i q.enqueued

/-- Every call has returned, and the loop sleeps and has nothing to wake for. -/
structure Settled (q : ShardedQueue) : Prop where
  calls : ∀ c ∈ q.calls, c = .done
  asleep : q.loop = .asleep
  wakeups : q.wakeups = 0

theorem Inv.announced (h : q.Inv) : q.Announced := by
  intro k hk hb
  have ha : q.pending = true ∨ q.visits k := by
    rcases h.visited k hk with hset | hv | hc | hst
    · exact .inl hset
    · exact .inr hv
    · exact absurd (.inl hc) hb
    · exact absurd (.inr (.inr hst)) hb
  refine ⟨ha, fun hasleep => ?_⟩
  have hset : q.pending = true := by
    rcases ha with hset | hv
    · exact hset
    · rw [visits, hasleep] at hv
      exact hv.elim
  have hr : q.resting := by
    rw [resting, hasleep]
    trivial
  rcases h.woken hr hset with hw | hs
  · exact hw
  · exact absurd (.inr (.inl hs)) hb

/-- Lists with the same frames of every stream hold the same frames. -/
theorem perm_of_ofStream (h : ∀ i, ofStream i l = ofStream i l') : l.Perm l' := by
  refine perm_iff_count.mpr fun buf => ?_
  have hc := congrArg (count buf) (h buf.streamID)
  rw [ofStream, ofStream, count_filter (by simp), count_filter (by simp)] at hc
  exact hc

theorem Inv.delivered (h : q.Inv) (hs : q.Settled) : q.Delivered := by
  have hb : ¬ q.between := by
    rintro (hc | hc | hstore)
    · cases hs.calls _ hc
    · cases hs.calls _ hc
    · rw [hs.asleep] at hstore
      cases hstore
  have he : ∀ k, q.shards k = [] := by
    intro k
    by_contra hk
    have hw := (h.announced k hk hb).2 hs.asleep
    rw [hs.wakeups] at hw
    exact absurd hw (lt_irrefl 0)
  have hst : ∀ i, ofStream i q.written = ofStream i q.enqueued := by
    intro i
    have ho := h.ordered i
    simpa only [taken, hs.asleep, he, ofStream_nil, append_nil] using ho
  exact ⟨perm_of_ofStream hst, hst⟩

/-! ## The loop comes to rest -/

/-- The actions of the event loop that need no socket. -/
def Action.ofLoop : Action → Prop
  | .wake | .drain _ | .advance => True
  | _ => False

/-- The loop runs on its own, and what others did is as it was. -/
structure LoopRuns (q r : ShardedQueue) : Prop where
  runs : Runs step (fun _ a => a.ofLoop) q r
  calls : r.calls = q.calls
  enqueued : r.enqueued = q.enqueued
  wakeups : r.wakeups = q.wakeups

theorem LoopRuns.trans {t : ShardedQueue} (h : LoopRuns q r) (h' : LoopRuns r t) :
    LoopRuns q t where
  runs := h.runs.trans h'.runs
  calls := h'.calls.trans h.calls
  enqueued := h'.enqueued.trans h.enqueued
  wakeups := h'.wakeups.trans h.wakeups

theorem LoopRuns.advance (h : q.advance = some r) : LoopRuns q r := by
  have hr : Runs step (fun _ a => a.ofLoop) q r := Runs.refl.tail (a := .advance) trivial h
  cases advanced h <;> exact ⟨hr, rfl, rfl, rfl⟩

/-- It writes all it has taken from a shard. -/
theorem loopRuns_write {spare : List FrameBuf}
    (hl : q.loop = .write last i spare) : ∃ r, LoopRuns q r ∧ r.loop = .take last (i + 1) := by
  induction spare generalizing q with
  | nil =>
    refine ⟨{ q with loop := .take last (i + 1) }, LoopRuns.advance ?_, rfl⟩
    rw [ShardedQueue.advance, hl]
  | cons buf spare ih =>
    have hw : q.advance =
        some { q with written := q.written ++ [buf], loop := .write last i spare } := by
      rw [ShardedQueue.advance, hl]
    obtain ⟨r, hruns, hr⟩ :=
      @ih { q with written := q.written ++ [buf], loop := .write last i spare } rfl
    exact ⟨r, (LoopRuns.advance hw).trans hruns, hr⟩

/-- It has taken every shard. -/
theorem loopRuns_finish (hi : h2QueueShards ≤ i)
    (hl : q.loop = .take last i) : ∃ r, LoopRuns q r ∧ r.loop = if last then .asleep
      else .awake := by
  refine ⟨{ q with loop := if last then .asleep else .awake }, LoopRuns.advance ?_, rfl⟩
  rw [ShardedQueue.advance, hl]
  exact if_neg (not_lt.mpr hi)

/-- It takes the rest of the shards, one after another. -/
theorem loopRuns_take {n : Nat} (hi : h2QueueShards ≤ i + n)
    (hl : q.loop = .take last i) : ∃ r, LoopRuns q r ∧ r.loop = if last then .asleep
      else .awake := by
  induction n generalizing i q with
  | zero => exact loopRuns_finish hi hl
  | succ n ih =>
    by_cases hlt : i < h2QueueShards
    · have htake : q.advance =
          some { q with shards := update q.shards i [], loop := .write last i (q.shards i) } := by
        rw [ShardedQueue.advance, hl]
        exact if_pos hlt
      obtain ⟨r, hw, hr⟩ := loopRuns_write (q :=
        { q with shards := update q.shards i [], loop := .write last i (q.shards i) }) rfl
      obtain ⟨t, hrest, ht⟩ := ih (by omega) hr
      exact ⟨t, ((LoopRuns.advance htake).trans hw).trans hrest, ht⟩
    · exact loopRuns_finish (Nat.le_of_not_lt hlt) hl

theorem loopRuns_drain (hl : q.loop = .awake) : ∃ r, LoopRuns q r ∧ r.loop = .asleep := by
  have hs : q.step (.drain true) = if q.pending then
    some { q with pending := false, loop := .take true 0 }
      else some { q with loop := .asleep } := if_pos hl
  split at hs
  · obtain ⟨r, hruns, hr⟩ := loopRuns_take (q := { q with pending := false, loop := .take true 0 })
      (Nat.le_add_left ..) rfl
    exact ⟨r, LoopRuns.trans ⟨Runs.refl.tail (a := .drain true) trivial hs, rfl, rfl, rfl⟩ hruns,
      hr⟩
  · exact ⟨_, ⟨Runs.refl.tail (a := .drain true) trivial hs, rfl, rfl, rfl⟩, rfl⟩

/-- Wherever it is, the loop goes to sleep. -/
theorem loopRuns_asleep : ∃ r, LoopRuns q r ∧ r.loop = .asleep := by
  have he : ∃ r, LoopRuns q r ∧ (r.loop = .asleep ∨ r.loop = .awake) := by
    have htake : ∀ {last : Bool} {i : Nat} {t : ShardedQueue}, t.loop = .take last i →
        ∃ r, LoopRuns t r ∧ (r.loop = .asleep ∨ r.loop = .awake) := by
      intro last i t hl
      obtain ⟨r, hruns, hr⟩ := loopRuns_take (Nat.le_add_left ..) hl
      cases last
      · exact ⟨r, hruns, .inr hr⟩
      · exact ⟨r, hruns, .inl hr⟩
    cases hl : q.loop with
    | asleep => exact ⟨q, ⟨.refl, rfl, rfl, rfl⟩, .inl hl⟩
    | awake => exact ⟨q, ⟨.refl, rfl, rfl, rfl⟩, .inr hl⟩
    | store =>
      refine ⟨{ q with pending := true, loop := .awake }, LoopRuns.advance ?_, .inr rfl⟩
      rw [ShardedQueue.advance, hl]
    | take last i => exact htake hl
    | write last i spare =>
      obtain ⟨r, hruns, hr⟩ := loopRuns_write hl
      obtain ⟨t, hrest, ht⟩ := htake hr
      exact ⟨t, hruns.trans hrest, ht⟩
  obtain ⟨r, hruns, hr | hr⟩ := he
  · exact ⟨r, hruns, hr⟩
  · obtain ⟨t, hd, ht⟩ := loopRuns_drain hr
    exact ⟨t, hruns.trans hd, ht⟩

/-- When the calls have returned, the loop settles. -/
theorem exists_settled (h : ∀ c ∈ q.calls, c = .done) :
    ∃ r, Runs step (fun _ a => a.ofLoop) q r ∧ r.enqueued = q.enqueued ∧ r.Settled := by
  obtain ⟨r, hruns, hr⟩ := loopRuns_asleep
  by_cases hw : r.wakeups = 0
  · exact ⟨r, hruns.runs, hruns.enqueued, hruns.calls ▸ h, hr, hw⟩
  · -- a wakeup is left from a drain that has taken its frames already
    have hwake : r.step .wake = some { r with loop := .awake, wakeups := 0 } :=
      if_pos ⟨hr, Nat.pos_of_ne_zero hw⟩
    obtain ⟨t, hd, ht⟩ := loopRuns_drain (q := { r with loop := .awake, wakeups := 0 }) rfl
    refine ⟨t, (hruns.runs.tail (a := Action.wake) trivial hwake).trans hd.runs,
      hd.enqueued.trans hruns.enqueued, ?_, ht, hd.wakeups⟩
    rw [hd.calls]
    exact hruns.calls ▸ h

/-- Whatever the interleaving, frames are announced until they are taken, the frames of
a stream are written in their order, and every frame is written once when the loop has
drained after its last wakeup, which it does when the calls have returned. -/
theorem queue_delivers {q : ShardedQueue} (h : Runs step (fun _ _ => True) {} q) :
    q.Announced ∧ (∀ i, ofStream i q.written <+: ofStream i q.enqueued) ∧
      (q.Settled → q.Delivered) ∧
      ((∀ c ∈ q.calls, c = .done) → ∃ r, Runs step (fun _ a => a.ofLoop) q r ∧
        r.enqueued = q.enqueued ∧ r.Settled ∧ r.Delivered) := by
  have hi := h.invariant (fun hi _ hst => hi.step hst) Inv.init
  refine ⟨hi.announced, fun i => ?_, hi.delivered, fun hc => ?_⟩
  · rw [← hi.ordered i, append_assoc]
    exact prefix_append ..
  · obtain ⟨r, hr, he, hs⟩ := exists_settled hc
    have hi' := hr.invariant (fun hi _ hst => hi.step hst) hi
    exact ⟨r, hr, he, hs, hi'.delivered hs⟩

/-- A frame is appended to a shard that the drain has already taken. -/
def lateEnqueue : List Action :=
  [.call ⟨1, ascii "first"⟩, .enqueue 0, .enqueue 0, .enqueue 0, .wake, .drain true, .advance,
    .advance, .call ⟨9, ascii "late"⟩, .enqueue 1, .advance, .enqueue 1, .advance, .enqueue 1]

theorem lateEnqueue_announced : ∃ q, exec step (fun _ _ => True) {} lateEnqueue = some q ∧
    q.shards 0 = [⟨9, ascii "late"⟩] ∧ q.Announced :=
  have hexec : exec step (fun _ _ => True) {} lateEnqueue = some _ := rfl
  ⟨_, hexec, rfl, (queue_delivers (runs_of_exec hexec)).1⟩

end ShardedQueue

end Celeris.Conn
