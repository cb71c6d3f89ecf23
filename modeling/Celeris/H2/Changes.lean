import Celeris.H2.Connection
import Celeris.H2.Responds
import Mathlib.Data.List.Induction
import Mathlib.Algebra.Ring.Nat

/-!
# What a step of a connection can do

Every event of a connection is a chain of small changes: a response goes on, a stream
changes its state, leaves or is opened, a request grows or ends, a handler starts or
makes a step, credit is given, a frame is written. `Change` lists them, each with what
is known where it is made. What they all keep is in `H2.Invariant`, and that the events
are chains of changes in `H2.Events`; the results about whole runs go by cases on
`Change`.

A change weighs what it gives the peer of the connection's receive window. `T` limits
what the events in question may do: a result about one stream takes a `T` that says
which changes that stream can see.
-/

namespace Celeris.H2

open Function Bool

namespace Manager

/-! ## A stream leaves -/

def frame (m : Manager) : Manager := { m.core with ids := [], activeStreams := 0, lowers := [] }

/-- A stream leaves the map; the object stays if a handler on the pool has it. -/
structure Leaves (i : Nat) (m t : Manager) : Prop where
  mem : i ∈ m.ids
  frame : t.frame = m.frame
  ids : t.ids = m.ids.erase i
  others : ∀ {j}, j ≠ i → t.stream j = m.stream j
  async : (t.stream i).asyncRunning = (m.stream i).asyncRunning
  stays : (m.stream i).asyncRunning = true →
    (t.stream i).core = { m.stream i with state := .closed }.core
  activeStreams : t.activeStreams = m.activeStreams - (if (m.stream i).state.active then 1 else 0)
  lowers : t.lowers = m.lowers ++ (if (m.stream i).state.active then [i] else [])
  pending : t.pendingStreamUpdates ⊆ m.pendingStreamUpdates
  held : t.outboundHeld - (t.stream i).outboundBuffer.length =
    m.outboundHeld - (m.stream i).outboundBuffer.length
  emptied : (m.stream i).asyncRunning = false → (t.stream i).outboundBuffer = []
  writes : Writes (Output.OfStream i) m t

namespace Responds

variable {i : Nat} {a : Int} {m t u : Manager}

theorem asyncRunning (h : Responds i a m t) (j : Nat) :
    (t.stream j).asyncRunning = (m.stream j).asyncRunning :=
  (congrArg Stream.asyncRunning (h.core_stream j) :)

theorem activeStreams (h : Responds i a m t) : t.activeStreams = m.activeStreams :=
  (congrArg Manager.activeStreams h.core :)

theorem lowers (h : Responds i a m t) : t.lowers = m.lowers := (congrArg Manager.lowers h.core :)

theorem frame (h : Responds i a m t) : t.frame = m.frame :=
  congrArg (fun c : Manager => { c with ids := [], activeStreams := 0, lowers := [] }) h.core

end Responds

namespace Leaves

variable {i : Nat} {m t u : Manager}

theorem after (h : Responds i 0 m t) (h' : Leaves i t u) : Leaves i m u where
  mem := h.ids ▸ h'.mem
  frame := h'.frame.trans h.frame
  ids := by rw [h'.ids, h.ids]
  others hj := (h'.others hj).trans (h.others hj)
  async := by rw [h'.async, h.asyncRunning]
  stays ha := by
    rw [h'.stays (by rw [h.asyncRunning, ha])]
    exact (congrArg (fun s : Stream => { s with state := .closed }) h.stream :)
  activeStreams := by rw [h'.activeStreams, h.activeStreams, h.state]
  lowers := by rw [h'.lowers, h.lowers, h.state]
  pending := List.Subset.trans h'.pending h.pending
  held := h'.held.trans h.held
  emptied hs := h'.emptied ((h.asyncRunning i).trans hs)
  writes := h.writes.trans h'.writes

theorem lastClientStream (h : Leaves i m t) : t.lastClientStream = m.lastClientStream :=
  (congrArg Manager.lastClientStream h.frame :)

end Leaves

section Leaving

variable {i : Nat} {m t : Manager}

theorem moveCount_closed {n : Nat} {state : State} :
    moveCount n state.active State.closed.active = n - (if state.active then 1 else 0) := by
  cases state.active <;> simp [moveCount]

/-- A stream is closed and goes out of the map; its object is given back if no handler
has it. -/
theorem leaves_erase (hi : i ∈ m.ids) (h : Responds i 0 (m.setState i .closed) t) :
    Leaves i m (if (m.stream i).asyncRunning then t.erase i else (t.erase i).release i) := by
  have ha : (t.stream i).asyncRunning = (m.stream i).asyncRunning := by
    have ha := h.asyncRunning i
    rwa [setState_stream_self] at ha
  have hh : t.outboundHeld - (t.stream i).outboundBuffer.length =
      m.outboundHeld - (m.stream i).outboundBuffer.length := by
    have hh := h.held
    rwa [setState_stream_self] at hh
  have hids : (t.erase i).ids = m.ids.erase i := by
    show t.ids.erase i = m.ids.erase i
    rw [h.ids]
    rfl
  have ho : ∀ {j}, j ≠ i → t.stream j = m.stream j :=
    fun hj => (h.others hj).trans (setState_stream_ne m _ hj)
  have hac : t.activeStreams = m.activeStreams - (if (m.stream i).state.active then 1 else 0) :=
    h.activeStreams.trans moveCount_closed
  have hl : t.lowers = m.lowers ++ (if (m.stream i).state.active then [i] else []) := by
    have hl : t.lowers = _ := h.lowers
    rw [hl, setState, updateActiveCount]
    cases (m.stream i).state.active with
    | false => exact (List.append_nil _).symm
    | true => rfl
  have hw : Writes (Output.OfStream i) m t := { h.writes with }
  split_ifs with hru
  · exact
      { mem := hi
        frame := h.frame
        ids := hids
        others := ho
        async := ha
        stays := fun _ => h.stream.trans (congrArg Stream.core (setState_stream_self m i _))
        activeStreams := hac
        lowers := hl
        pending := h.pending
        held := hh
        emptied := fun hs => absurd hru (eq_false_iff.mp hs)
        writes := { hw with } }
  · have hr : ((t.erase i).release i).stream i = Stream.released :=
      update_self i _ _
    exact
      { mem := hi
        frame := h.frame
        ids := hids
        others := fun hj => (update_of_ne hj _ _).trans (ho hj)
        async := by
          rw [hr]
          exact (eq_false_iff.mpr hru).symm
        stays := fun ha => absurd ha hru
        activeStreams := hac
        lowers := hl
        pending := h.pending
        held := by
          rw [hr, ← hh]
          show t.outboundHeld - (t.stream i).outboundBuffer.length - ((0 : Nat) : Int) = _
          omega
        emptied := fun _ => by rw [hr]; rfl
        writes := { hw with } }

theorem responds_dropPlaceholder : Responds i 0 m (m.dropPlaceholder i) :=
  responds_books rfl rfl (List.Subset.refl _) rfl (.of_eq rfl rfl rfl)

theorem responds_dropPending : Responds i 0 m (m.dropPending i) :=
  responds_books rfl rfl (List.filter_subset_self _) rfl (.of_eq rfl rfl rfl)

theorem leaves_take (hi : i ∈ m.ids) : Leaves i m (m.take i) :=
  leaves_erase hi ((responds_dropPlaceholder.comp responds_disarmRequest).comp responds_dropPending)

theorem leaves_remove (hi : i ∈ m.ids) (ha : (m.stream i).asyncRunning = false) :
    Leaves i m (((m.setState i .closed).removeStreamFromMap i).release i) := by
  have hl := leaves_erase hi (responds_dropPending (m := m.setState i .closed))
  rw [if_neg (eq_false_iff.mp ha)] at hl
  exact hl

/-- A placeholder leaves. -/
theorem leaves_reap (hi : i ∈ m.ids) (hidle : (m.stream i).state = .idle)
    (ha : (m.stream i).asyncRunning = false) : Leaves i m ((m.erase i).release i) := by
  have hr : ((m.erase i).release i).stream i = Stream.released := update_self i _ _
  exact
    { mem := hi
      frame := rfl
      ids := rfl
      others := fun hj => update_of_ne hj _ _
      async := by
        rw [hr, ha]
        rfl
      stays := fun hru => absurd hru (eq_false_iff.mp ha)
      activeStreams := by
        rw [hidle]
        rfl
      lowers := by
        rw [hidle]
        exact (List.append_nil _).symm
      pending := List.Subset.refl _
      held := by
        rw [hr]
        exact Int.sub_zero _
      emptied := fun _ => by rw [hr]; rfl
      writes := .of_eq rfl rfl rfl }

end Leaving

/-! ## Credit -/

end Manager

def Output.IsCredit : Output → Prop
  | .windowUpdate _ _ => True
  | _ => False

namespace Manager

/-- The server gives the peer `n` bytes of the connection's receive window back, now or
when it has more to give. -/
structure Credits (n : Nat) (m t : Manager) : Prop where
  core : { t.core with pendingConnWindowUpdate := 0 } = { m.core with pendingConnWindowUpdate := 0 }
  stream : t.stream = m.stream
  pending : (∀ u ∈ m.pendingStreamUpdates, u.1 ≠ 0) → ∀ u ∈ t.pendingStreamUpdates, u.1 ≠ 0
  gives : (∀ u ∈ m.pendingStreamUpdates, u.1 ≠ 0) →
    m.pendingConnWindowUpdate < windowUpdateThreshold →
    t.pendingConnWindowUpdate < windowUpdateThreshold ∧
    ∃ given : List Nat, t.increments.Perm (m.increments ++ given) ∧
      given.sum + t.pendingConnWindowUpdate = m.pendingConnWindowUpdate + n ∧
      ∀ x ∈ given, 1 ≤ x ∧ (x : Int) ≤ maxWindow
  held : t.outboundHeld = m.outboundHeld
  writes : Writes Output.IsCredit m t

variable {n : Nat} {m t : Manager}

theorem Credits.ids (h : Credits n m t) : t.ids = m.ids :=
  (congrArg Manager.ids h.core :)

theorem Credits.lastClientStream (h : Credits n m t) :
    t.lastClientStream = m.lastClientStream := (congrArg Manager.lastClientStream h.core :)

end Manager

/-! ## Marks -/

namespace ServerResets

variable {r : ServerResets} {id j : Nat}

theorem has_iff : r.has id = true ↔ id % 2 = 1 ∧ id / 2 < r.top ∧
    r.top ≤ id / 2 + serverResetWindow ∧ r.bits (id / 2 % serverResetWindow) = true := by
  unfold has
  dsimp only
  split_ifs with ho
  · refine ⟨nofun, fun ⟨hodd, hl, hh, _⟩ => ?_⟩
    omega
  · refine ⟨fun hb => ⟨?_, ?_, ?_, hb⟩, fun h => h.2.2.2⟩
    all_goals omega

variable {bits : Nat → Bool} {x : Nat}

theorem bits_put_iff : put bits id true x = true ↔ x = id % serverResetWindow ∨ bits x = true := by
  rw [put, update_apply]
  split_ifs with hx <;> simp [hx]

/-- A bit is set after others are cleared if it was and is none of them. -/
theorem bits_clear_iff {l : List Nat} :
    l.foldl (fun bits k => put bits k false) bits x = true ↔ bits x = true ∧
      ∀ k ∈ l, k % serverResetWindow ≠ x := by
  induction l generalizing bits with
  | nil => simp
  | cons k l ih =>
    rw [List.foldl_cons, ih, put, update_apply, List.forall_mem_cons]
    split_ifs with hx
    · exact iff_of_false nofun fun h => h.2.1 hx.symm
    · exact and_congr_right fun _ => (and_iff_right (Ne.symm hx)).symm

theorem top_mark :
    (r.mark id).top = if id % 2 = 0 then r.top else max r.top (id / 2 + 1) := by
  unfold mark
  split_ifs <;> grind

/-- A stream is marked if it was or is marked now, and the window has not passed it. -/
theorem has_mark_iff : (r.mark id).has j = true ↔
    (r.has j = true ∨ j = id) ∧ j % 2 = 1 ∧ (r.mark id).top ≤ j / 2 + serverResetWindow := by
  rw [has_iff, has_iff]
  unfold mark
  dsimp only
  split_ifs with he ht hf hold
  · grind
  · rw [bits_put_iff]
    unfold serverResetWindow at *
    grind
  · rw [bits_put_iff, bits_clear_iff]
    simp only [List.mem_range'_1]
    unfold serverResetWindow at *
    constructor
    · rintro ⟨ho, hl, hh, hs | ⟨hb, hc⟩⟩
      · omega
      · have := hc (j / 2)
        refine ⟨.inl ⟨ho, ?_, ?_, hb⟩, ho, hh⟩ <;> omega
    · rintro ⟨⟨ho, hl, hh, hb⟩ | rfl, ho', ht'⟩
      · refine ⟨ho, by omega, ht', .inr ⟨hb, fun k hk => ?_⟩⟩
        omega
      · exact ⟨ho', by omega, by omega, .inl rfl⟩
  · grind
  · rw [bits_put_iff]
    unfold serverResetWindow at *
    grind

theorem has_clear_iff : (r.clear id).has j = true ↔ r.has j = true ∧ j ≠ id := by
  unfold clear
  split_ifs with hh
  · rw [has_iff] at hh ⊢
    dsimp only
    rw [has_iff, put, update_apply]
    unfold serverResetWindow at *
    grind
  · grind

theorem top_clear : (r.clear id).top = r.top := by
  unfold clear
  split_ifs <;> rfl

end ServerResets

/-- A call that changes the marks. -/
inductive Marking where
  | mark (id : Nat)
  | clear (id : Nat)

def ServerResets.call (r : ServerResets) : Marking → ServerResets
  | .mark id => r.mark id
  | .clear id => r.clear id

def Marking.recorded (ids : List Nat) : Marking → List Nat
  | .mark id => id :: ids
  | .clear id => ids.filter (· ≠ id)

open List ServerResets in
/-- `serverResets` has the odd identifiers that were marked and not cleared since, as far as their
index is among the `serverResetWindow` that end at the highest one ever marked. -/
theorem serverResets_has_iff (calls : List Marking) (id : Nat) :
    (calls.foldl call {}).has id = true ↔ id % 2 = 1 ∧ id ∈ calls.foldl Marking.recorded [] ∧
      ∀ k, .mark k ∈ calls → k % 2 = 1 → k / 2 < id / 2 + serverResetWindow := by
  suffices h : (∀ x, (calls.foldl call {}).top ≤ x ↔ ∀ k, .mark k ∈ calls → k % 2 = 1 → k / 2 < x) ∧
      ∀ id, (calls.foldl call {}).has id = true ↔ id % 2 = 1 ∧
        id ∈ calls.foldl Marking.recorded [] ∧
        (calls.foldl call {}).top ≤ id / 2 + serverResetWindow by
    rw [h.2, h.1]
  clear id
  induction calls using reverseRecOn with
  | nil => simp [has]
  | append_singleton calls c ih =>
    obtain ⟨ht, hh⟩ := ih
    rw [foldl_append, foldl_append]
    generalize calls.foldl call {} = r at ht hh ⊢
    simp only [mem_append, mem_singleton, or_imp, forall_and, ← ht]
    cases c with
    | mark id =>
      refine ⟨fun x => ?_, fun j => ?_⟩
      · simp only [foldl_cons, foldl_nil, call, top_mark, Marking.mark.injEq, forall_eq]
        grind
      · simp only [foldl_cons, foldl_nil, call, has_mark_iff, hh, Marking.recorded, mem_cons,
          top_mark]
        grind
    | clear id =>
      refine ⟨fun x => ?_, fun j => ?_⟩
      · simp [call, top_clear]
      · simp only [foldl_cons, foldl_nil, call, has_clear_iff, hh, Marking.recorded, mem_filter,
          top_clear]
        grind

/-! ## Changes -/

/-- What is known of the events of a run: the requests that may end with a trailer block, by
their stream, their fields and the length of their body; the streams the client may
give up; those it may use for the first time; and those whose request may end. -/
structure Scope where
  trailers : Nat → List Field → Nat → Prop
  dismissed : Nat → Prop
  fresh : Nat → Prop
  ends : Nat → Prop

/-- Nothing is known. -/
def Scope.all : Scope := ⟨fun _ _ _ => True, fun _ => True, fun _ => True, fun _ => True⟩

/-- Whether a frame is one the server writes beside responses and credit. -/
def Output.IsControl : Output → Prop
  | .rstStream _ _ => True
  | .settingsAck => True
  | .pingAck _ => True
  | _ => False

theorem Output.IsControl.connIncrement {o : Output} (h : o.IsControl) : o.connIncrement = none := by
  cases o with
  | windowUpdate id increment => cases h
  | _ => rfl

section

variable (T : Scope)

/-- The content-length of a request was checked, or the request ended with trailers. -/
def Stream.Accepted (i : Nat) (s : Stream) : Prop :=
  validateContentLength s.headers s.receivedDataLen = .ok () ∨
    T.trailers i s.headers s.receivedDataLen

def State.Over (state : State) : Prop := state = .halfClosedRemote ∨ state = .closed

/-- What holds of the stream of a pool handler at a stage. -/
def PoolStage.Ok (i : Nat) (s : Stream) : PoolStage → Prop
  | .submitted => s.data.length = s.receivedDataLen ∧ s.Accepted T i
  | .settling state => state.Over
  | .closing state => state.Over
  | .discarding (some state) => state.Over
  | .resetting (some state) => state.Over
  | .retire => s.state = .closed
  | _ => True

def Manager.Reset (i : Nat) (m : Manager) : Prop := ∃ code, .rstStream i code ∈ m.sent

/-- What changes of a stream on which no handler was started. -/
structure Manager.Quiet (i : Nat) (m t : Manager) : Prop where
  buffer : (t.stream i).outboundBuffer ≠ [] → (m.stream i).outboundBuffer ≠ []
  cancelled : (t.stream i).cancelled = (m.stream i).cancelled
  armed : (t.stream i).reqDeadline = true → (m.stream i).reqDeadline = true ∨
    (m.stream i).state ≠ .idle

theorem Manager.Quiet.of_eq {i : Nat} {m t : Manager} (h : t.stream i = m.stream i) :
    Quiet i m t := by
  refine ⟨?_, ?_, ?_⟩
  all_goals rw [h]
  · exact id
  · exact Or.inl

namespace Processor

def Served (p : Processor) (i : Nat) : Prop := ∃ r ∈ p.served, r.id = i

def Answering (p : Processor) (i : Nat) : Prop :=
  p.Served i ∧ (i ∈ p.manager.ids ∨ ∃ stage, (i, stage) ∈ p.pool)

/-- The server has reset a stream before the client was done with it: one block of headers
is ignored. -/
def Marked (p : Processor) (i : Nat) : Prop := p.resetOpen.has i = true ∨ p.requestExpired i = true

/-- Books that are not about streams change. -/
structure Books (p q : Processor) : Prop where
  manager : q.manager = p.manager
  pool : q.pool = p.pool
  cleanup : q.pendingInlineCleanup = p.pendingInlineCleanup
  served : q.served = p.served
  received : q.received = p.received
  goAwaySent : q.goAwaySent = p.goAwaySent
  goAwayLastID : q.goAwayLastID = p.goAwayLastID
  headerListMax : q.headerListMax = p.headerListMax
  block : ∀ {cs}, q.continuationState = some cs →
    p.continuationState = some cs ∨ cs.headerBlock.length ≤ p.headerListMax * 4
  marks : ∀ {i}, q.Marked i → p.Marked i ∨ T.fresh i ∧ Manager.Reset i p.manager

/-- A change, and the receive window it gives. -/
inductive Change : Nat → Processor → Processor → Prop
  /-- Other books change. -/
  | books {p q : Processor} (h : Books T p q) : Change 0 p q
  /-- A response goes on. -/
  | respond {p : Processor} {t : Manager} {i : Nat} (h : Manager.Responds i 0 p.manager t)
      (hwho : p.Answering i ∨ Manager.Quiet i p.manager t) : Change 0 p { p with manager := t }
  /-- A frame is written that is no part of a response. -/
  | write {p : Processor} {out : List Output} (hout : ∀ o ∈ out, o.IsControl) :
      Change 0 p { p with manager := p.manager.write out }
  /-- A `GOAWAY` is written. -/
  | goAway {p : Processor} {last : Nat} (hlast : last = p.manager.maxStreamID ∨
      last = p.manager.lastClientStream)
      (code : ErrCode) (text : String) : Change 0 p (p.sendGoAway last code text)
  /-- What is written goes out. -/
  | flushOut {p : Processor} : Change 0 p { p with manager := p.manager.flushOut }
  /-- What is queued goes out. -/
  | drain {p : Processor} : Change 0 p { p with manager := p.manager.drainWriteQueue }
  /-- A stream of the map goes to a later state. -/
  | setState {p : Processor} {i : Nat} {next : State} (hi : i ∈ p.manager.ids)
      (hstate : (p.manager.stream i).state ≠ .idle)
      (hnext : next = .closed ∨ next = (p.manager.stream i).state.ended) :
      Change 0 p { p with manager := p.manager.setState i next }
  /-- A stream leaves; if the server resets it before the client is done that is noted. -/
  | leave {p : Processor} {t : Manager} {i : Nat} {resetOpen : ServerResets}
      {expiredReq : List (Nat × Int)} (h : Manager.Leaves i p.manager t)
      (hwhy : p.Served i ∨ (p.manager.stream i).state = .idle ∨ Manager.Reset i t ∨ T.dismissed i)
      (hmarks : ∀ {j}, { p with resetOpen := resetOpen, expiredReq := expiredReq }.Marked j →
        p.Marked j ∨ j = i ∧ (p.manager.stream i).state ≠ .idle ∧ Manager.Reset i t) :
      Change 0 p { p with manager := t, resetOpen := resetOpen, expiredReq := expiredReq }
  /-- The client uses an identifier. -/
  | pass {p : Processor} {i : Nat} (hi : p.manager.lastClientStream < i) (hfresh : T.fresh i) :
      Change 0 p { p with manager := { p.manager with lastClientStream := i } }
  /-- A stream is opened. -/
  | opened {p : Processor} {t : Manager} {i : Nat} (hi : p.manager.lastClientStream < i)
      (hodd : i % 2 = 1)
      (hfresh : T.fresh i) (h : { p.manager with lastClientStream := i }.tryOpenStream i = some t)
      (hfree : i ∈ p.manager.ids → (p.manager.stream i).state = .idle) :
      Change 0 p { p with manager := t }
  /-- A placeholder is made. -/
  | placeholder {p : Processor} {i : Nat} (hfree : i ∉ p.manager.ids)
      (hi : p.manager.lastClientStream < i) (hodd : i % 2 = 1) (ids : List Nat) :
      Change 0 p { p with manager :=
        { p.manager.insert i { newStream p.manager.initialWindowSize with placeholder := true } with
          placeholderIDs := ids } }
  /-- A request grows. -/
  | request {p : Processor} {i : Nat} (hi : i ∈ p.manager.ids)
      (hopen : (p.manager.stream i).state.requesting = true) (headers : List Field) (data : Bytes) :
      Change 0 p { p with manager := p.manager.modify i fun s =>
        { s with
          headers := s.headers ++ headers
          receivedDataLen := s.receivedDataLen + data.length
          data := s.data ++ data } }
  /-- A request ends. -/
  | endRequest {p : Processor} {i : Nat} (hi : i ∈ p.manager.ids)
      (hopen : (p.manager.stream i).state.requesting = true)
        (hends : T.ends i) : Change 0 p (p.endRequest i)
  /-- The server gives receive window. -/
  | credit {p : Processor} {t : Manager} {n : Nat} (h : Manager.Credits n p.manager t) :
      Change n p { p with manager := t }
  /-- The peer gives a stream send window. -/
  | window {p : Processor} {i increment : Nat}
      (hmax : (p.manager.stream i).windowSize + increment ≤ maxWindow) :
      Change 0 p { p with manager := p.manager.modify i fun s =>
        { s with
          windowSize := int32 (s.windowSize + increment), credited := s.credited + increment } }
  /-- A handler starts; one on the event loop only if the last `GOAWAY` allows it. -/
  | serve {p : Processor} {i : Nat}
      (hi : i ∈ p.manager.ids ∧ (p.manager.stream i).endStream = true ∧
        (p.goAwaySent = true → i ≤ p.goAwayLastID) ∨ (i, .submitted) ∈ p.pool)
      (hdata : (p.manager.stream i).data.length = (p.manager.stream i).receivedDataLen)
      (haccepted : (p.manager.stream i).Accepted T i) : Change 0 p (p.serve i)
  /-- The body of a request is given back. -/
  | dropData {p : Processor} {i : Nat} (hended : (p.manager.stream i).endStream = true)
      (hpool : (i, .submitted) ∉ p.pool) : Change 0 p { p with manager := p.manager.dropData i }
  /-- A handler is given to the pool, if the last `GOAWAY` allows it. -/
  | submit {p : Processor} {i : Nat} {inline : Bool} (hi : i ∈ p.manager.ids)
      (hstate : (p.manager.stream i).state = .halfClosedRemote)
      (hended : (p.manager.stream i).endStream = true)
      (hpool : ∀ stage, (i, stage) ∉ p.pool) (hcleanup : i ∉ p.pendingInlineCleanup)
      (hdata : (p.manager.stream i).data.length = (p.manager.stream i).receivedDataLen)
      (haccepted : (p.manager.stream i).Accepted T i)
        (hlast : p.goAwaySent = true → i ≤ p.goAwayLastID) :
      Change 0 p (p.submit i inline)
  /-- The cleanup of a stream is put off. -/
  | defer {p : Processor} {i : Nat} (hi : i ∈ p.manager.ids)
      (hstate : (p.manager.stream i).state = .closed)
      (hasync : (p.manager.stream i).asyncRunning = false) (hpool : ∀ stage, (i, stage) ∉ p.pool)
      (hserved : p.Served i) :
      Change 0 p { p with pendingInlineCleanup := p.pendingInlineCleanup ++ [i] }
  /-- Cleanups are done. -/
  | cleaned {p : Processor} (todo : List Nat) (h : todo ⊆ p.pendingInlineCleanup) :
      Change 0 p { p with pendingInlineCleanup := todo }
  /-- A pool handler goes to another stage. -/
  | stage {p : Processor} {k i : Nat} {stage next : PoolStage} (hk : p.pool[k]? = some (i, stage))
      (hnext : next.Ok T i (p.manager.stream i)) (hserved : p.Served i) :
      Change 0 p { p with pool := p.pool.set k (i, next) }
  /-- A pool handler is done, and the event loop takes its stream over. -/
  | handOff {p : Processor} {k i : Nat} {stage : PoolStage} (hk : p.pool[k]? = some (i, stage))
      (hi : i ∈ p.manager.ids) (hserved : p.Served i) :
      Change 0 p { p with
        manager := p.manager.modify i fun s => { s with asyncRunning := false }
        pool := p.pool.eraseIdx k }
  /-- A pool handler is done, and its stream given back. -/
  | retire {p : Processor} {k i : Nat} {stage : PoolStage} (hk : p.pool[k]? = some (i, stage))
      (hstate : (p.manager.stream i).state = .closed) (hserved : p.Served i) :
      Change 0 p { p with manager := p.manager.retire i, pool := p.pool.eraseIdx k }

abbrev Changes : Nat → Processor → Processor → Prop := Transition.Chain (Change T)

end Processor

end

end Celeris.H2
