import Celeris.H2.Changes

/-!
# What changes keep

`Inv` is what every change keeps: which streams a pool handler or a deferred cleanup may
still refer to and in what state those are (`Valid`), and which streams a handler was
started on (`Answers`): only those buffer a response, and only those are cancelled
without being given up.
-/

namespace Celeris.H2

open List Function H2.Stream Manager

section

variable (T : Scope)

namespace Processor

/-! ## The invariant -/

/-- A stream of the map. -/
structure StreamOk (m : Manager) (i : Nat) : Prop where
  odd : i % 2 = 1
  known : (m.stream i).state ≠ .idle → i ≤ m.lastClientStream
  isOver : (m.stream i).endStream = true → (m.stream i).state.Over
  length : (m.stream i).endStream = false → (m.stream i).data.length = (m.stream i).receivedDataLen
  sync : (m.stream i).endStream = false → (m.stream i).asyncRunning = false

/-- The stream of a pool handler. -/
structure PoolOk (m : Manager) (cleanup : List Nat) (i : Nat) (stage : PoolStage) : Prop where
  known : i ≤ m.lastClientStream
  async : (m.stream i).asyncRunning = true
  ended : (m.stream i).endStream = true
  isOver : (m.stream i).state.Over
  gone : i ∉ m.ids → (m.stream i).state = .closed
  kept : i ∉ cleanup
  stage : stage.Ok T i (m.stream i)

/-- A stream whose cleanup is put off. -/
structure CleanupOk (m : Manager) (i : Nat) : Prop where
  known : i ≤ m.lastClientStream
  async : (m.stream i).asyncRunning = false
  closed : i ∈ m.ids → (m.stream i).state = .closed

/-- The streams, the pool handlers and the cleanups that are put off. -/
structure Valid (m : Manager) (pool : List (Nat × PoolStage)) (cleanup : List Nat) : Prop where
  nodup : m.ids.Nodup
  streams : ∀ {i}, i ∈ m.ids → StreamOk m i
  handlers : ∀ {i stage}, (i, stage) ∈ pool → PoolOk T m cleanup i stage
  unique : (pool.map Prod.fst).Nodup
  cleanups : ∀ {i}, i ∈ cleanup → CleanupOk m i

end Processor

/-- A stream of the map buffers a response and is cancelled only if a handler was started
on it, and has a deadline only if it is in use. -/
structure Stream.Silent (served : Prop) (s : Stream) : Prop where
  buffered : s.outboundBuffer ≠ [] → served
  alive : s.endStream = false → s.cancelled = false
  armed : s.reqDeadline = true → s.state ≠ .idle

namespace Processor

def Pooled (p : Processor) (i : Nat) : Prop := ∃ stage, (i, stage) ∈ p.pool

/-- The streams handlers were started on, and the others. -/
structure Answers (p : Processor) : Prop where
  used : ∀ {i}, p.Served i → i ≤ p.manager.lastClientStream ∧
    (i ∈ p.manager.ids → (p.manager.stream i).endStream = true)
  handlers : ∀ {i stage}, (i, stage) ∈ p.pool → stage = .submitted ∨ p.Served i
  cleanups : ∀ {i}, i ∈ p.pendingInlineCleanup → p.Served i
  streams : ∀ {i}, i ∈ p.manager.ids → (p.manager.stream i).Silent (p.Served i)

/-- The invariant of a connection. -/
structure Inv (p : Processor) : Prop where
  valid : Valid T p.manager p.pool p.pendingInlineCleanup
  pending : ∀ u ∈ p.manager.pendingStreamUpdates, u.1 ≠ 0
  answers : Answers p

end Processor

end

/-! ## Streams with the same request -/

section

variable {s t : Stream}

section

variable (h : t.core = s.core)

include h

theorem Stream.state_of_core : t.state = s.state := (congrArg state h :)

theorem Stream.endStream_of_core : t.endStream = s.endStream :=
  (congrArg endStream h :)

theorem Stream.data_of_core : t.data = s.data := (congrArg data h :)

theorem Stream.receivedDataLen_of_core : t.receivedDataLen = s.receivedDataLen :=
  (congrArg receivedDataLen h :)

theorem Stream.asyncRunning_of_core : t.asyncRunning = s.asyncRunning :=
  (congrArg asyncRunning h :)

end

theorem State.Over.ne_idle {state : State} (h : state.Over) : state ≠ .idle := by
  rcases h with rfl | rfl <;> nofun

theorem State.Over.not_requesting {state : State} (h : state.Over) : state.requesting ≠ true := by
  rcases h with rfl | rfl <;> nofun

variable {T : Scope} {i : Nat}

/-- A handler is where it was if the request stays and the stream has the same state or is
closed. -/
theorem PoolStage.Ok.of_request {stage : PoolStage} (h : stage.Ok T i s) (hd : t.data = s.data)
    (hh : t.headers = s.headers) (hl : t.receivedDataLen = s.receivedDataLen)
    (hs : t.state = s.state ∨ t.state = .closed) : stage.Ok T i t := by
  cases stage with
  | submitted =>
    rw [PoolStage.Ok, Stream.Accepted] at h ⊢
    rwa [hd, hh, hl]
  | retire => exact hs.elim (·.trans h) id
  | settling state | closing state => exact h
  | discarding state | resetting state => cases state <;> exact h
  | _ => trivial

theorem PoolStage.Ok.of_core {stage : PoolStage} (h : stage.Ok T i s) (hc : t.core = s.core) :
    stage.Ok T i t :=
  h.of_request (data_of_core hc) (congrArg Stream.headers hc :) (receivedDataLen_of_core hc)
    (.inl (state_of_core hc))

theorem PoolStage.Ok.close {stage : PoolStage} (h : stage.Ok T i s)
    (hc : t.core = { s with state := .closed }.core) : stage.Ok T i t :=
  h.of_request (congrArg data hc :) (congrArg Stream.headers hc :) (congrArg receivedDataLen hc :)
    (.inr (state_of_core hc))

end

namespace Processor

variable {T : Scope} {m t : Manager} {cleanup : List Nat} {i : Nat}

theorem StreamOk.of_core (h : StreamOk m i) (hc : (t.stream i).core = (m.stream i).core)
    (hl : m.lastClientStream ≤ t.lastClientStream) : StreamOk t i := by
  refine ⟨h.odd, ?_, ?_, ?_, ?_⟩
  all_goals simp only [state_of_core hc, endStream_of_core hc, data_of_core hc,
    receivedDataLen_of_core hc, asyncRunning_of_core hc]
  exacts [fun hi => (h.known hi).trans hl, h.isOver, h.length, h.sync]

variable {s : Stream} {p q : Processor} {i n : Nat}

/-- What is known of a stream that has been written. -/
theorem streamOk_of_eq (hs : t.stream i = s) (hodd : i % 2 = 1)
    (hk : s.state ≠ .idle → i ≤ t.lastClientStream) (ho : s.endStream = true → s.state.Over)
    (hl : s.endStream = false → s.data.length = s.receivedDataLen)
    (hsync : s.endStream = false → s.asyncRunning = false) : StreamOk t i := by
  subst hs
  exact ⟨hodd, hk, ho, hl, hsync⟩

theorem PoolOk.of_core {stage : PoolStage} (h : PoolOk T m cleanup i stage)
    (hc : (t.stream i).core = (m.stream i).core) (hl : m.lastClientStream ≤ t.lastClientStream)
    (hids : i ∈ m.ids → i ∈ t.ids) : PoolOk T t cleanup i stage where
  known := h.known.trans hl
  async := (asyncRunning_of_core hc).trans h.async
  ended := (endStream_of_core hc).trans h.ended
  isOver := state_of_core hc ▸ h.isOver
  gone hi := (state_of_core hc).trans (h.gone fun hm => hi (hids hm))
  kept := h.kept
  stage := h.stage.of_core hc

/-- The stream of a handler is closed. -/
theorem PoolOk.close {stage : PoolStage} (h : PoolOk T m cleanup i stage)
    (hc : (t.stream i).core = { m.stream i with state := .closed }.core)
    (hl : m.lastClientStream ≤ t.lastClientStream) : PoolOk T t cleanup i stage where
  known := h.known.trans hl
  async := (asyncRunning_of_core hc).trans h.async
  ended := (endStream_of_core hc).trans h.ended
  isOver := .inr (state_of_core hc)
  gone _ := state_of_core hc
  kept := h.kept
  stage := h.stage.close hc

theorem CleanupOk.of_core (h : CleanupOk m i) (hc : (t.stream i).core = (m.stream i).core)
    (hl : m.lastClientStream ≤ t.lastClientStream) (hids : i ∈ t.ids → i ∈ m.ids) :
    CleanupOk t i where
  known := h.known.trans hl
  async := (asyncRunning_of_core hc).trans h.async
  closed hi := (state_of_core hc).trans (h.closed (hids hi))

/-- A stream whose request is open is the stream of no handler and no cleanup. -/
theorem PoolOk.not_requesting {stage : PoolStage} (h : PoolOk T m cleanup i stage) :
    (m.stream i).state.requesting ≠ true := h.isOver.not_requesting

theorem CleanupOk.not_requesting (h : CleanupOk m i) (hi : i ∈ m.ids) :
    (m.stream i).state.requesting ≠ true := by
  rw [h.closed hi]
  exact Bool.false_ne_true

/-- A stream is opened in the place of none, or of a placeholder. -/
structure Opens (i : Nat) (m t : Manager) : Prop where
  room : m.activeStreams < m.maxStreams
  ids : t.ids = if i ∈ m.ids then m.ids else i :: m.ids
  stream : t.stream = Function.update m.stream i { newStream m.initialWindowSize with
    state := .opened }
  lastClientStream : t.lastClientStream = if i % 2 = 1 then i else m.lastClientStream
  activeStreams : t.activeStreams = m.activeStreams + 1
  opens : t.opens = m.opens ++ [i]
  maxStreamID : t.maxStreamID = max m.maxStreamID i
  frame : { t.frame with
    lastClientStream := 0, opens := [], maxStreamID := 0, lowers := t.lowers } =
    { m.frame with lastClientStream := 0, opens := [], maxStreamID := 0, lowers := m.lowers }
  pending : t.pendingStreamUpdates = m.pendingStreamUpdates
  held : t.outboundHeld = m.outboundHeld
  output : t.wire = m.wire ∧ t.outBuf = m.outBuf ∧ t.queue = m.queue

theorem opens_of_tryOpenStream (h : m.tryOpenStream i = some t)
    (hf : i ∈ m.ids → (m.stream i).state = .idle) : Opens i m t := by
  have hin : ¬(i ∈ m.ids ∧ (m.stream i).state.active = true) := by
    rintro ⟨hi, ha⟩
    rw [hf hi] at ha
    cases ha
  unfold tryOpenStream at h
  rw [if_neg hin] at h
  split at h
  · cases h
  · rename_i hr
    cases h
    exact ⟨Nat.lt_of_not_le hr, rfl, rfl, rfl, rfl, rfl, rfl, rfl, rfl, rfl, rfl, rfl, rfl⟩

theorem Opens.sent (h : Opens i m t) : t.sent = m.sent := by
  obtain ⟨hw, ho, hq⟩ := h.output
  rw [Manager.sent, Manager.sent, hw, ho, hq]

theorem Opens.mem (h : Opens i m t) : i ∈ t.ids := by
  rw [h.ids]
  split_ifs with hin
  · exact hin
  · exact mem_cons_self

/-- One stream changes, enters the map or leaves it; the others stay. -/
structure Apart (i : Nat) (m t : Manager) : Prop where
  stream : ∀ {j}, j ≠ i → t.stream j = m.stream j
  ids : ∀ {j}, j ≠ i → (j ∈ t.ids ↔ j ∈ m.ids)

theorem apart_update (hi : t.ids = m.ids) (hs : t.stream = update m.stream i s) : Apart i m t where
  stream hj := by rw [hs, update_of_ne hj]
  ids _ := by rw [hi]

theorem apart_enter (hi : t.ids = if i ∈ m.ids then m.ids else i :: m.ids)
    (hs : t.stream = update m.stream i s) : Apart i m t where
  stream hj := by rw [hs, update_of_ne hj]
  ids hj := by
    rw [hi]
    split_ifs
    · rfl
    · exact mem_cons.trans (or_iff_right hj)

theorem apart_erase (hi : t.ids = m.ids.erase i) (ho : ∀ {j}, j ≠ i → t.stream j = m.stream j) :
    Apart i m t where
  stream := ho
  ids hj := by
    rw [hi]
    exact mem_erase_of_ne hj

namespace Valid

variable {pool : List (Nat × PoolStage)} (h : Valid T m pool cleanup)

include h

/-- The map and the requests stay. -/
theorem of_core (hids : t.ids = m.ids) (hc : ∀ j, (t.stream j).core = (m.stream j).core)
    (hl : m.lastClientStream ≤ t.lastClientStream) : Valid T t pool cleanup where
  nodup := hids ▸ h.nodup
  streams hi := (h.streams (hids ▸ hi)).of_core (hc _) hl
  handlers hx := (h.handlers hx).of_core (hc _) hl fun hi => hids ▸ hi
  unique := h.unique
  cleanups hi := (h.cleanups hi).of_core (hc _) hl fun hm => hids ▸ hm

section

variable (ha : Apart i m t) (hn : t.ids.Nodup) (hl : m.lastClientStream ≤ t.lastClientStream)
  (hs : i ∈ t.ids → StreamOk t i)

include ha hn hl hs

/-- One stream changes, and what refers to it stays right. -/
theorem of_apart (hp : ∀ stage, (i, stage) ∈ pool → PoolOk T t cleanup i stage)
    (hc : i ∈ cleanup → CleanupOk t i) : Valid T t pool cleanup where
  nodup := hn
  streams {j} hj := by
    by_cases hji : j = i
    · rw [hji] at hj ⊢
      exact hs hj
    · exact (h.streams ((ha.ids hji).mp hj)).of_core (by rw [ha.stream hji]) hl
  handlers {j stage} hx := by
    by_cases hji : j = i
    · rw [hji] at hx ⊢
      exact hp stage hx
    · exact (h.handlers hx).of_core (by rw [ha.stream hji]) hl (ha.ids hji).mpr
  unique := h.unique
  cleanups {j} hj := by
    by_cases hji : j = i
    · rw [hji] at hj ⊢
      exact hc hj
    · exact (h.cleanups hj).of_core (by rw [ha.stream hji]) hl (ha.ids hji).mp

/-- One stream changes, and neither a handler nor a cleanup refers to it. -/
theorem of_others (hp : ∀ stage, (i, stage) ∉ pool) (hc : i ∉ cleanup) : Valid T t pool cleanup :=
  h.of_apart ha hn hl hs (fun stage hx => absurd hx (hp stage)) fun hx => absurd hx hc

end

/-- No handler and no cleanup refers to a stream whose request is open. -/
theorem free_of_requesting (hi : i ∈ m.ids)
    (ho : (m.stream i).state.requesting = true) : (∀ stage, (i, stage) ∉ pool) ∧ i ∉ cleanup :=
  ⟨fun _ hx => (h.handlers hx).not_requesting ho, fun hx => (h.cleanups hx).not_requesting hi ho⟩

/-- No handler and no cleanup refers to a stream the client has not used. -/
theorem free_of_lt (hi : m.lastClientStream < i) : (∀ stage, (i, stage) ∉ pool) ∧ i ∉ cleanup :=
  ⟨fun _ hx => absurd (h.handlers hx).known (Nat.not_le.mpr hi),
    fun hx => absurd (h.cleanups hx).known (Nat.not_le.mpr hi)⟩

theorem leave (hl : Manager.Leaves i m t) : Valid T t pool cleanup := by
  have hlast : t.lastClientStream = m.lastClientStream := hl.lastClientStream
  have hg : i ∉ t.ids := hl.ids ▸ h.nodup.not_mem_erase
  refine h.of_apart (apart_erase hl.ids hl.others) (hl.ids ▸ h.nodup.erase i) hlast.ge
    (fun hi => absurd hi hg) (fun stage hx => ?_) fun hx => ?_
  · have hok := h.handlers hx
    exact hok.close (hl.stays hok.async) hlast.ge
  · have hok := h.cleanups hx
    exact ⟨hlast ▸ hok.known, by rw [hl.async, hok.async], fun hi => absurd hi hg⟩

/-- A stream of the map goes to a later state. -/
theorem setState {next : State} (hi : i ∈ m.ids) (hst : (m.stream i).state ≠ .idle)
    (hn : next = .closed ∨ next = (m.stream i).state.ended) :
    Valid T (m.setState i next) pool cleanup := by
  have ho : (m.stream i).state.Over → next = .closed := by
    intro ho
    rcases hn with rfl | rfl
    · rfl
    · rcases ho with hs | hs <;> rw [hs] <;> rfl
  have hself := setState_stream_self m i next
  refine h.of_apart ⟨fun hj => setState_stream_ne m next hj, fun _ => Iff.rfl⟩ h.nodup le_rfl
    (fun _ => ?_) (fun stage hx => ?_) fun hx => ?_
  · have hok := h.streams hi
    exact streamOk_of_eq hself hok.odd (fun _ => hok.known hst)
      (fun he => .inr (ho (hok.isOver he))) hok.length hok.sync
  · have hok := h.handlers hx
    refine hok.close ?_ le_rfl
    rw [hself, ho hok.isOver]
  · have hok := h.cleanups hx
    refine ⟨hok.known, ?_, fun _ => ?_⟩
    all_goals rw [hself]
    · exact hok.async
    · exact ho (.inr (hok.closed hi))

variable {s : Stream} {k : Nat} {other : PoolStage}

/-- A stream the client has not used enters the map. -/
theorem insert (hi : m.lastClientStream < i)
    (hids : t.ids = if i ∈ m.ids then m.ids else i :: m.ids)
    (hs : t.stream = Function.update m.stream i s) (hl : m.lastClientStream ≤ t.lastClientStream)
    (hself : StreamOk t i) : Valid T t pool cleanup := by
  obtain ⟨hp, hc⟩ := h.free_of_lt hi
  refine h.of_others (apart_enter hids hs) ?_ hl (fun _ => hself) hp hc
  rw [hids]
  split_ifs with hin
  · exact h.nodup
  · exact nodup_cons.mpr ⟨hin, h.nodup⟩

/-- A stream is replaced, and neither a handler nor a cleanup refers to it. -/
theorem replace (hids : t.ids = m.ids)
    (hl : t.lastClientStream = m.lastClientStream) (hs : t.stream = Function.update m.stream i s)
    (hself : i ∈ m.ids → t.stream i = s → StreamOk t i) (hp : ∀ stage, (i, stage) ∉ pool)
    (hc : i ∉ cleanup) : Valid T t pool cleanup := by
  refine h.of_others (apart_update hids hs) (hids ▸ h.nodup) hl.ge (fun hi => ?_) hp hc
  exact hself (hids ▸ hi) (by rw [hs, update_self])

/-- The body of a request is given back. -/
theorem dropData (he : (m.stream i).endStream = true) (hp : (i, .submitted) ∉ pool) :
    Valid T (m.dropData i) pool cleanup := by
  have hself : (m.dropData i).stream i = { m.stream i with data := [] } := modify_stream_self m i _
  refine h.of_apart ⟨fun hj => modify_stream_ne m _ hj, fun _ => Iff.rfl⟩ h.nodup le_rfl
    (fun hi => ?_) (fun stage hx => ?_) fun hx => ?_
  · have hok := h.streams hi
    exact streamOk_of_eq hself hok.odd hok.known hok.isOver (fun ho => absurd ho (by simp [he]))
      hok.sync
  · have hok := h.handlers hx
    refine ⟨hok.known, ?_, ?_, ?_, fun hg => ?_, hok.kept, ?_⟩
    all_goals rw [hself]
    · exact hok.async
    · exact hok.ended
    · exact hok.isOver
    · exact hok.gone hg
    · have hs := hok.stage
      cases stage with
      | submitted => exact absurd hx hp
      | discarding state | resetting state => cases state <;> exact hs
      | _ => exact hs
  · have hok := h.cleanups hx
    refine ⟨hok.known, ?_, fun hin => ?_⟩
    all_goals rw [hself]
    · exact hok.async
    · exact hok.closed hin

/-- A handler is given to the pool. -/
theorem submit {stage : PoolStage} (hok : PoolOk T m cleanup i stage)
    (hp : ∀ stage, (i, stage) ∉ pool) : Valid T m (pool ++ [(i, stage)]) cleanup where
  __ := h
  handlers hx := by
    rcases mem_append.mp hx with hx | hx
    · exact h.handlers hx
    · cases mem_singleton.mp hx
      exact hok
  unique := by
    rw [map_append, nodup_append]
    refine ⟨h.unique, nodup_cons.mpr ⟨not_mem_nil, nodup_nil⟩, ?_⟩
    rintro j hj k hk rfl
    obtain ⟨⟨x, old⟩, hx, rfl⟩ := mem_map.mp hj
    cases mem_singleton.mp hk
    exact hp old hx

/-- The cleanup of a stream is put off. -/
theorem defer (hok : CleanupOk m i) (hp : ∀ stage, (i, stage) ∉ pool) :
    Valid T m pool (cleanup ++ [i]) where
  __ := h
  handlers {j stage} hx := by
    have hk : j ∉ cleanup ++ [i] := by
      intro hj
      rcases mem_append.mp hj with hj | hj
      · exact (h.handlers hx).kept hj
      · cases mem_singleton.mp hj
        exact hp stage hx
    exact { h.handlers hx with kept := hk }
  cleanups hj := by
    rcases mem_append.mp hj with hj | hj
    · exact h.cleanups hj
    · cases mem_singleton.mp hj
      exact hok

theorem cleaned {todo : List Nat} (hs : todo ⊆ cleanup) : Valid T m pool todo where
  __ := h
  handlers hx := { h.handlers hx with kept := fun hj => (h.handlers hx).kept (hs hj) }
  cleanups hj := h.cleanups (hs hj)

/-- A pool handler goes to another stage. -/
theorem stage {stage next : PoolStage} (hk : pool[k]? = some (i, stage))
    (hn : next.Ok T i (m.stream i)) : Valid T m (pool.set k (i, next)) cleanup where
  __ := h
  handlers hx := by
    rcases mem_or_eq_of_mem_set hx with hx | hx
    · exact h.handlers hx
    · cases hx
      exact { h.handlers (mem_of_getElem? hk) with stage := hn }
  unique := by
    have hf : (pool.map Prod.fst)[k]? = some i := by rw [getElem?_map, hk, Option.map_some]
    obtain ⟨hlt, hg⟩ := List.getElem?_eq_some_iff.mp hf
    rw [map_set, ← hg, set_getElem_self]
    exact h.unique

theorem done (k : Nat) : Valid T m (pool.eraseIdx k) cleanup where
  __ := h
  handlers hx := h.handlers (mem_of_mem_eraseIdx hx)
  unique := h.unique.sublist ((eraseIdx_sublist pool k).map Prod.fst)

/-- A stream has one handler. -/
theorem index_unique {j : Nat} {stage : PoolStage}
    (hj : pool[j]? = some (i, other)) (hk : pool[k]? = some (i, stage)) : j = k := by
  have hf : ∀ {j : Nat} {other : PoolStage}, pool[j]? = some (i, other) →
      (pool.map Prod.fst)[j]? = some i := by
    intro j other h
    rw [getElem?_map, h, Option.map_some]
  obtain ⟨hlt, -⟩ := List.getElem?_eq_some_iff.mp (hf hj)
  exact (getElem?_inj hlt h.unique).mp ((hf hj).trans (hf hk).symm)

theorem stage_unique {stage : PoolStage}
    (hk : pool[k]? = some (i, stage)) (hm : (i, other) ∈ pool) : other = stage := by
  obtain ⟨j, hj⟩ := mem_iff_getElem?.mp hm
  cases h.index_unique hj hk
  cases hj.symm.trans hk
  rfl

theorem not_mem_eraseIdx {stage : PoolStage}
    (hk : pool[k]? = some (i, stage)) (other : PoolStage) : (i, other) ∉ pool.eraseIdx k := by
  intro hm
  obtain ⟨j, hne, hj⟩ := mem_eraseIdx_iff_getElem?.mp hm
  exact hne (h.index_unique hj hk)

end Valid

theorem endRequest_stream_self (p : Processor) (i : Nat) : (p.endRequest i).manager.stream i =
    { p.manager.stream i with endStream := true, state := .halfClosedRemote } := by
  rw [endRequest, manage, setState_stream_self, modify_stream_self]

theorem endRequest_stream_ne {j : Nat} (hj : j ≠ i) :
    (p.endRequest i).manager.stream j = p.manager.stream j := by
  rw [endRequest, manage, setState_stream_ne _ _ hj, modify_stream_ne _ _ hj]

theorem apart_endRequest : Apart i p.manager (p.endRequest i).manager :=
  ⟨fun hj => endRequest_stream_ne hj, fun _ => Iff.rfl⟩

theorem apart_retire {m : Manager} : Apart i m (m.retire i) :=
  apart_erase rfl fun hj => update_of_ne hj _ _

theorem Change.valid (h : Valid T p.manager p.pool p.pendingInlineCleanup)
    (hch : Change T n p q) : Valid T q.manager q.pool q.pendingInlineCleanup := by
  cases hch with
  | books hb =>
    rw [hb.manager, hb.pool, hb.cleanup]
    exact h
  | respond hr => exact h.of_core hr.ids hr.core_stream hr.lastClientStream.ge
  | write | goAway | flushOut | drain => exact h.of_core rfl (fun _ => rfl) le_rfl
  | setState hi hs hnext => exact h.setState hi hs hnext
  | leave hl => exact h.leave hl
  | pass hi => exact h.of_core rfl (fun _ => rfl) hi.le
  | @opened _ t i hi hodd hf hopen hfree =>
    have ho := opens_of_tryOpenStream hopen hfree
    have hself : t.stream i = _ := (congrFun ho.stream i).trans (update_self i _ _)
    have hlast : i ≤ t.lastClientStream := by rw [ho.lastClientStream, if_pos hodd]
    exact h.insert hi ho.ids ho.stream (hi.le.trans hlast)
      (streamOk_of_eq hself hodd (fun _ => hlast) nofun (fun _ => rfl) fun _ => rfl)
  | @placeholder _ i hfree hi hodd ids =>
    exact h.insert hi rfl rfl le_rfl
      (streamOk_of_eq (insert_stream_self ..) hodd (absurd rfl) nofun (fun _ => rfl) fun _ => rfl)
  | @request _ i hi hopen headers data =>
    obtain ⟨hpool, hc⟩ := h.free_of_requesting hi hopen
    have hok := h.streams hi
    refine h.replace rfl rfl rfl (fun _ hself =>
      streamOk_of_eq hself hok.odd hok.known hok.isOver (fun he => ?_) hok.sync) hpool hc
    rw [length_append, hok.length he]
  | @endRequest _ i hi hopen hends =>
    obtain ⟨hpool, hc⟩ := h.free_of_requesting hi hopen
    have hok := h.streams hi
    refine h.of_others apart_endRequest h.nodup le_rfl (fun _ =>
      streamOk_of_eq (endRequest_stream_self p i) hok.odd (fun _ => hok.known fun hidle => ?_)
        (fun _ => .inl rfl)
        nofun nofun) hpool hc
    rw [hidle] at hopen
    cases hopen
  | credit hcr =>
    refine h.of_core hcr.ids (fun j => ?_) hcr.lastClientStream.ge
    rw [hcr.stream]
  | @window _ i increment hmax =>
    refine h.of_core rfl (fun j => ?_) le_rfl
    by_cases hj : j = i
    · rw [hj, modify_stream_self]
      rfl
    · rw [modify_stream_ne _ _ hj]
  | serve => exact h
  | dropData he hpool => exact h.dropData he hpool
  | @submit _ i inline hi hs he hpool hc hdata ha hlast =>
    have hok := h.streams hi
    have hself : (p.submit i inline).manager.stream i = { p.manager.stream i with
        asyncRunning := true, budgetPool := (p.manager.stream i).budgetPool || inline } :=
      update_self i _ p.manager.stream
    have hm : Valid T (p.submit i inline).manager p.pool p.pendingInlineCleanup :=
      h.replace rfl rfl rfl (fun _ _ => streamOk_of_eq hself hok.odd hok.known hok.isOver
        (fun hopen => absurd hopen (by simp [he])) fun hopen => absurd hopen (by simp [he])) hpool
          hc
    refine hm.submit ⟨?_, ?_, ?_, ?_, ?_, hc, ?_⟩ hpool
    · exact hok.known (by simp [hs])
    all_goals rw [hself]
    · exact he
    · exact .inl hs
    · exact fun hgone => absurd hi hgone
    · exact ⟨hdata, ha⟩
  | defer hi hs hasync hpool =>
    exact h.defer ⟨(h.streams hi).known (by simp [hs]), hasync, fun _ => hs⟩ hpool
  | cleaned todo hsub => exact h.cleaned hsub
  | stage hk hnext => exact h.stage hk hnext
  | @handOff _ k i stage hk hi hse =>
    refine (h.done k).replace rfl rfl rfl (fun hi hself => ?_) (h.not_mem_eraseIdx hk)
      (h.handlers (mem_of_getElem? hk)).kept
    have hok := h.streams hi
    exact streamOk_of_eq hself hok.odd hok.known hok.isOver hok.length fun _ => rfl
  | @retire _ k i stage hk hs hse =>
    exact (h.done k).of_others apart_retire (h.nodup.erase i) le_rfl
      (fun hi => absurd hi h.nodup.not_mem_erase) (h.not_mem_eraseIdx hk)
        (h.handlers (mem_of_getElem? hk)).kept

theorem Change.pending (h : ∀ u ∈ p.manager.pendingStreamUpdates, u.1 ≠ 0)
    (hc : Change T n p q) : ∀ u ∈ q.manager.pendingStreamUpdates, u.1 ≠ 0 := by
  cases hc with
  | books hb => rwa [hb.manager]
  | respond hr => exact fun u hu => h u (hr.pending hu)
  | leave hl => exact fun u hu => h u (hl.pending hu)
  | opened hi hodd hf ho hfree => rwa [(opens_of_tryOpenStream ho hfree).pending]
  | credit hcr => exact hcr.pending h
  | retire => exact fun u hu => h u (mem_of_mem_filter hu)
  | _ => exact h

/-! ## What changes do to requests -/

section

variable {n : Nat} {p q : Processor}

/-- The only change that starts a handler. -/
theorem Change.served (h : Change T n p q) : q.served = p.served ∨ ∃ i,
    (i ∈ p.manager.ids ∧ (p.manager.stream i).endStream = true ∧
      (p.goAwaySent = true → i ≤ p.goAwayLastID) ∨ (i, .submitted) ∈ p.pool) ∧
    (p.manager.stream i).data.length = (p.manager.stream i).receivedDataLen ∧
    (p.manager.stream i).Accepted T i ∧ q = p.serve i := by
  cases h with
  | books hb => exact .inl hb.served
  | serve hi hd ha => exact .inr ⟨_, hi, hd, ha, rfl⟩
  | _ => exact .inl rfl

theorem Served.change (h : Change T n p q) (hs : p.Served i) : q.Served i := by
  obtain ⟨r, hr, hid⟩ := hs
  rcases h.served with hsame | ⟨j, -, -, -, rfl⟩
  · exact ⟨r, hsame ▸ hr, hid⟩
  · exact ⟨r, mem_append_left _ hr, hid⟩

theorem served_serve (p : Processor) (i : Nat) : (p.serve i).Served i :=
  ⟨_, mem_append_right _ (mem_singleton_self _), rfl⟩

/-- A handler is given to the pool with a stream of the map, and waits there until it
starts. -/
theorem Change.pooled {stage : PoolStage} (h : Change T n p q) (hm : (i, stage) ∈ q.pool) :
    (i ∈ p.manager.ids ∧ (p.manager.stream i).state = .halfClosedRemote ∧
      (p.goAwaySent = true → i ≤ p.goAwayLastID) ∧ stage = .submitted) ∨
    ∃ before, (i, before) ∈ p.pool ∧ (stage = before ∨ p.Served i) := by
  cases h with
  | books hb => exact .inr ⟨stage, hb.pool ▸ hm, .inl rfl⟩
  | submit hi hst _ _ _ _ _ hl =>
    rcases mem_append.mp hm with hm | hm
    · exact .inr ⟨stage, hm, .inl rfl⟩
    · cases mem_singleton.mp hm
      exact .inl ⟨hi, hst, hl, rfl⟩
  | stage hk hn hs =>
    rcases mem_or_eq_of_mem_set hm with hm | heq
    · exact .inr ⟨stage, hm, .inl rfl⟩
    · cases heq
      exact .inr ⟨_, mem_of_getElem? hk, .inr hs⟩
  | handOff | retire => exact .inr ⟨stage, mem_of_mem_eraseIdx hm, .inl rfl⟩
  | _ => exact .inr ⟨stage, hm, .inl rfl⟩

variable {k j : Nat} {s : Stream}

theorem Pooled.set {stage next : PoolStage} (hk : p.pool[k]? = some (i, stage)) (h : p.Pooled j) :
    ∃ stage, (j, stage) ∈ p.pool.set k (i, next) := by
  obtain ⟨old, hm⟩ := h
  obtain ⟨l, hl⟩ := mem_iff_getElem?.mp hm
  obtain ⟨hlt, -⟩ := List.getElem?_eq_some_iff.mp hk
  by_cases hlk : l = k
  · subst hlk
    cases hl.symm.trans hk
    exact ⟨next, mem_set hlt _⟩
  · refine ⟨old, mem_iff_getElem?.mpr ⟨l, ?_⟩⟩
    rwa [getElem?_set_ne (Ne.symm hlk)]

theorem Pooled.eraseIdx {stage : PoolStage} (hk : p.pool[k]? = some (i, stage)) (hj : j ≠ i)
    (h : p.Pooled j) : ∃ stage, (j, stage) ∈ p.pool.eraseIdx k := by
  obtain ⟨old, hm⟩ := h
  obtain ⟨l, hl⟩ := mem_iff_getElem?.mp hm
  refine ⟨old, mem_eraseIdx_iff_getElem?.mpr ⟨l, ?_, hl⟩⟩
  rintro rfl
  cases hl.symm.trans hk
  exact hj rfl

/-- A handler leaves the pool only after it has started. -/
theorem Change.held (h : Change T n p q) (hp : p.Pooled i) : q.Served i ∨ q.Pooled i := by
  cases h with
  | books hb => exact .inr (by rwa [Pooled, hb.pool])
  | submit =>
    obtain ⟨stage, hm⟩ := hp
    exact .inr ⟨stage, mem_append_left _ hm⟩
  | stage hk hn hs => exact .inr (.set hk hp)
  | @handOff _ k j stage hk hj hs | @retire _ k j stage hk hst hs =>
    by_cases hij : i = j
    · exact .inl (hij ▸ hs)
    · exact .inr (.eraseIdx hk hij hp)
  | _ => exact .inr hp

/-- A request that has ended stays so when a stream is changed in another way. -/
theorem endStream_update (hst : t.stream = Function.update m.stream j s)
    (hs : (m.stream j).endStream = true → s.endStream = true) (h : (m.stream i).endStream = true) :
    (t.stream i).endStream = true := by
  rw [hst]
  by_cases hij : i = j
  · rw [hij, update_self]
    exact hs (hij ▸ h)
  · rwa [update_of_ne hij]

/-- An identifier the client has used stays used: its stream does not come back, and its
request does not begin again. -/
theorem Change.passed (hn : p.manager.ids.Nodup) (h : Change T n p q)
    (hi : i ≤ p.manager.lastClientStream) :
    i ≤ q.manager.lastClientStream ∧ (i ∈ q.manager.ids → i ∈ p.manager.ids ∧
      ((p.manager.stream i).endStream = true → (q.manager.stream i).endStream = true)) := by
  have ho : ∀ {j : Nat}, Apart j p.manager q.manager → i ≠ j → i ∈ q.manager.ids →
    i ∈ p.manager.ids ∧
      ((p.manager.stream i).endStream = true → (q.manager.stream i).endStream = true) :=
    fun ha hne hmem => ⟨(ha.ids hne).mp hmem, fun he => by rwa [ha.stream hne]⟩
  cases h with
  | books hb =>
    rw [hb.manager]
    exact ⟨hi, fun hmem => ⟨hmem, id⟩⟩
  | respond hr =>
    rw [hr.lastClientStream, hr.ids, endStream_of_core (hr.core_stream i)]
    exact ⟨hi, fun hmem => ⟨hmem, id⟩⟩
  | credit hc =>
    rw [hc.lastClientStream, hc.ids, hc.stream]
    exact ⟨hi, fun hmem => ⟨hmem, id⟩⟩
  | @leave _ t j resetOpen expiredReq hl hwhy hm =>
    refine ⟨hi.trans hl.lastClientStream.ge, fun hmem => ho (apart_erase hl.ids hl.others) ?_ hmem⟩
    rintro rfl
    exact hn.not_mem_erase (hl.ids ▸ hmem)
  | pass hj => exact ⟨hi.trans hj.le, fun hmem => ⟨hmem, id⟩⟩
  | @opened _ t j hj hodd hf hopen hfree =>
    have hop := opens_of_tryOpenStream hopen hfree
    refine ⟨?_, ho (apart_enter hop.ids hop.stream) (hi.trans_lt hj).ne⟩
    rw [hop.lastClientStream, if_pos hodd]
    exact hi.trans hj.le
  | placeholder hfree hj hodd ids => exact ⟨hi, ho (apart_enter rfl rfl) (hi.trans_lt hj).ne⟩
  | @endRequest _ j hj hopen hends =>
    refine ⟨hi, fun hmem => ⟨hmem, fun he => ?_⟩⟩
    by_cases hij : i = j
    · rw [hij, endRequest_stream_self]
    · rwa [endRequest_stream_ne hij]
  | retire hk hst hs =>
    refine ⟨hi, fun hmem => ?_⟩
    exact ⟨mem_of_mem_erase hmem, endStream_update rfl id⟩
  | setState | request | window | dropData | submit | handOff =>
    exact ⟨hi, fun hmem => ⟨hmem, endStream_update rfl id⟩⟩
  | _ => exact ⟨hi, fun hmem => ⟨hmem, id⟩⟩

/-! ## Answers -/

theorem State.ended_ne_idle {state : State} (h : state ≠ .idle) : state.ended ≠ .idle := by
  cases state with
  | idle => exact absurd rfl h
  | _ => exact nofun

/-- A stream changes, and what is known of its answer stays. -/
theorem silent_update {served : Prop} (hst : t.stream = Function.update m.stream j s)
    (hs : j = i → (m.stream j).Silent served → s.Silent served) (h : (m.stream i).Silent served) :
    (t.stream i).Silent served := by
  rw [hst]
  by_cases hij : i = j
  · rw [hij, update_self]
    exact hs hij.symm (hij ▸ h)
  · rwa [update_of_ne hij]

/-- A response goes on. -/
theorem Answers.respond (hinv : Inv T p) (h : Manager.Responds j 0 p.manager t)
    (hw : p.Answering j ∨ Manager.Quiet j p.manager t) (hi : i ∈ p.manager.ids) :
    (t.stream i).Silent (p.Served i) := by
  have hs := hinv.answers.streams hi
  by_cases hij : i = j
  · subst hij
    have hst := h.state i
    rcases hw with ⟨hse, -⟩ | hq
    · have he := (hinv.answers.used hse).2 hi
      refine ⟨fun _ => hse, fun ho => ?_, fun _ hidle => ?_⟩
      · rw [endStream_of_core h.stream, he] at ho
        cases ho
      · rw [hst] at hidle
        exact ((hinv.valid.streams hi).isOver he).ne_idle hidle
    · refine ⟨fun hb => hs.buffered (hq.buffer hb), fun ho => ?_, fun ha => ?_⟩
      · rw [hq.cancelled]
        exact hs.alive ((endStream_of_core h.stream).symm.trans ho)
      · rw [hst]
        exact (hq.armed ha).elim hs.armed id
  · rwa [h.others hij]

/-- Every change keeps what is known of the streams of the map. -/
theorem Change.silent (hinv : Inv T p) (h : Change T n p q) (hi : i ∈ q.manager.ids) :
    (q.manager.stream i).Silent (p.Served i) := by
  have hold : i ∈ p.manager.ids → (p.manager.stream i).Silent (p.Served i) :=
    fun hi => hinv.answers.streams hi
  have ho : ∀ {j}, Apart j p.manager q.manager → i ≠ j →
      (q.manager.stream i).Silent (p.Served i) := by
    intro j ha hij
    rw [ha.stream hij]
    exact hold ((ha.ids hij).mp hi)
  cases h with
  | books hbo =>
    rw [hbo.manager] at hi ⊢
    exact hold hi
  | respond hr hwho => exact Answers.respond hinv hr hwho (hr.ids ▸ hi)
  | @setState _ j next hj hst hn =>
    refine silent_update rfl (fun _ hsi => ⟨hsi.buffered, hsi.alive, fun _ hidle => ?_⟩) (hold hi)
    rcases hn with rfl | rfl
    · cases hidle
    · exact State.ended_ne_idle hst hidle
  | @leave _ t j resetOpen expiredReq hl hwhy hm =>
    refine ho (apart_erase hl.ids hl.others) ?_
    rintro rfl
    exact hinv.valid.nodup.not_mem_erase (hl.ids ▸ hi)
  | @opened _ t j hj hodd hf hopen hfree =>
    have hop := opens_of_tryOpenStream hopen hfree
    by_cases hij : i = j
    · rw [hop.stream, hij, update_self]
      exact ⟨fun hb => absurd rfl hb, fun _ => rfl, nofun⟩
    · exact ho (apart_enter hop.ids hop.stream) hij
  | @placeholder _ j hfree hj hodd ids =>
    by_cases hij : i = j
    · rw [hij, insert_stream_self]
      exact ⟨fun hb => absurd rfl hb, fun _ => rfl, nofun⟩
    · exact ho (apart_enter rfl rfl) hij
  | @endRequest _ j hj hopen he =>
    by_cases hij : i = j
    · subst hij
      rw [endRequest_stream_self]
      exact ⟨(hold hi).buffered, nofun, fun _ => nofun⟩
    · exact ho apart_endRequest hij
  | credit hc =>
    rw [hc.stream]
    exact hold (hc.ids ▸ hi)
  | @retire _ k j stage hk hst hse =>
    exact ho apart_retire fun hij => hinv.valid.nodup.not_mem_erase (hij ▸ hi)
  | request | window | dropData | submit | handOff =>
    exact silent_update rfl (fun _ hs => { hs with }) (hold hi)
  | _ => exact hold hi

/-- A cleanup is put off for a stream a handler was started on. -/
theorem Change.cleanups (h : Change T n p q) (hi : i ∈ q.pendingInlineCleanup) :
    i ∈ p.pendingInlineCleanup ∨ p.Served i := by
  cases h with
  | books hb => exact .inl (hb.cleanup ▸ hi)
  | defer _ _ _ _ hs =>
    rcases mem_append.mp hi with hi | hi
    · exact .inl hi
    · cases mem_singleton.mp hi
      exact .inr hs
  | cleaned todo hsub => exact .inl (hsub hi)
  | _ => exact .inl hi

theorem Change.answers (hinv : Inv T p) (h : Change T n p q) : Answers q where
  used {j} hs := by
    have hold : p.Served j → j ≤ q.manager.lastClientStream ∧
        (j ∈ q.manager.ids → (q.manager.stream j).endStream = true) := by
      intro hs
      obtain ⟨hl, he⟩ := hinv.answers.used hs
      obtain ⟨hl, hm⟩ := h.passed hinv.valid.nodup hl
      exact ⟨hl, fun hj => (hm hj).2 (he (hm hj).1)⟩
    obtain ⟨r, hr, hid⟩ := hs
    rcases h.served with hsame | ⟨i, hi, -, -, rfl⟩
    · exact hold ⟨r, hsame ▸ hr, hid⟩
    · rcases mem_append.mp hr with hr | hr
      · exact hold ⟨r, hr, hid⟩
      · cases mem_singleton.mp hr
        cases hid
        rcases hi with ⟨hm, he, -⟩ | hp
        · have hok := hinv.valid.streams hm
          exact ⟨hok.known (hok.isOver he).ne_idle, fun _ => he⟩
        · have hok := hinv.valid.handlers hp
          exact ⟨hok.known, fun _ => hok.ended⟩
  handlers hm := by
    rcases h.pooled hm with ⟨-, -, -, hn⟩ | ⟨before, hb, hsame | hs⟩
    · exact .inl hn
    · exact hsame ▸ (hinv.answers.handlers hb).imp_right (.change h)
    · exact .inr (.change h hs)
  cleanups hi := (h.cleanups hi).elim (fun hi => .change h (hinv.answers.cleanups hi)) (.change h)
  streams hi := by
    have hsi := h.silent hinv hi
    exact ⟨fun hbu => .change h (hsi.buffered hbu), hsi.alive, hsi.armed⟩

/-- Every change keeps the invariant. -/
theorem Change.inv (hi : Inv T p) (h : Change T n p q) : Inv T q :=
  ⟨h.valid hi.valid, h.pending hi.pending, h.answers hi⟩

end

end Processor

end Celeris.H2
