import Celeris.H2.Handler

/-!
# What a response changes

Whatever a handler writes and the event loop flushes changes one stream, and of that
stream the response only: its request and its state stay, and so does the map. The
window of the stream pays for the bytes that go out. `Responds` says this of two
states of the manager, and every definition of `H2.Outbound` meets it; the counts and
the request side of a connection need to know no more of a response.

Between `ReserveSendWindow` and the frames that use its grant the window has paid for
bytes that are not sent, so `Responds` has that amount as a parameter.
-/

namespace Celeris.H2

open List Function Int Subset

/-- A stream without its response and its send window. -/
def Stream.core (s : Stream) : Stream :=
  { s with
    receivedInitialHeaders := false, isHEAD := false, reqDeadline := false
    cancelled := false, budgetPool := false
    streamed := false, respEnded := false, respFailed := false, headersSent := false
    respDeclared := -1, respWritten := 0, windowSize := 0
    outboundBuffer := [], outboundEndStream := false, outboundAbandoned := false
    base := 0, credited := 0, dataSent := 0 }

/-- Whether a frame belongs to the response of a stream. -/
def Output.OfStream (i : Nat) : Output → Prop
  | .headers id _ _ => id = i
  | .data id _ _ => id = i
  | .rstStream id _ => id = i
  | _ => False

theorem Output.OfStream.connIncrement {i : Nat} {o : Output} (h : o.OfStream i) :
    o.connIncrement = none := by
  cases o with
  | windowUpdate id increment => cases h
  | _ => rfl

/-- The account of a stream's send window. -/
def Stream.account (s : Stream) : Int × Int × Int × Int :=
  (s.windowSize, s.base, s.credited, s.dataSent)

namespace Manager

/-- A manager without its streams, its writers and what responses change. -/
def core (m : Manager) : Manager :=
  { m with
    stream := fun _ => {}, connectionWindow := 0, maxFrameSize := 0
    requestOpen := 0, pendingStreamUpdates := [], outboundHeld := 0, placeholderIDs := []
    priorityTree := {}, outBuf := [], queue := [], wire := [] }

/-- The increments of the `WINDOW_UPDATE`s for the connection. -/
def increments (m : Manager) : List Nat := m.sent.filterMap Output.connIncrement

/-! ## What is written -/

/-- Frames of a kind are written, straight or to the queue. -/
structure Writes (P : Output → Prop) (m t : Manager) : Prop where
  wire : t.wire = m.wire
  outBuf : ∃ out, t.outBuf = m.outBuf ++ out ∧ ∀ o ∈ out, P o
  queue : ∃ out, t.queue = m.queue ++ out ∧ ∀ o ∈ out, P o

namespace Writes

variable {P Q : Output → Prop} {m t u : Manager}

theorem of_eq (hw : t.wire = m.wire) (ho : t.outBuf = m.outBuf) (hq : t.queue = m.queue) :
    Writes P m t :=
  ⟨hw, ⟨[], by rw [ho, append_nil], nofun⟩, ⟨[], by rw [hq, append_nil], nofun⟩⟩

theorem refl : Writes P m m := .of_eq rfl rfl rfl

theorem trans (h : Writes P m t) (h' : Writes P t u) : Writes P m u := by
  obtain ⟨out, ho, hP⟩ := h.outBuf
  obtain ⟨out', ho', hP'⟩ := h'.outBuf
  obtain ⟨queued, hq, hQ⟩ := h.queue
  obtain ⟨queued', hq', hQ'⟩ := h'.queue
  refine ⟨h'.wire.trans h.wire, ⟨out ++ out', ?_, ?_⟩, queued ++ queued', ?_, ?_⟩
  · rw [ho', ho, append_assoc]
  · exact forall_mem_append.mpr ⟨hP, hP'⟩
  · rw [hq', hq, append_assoc]
  · exact forall_mem_append.mpr ⟨hQ, hQ'⟩

theorem mono (hPQ : ∀ o, P o → Q o) (h : Writes P m t) : Writes Q m t := by
  obtain ⟨out, hout, hP⟩ := h.outBuf
  obtain ⟨queued, hq, hP'⟩ := h.queue
  exact ⟨h.wire, ⟨out, hout, fun o ho => hPQ o (hP o ho)⟩, queued, hq, fun o ho => hPQ o (hP' o ho)⟩

theorem write {out : List Output} (ho : ∀ o ∈ out, P o) : Writes P m (m.write out) :=
  ⟨rfl, ⟨out, rfl, ho⟩, [], (append_nil _).symm, nofun⟩

/-- What is not of the kind that is written stays as it is. -/
theorem filterMap {α : Type} {f : Output → Option α} (hP : ∀ o, P o → f o = none)
    (h : Writes P m t) :
    t.sent.filterMap f = m.sent.filterMap f ∧ t.queue.filterMap f = m.queue.filterMap f := by
  obtain ⟨out, hout, hn⟩ := h.outBuf
  obtain ⟨queued, hq, hn'⟩ := h.queue
  have hnil : out.filterMap f = [] := filterMap_eq_nil_iff.mpr fun o ho => hP o (hn o ho)
  have hnil' : queued.filterMap f = [] := filterMap_eq_nil_iff.mpr fun o ho => hP o (hn' o ho)
  simp [sent, h.wire, hout, hq, hnil, hnil']

theorem increments (hP : ∀ o, P o → o.connIncrement = none) (h : Writes P m t) :
    t.increments = m.increments :=
  (h.filterMap hP).1

/-- What was sent before is sent. -/
theorem mem_sent {o : Output} (h : Writes P m t) (ho : o ∈ m.sent) : o ∈ t.sent := by
  obtain ⟨out, hout, -⟩ := h.outBuf
  obtain ⟨queued, hq, -⟩ := h.queue
  simp only [sent, h.wire, hout, hq, mem_append] at ho ⊢
  tauto

end Writes

/-! ## The window pays -/

/-- The window of a stream has paid for what was sent since, and for `owed` bytes more;
the peer has given it nothing. -/
structure Paid (owed : Int) (s t : Stream) : Prop where
  base : t.base = s.base
  credited : t.credited = s.credited
  pays : s.windowSize ≤ maxWindow →
    t.windowSize + (t.dataSent + owed) = s.windowSize + s.dataSent ∧
    (t.dataSent + owed = s.dataSent ∨ s.dataSent < t.dataSent + owed ∧ 0 ≤ t.windowSize)

variable {s t : Stream} {maxFrame id : Nat} {endStream : Bool} {data : Bytes}

theorem Paid.of_eq (h : t.account = s.account) : Paid 0 s t := by
  obtain ⟨hw, hb, hc, hs⟩ : _ ∧ _ ∧ _ ∧ _ := by
    simpa only [Stream.account, Prod.mk.injEq] using h
  refine ⟨hb, hc, fun _ => ?_⟩
  exact ⟨by omega, .inl (by omega)⟩

theorem Paid.trans {a b : Int} {u : Stream} (h : Paid a s t) (h' : Paid b t u) :
    Paid (a + b) s u := by
  refine ⟨h'.base.trans h.base, h'.credited.trans h.credited, fun hs => ?_⟩
  obtain ⟨hsum, hsent⟩ := h.pays hs
  obtain ⟨hsum', hsent'⟩ := h'.pays (by omega)
  refine ⟨by omega, ?_⟩
  rcases hsent' with heq | ⟨hlt, hp⟩
  · rcases hsent with heq₀ | ⟨hlt₀, hpos₀⟩
    · exact .inl (by omega)
    · exact .inr ⟨by omega, by omega⟩
  · exact .inr ⟨by omega, hp⟩

/-! ## Responses -/

/-- Only the response of a stream has changed, and `owed` bytes are paid for and not sent. -/
structure Responds (i : Nat) (owed : Int) (m t : Manager) : Prop where
  core : t.core = m.core
  others : ∀ {j}, j ≠ i → t.stream j = m.stream j
  stream : (t.stream i).core = (m.stream i).core
  paid : Paid owed (m.stream i) (t.stream i)
  pending : t.pendingStreamUpdates ⊆ m.pendingStreamUpdates
  initial : (m.stream i).receivedInitialHeaders = true → (t.stream i).receivedInitialHeaders = true
  held : t.outboundHeld - (t.stream i).outboundBuffer.length =
    m.outboundHeld - (m.stream i).outboundBuffer.length
  writes : Writes (Output.OfStream i) m t

namespace Responds

variable {i : Nat} {a b : Int} {m t u : Manager}

theorem refl : Responds i 0 m m :=
  ⟨rfl, fun _ => rfl, rfl, .of_eq rfl, Subset.refl _, id, rfl, .refl⟩

theorem trans (h : Responds i a m t) (h' : Responds i b t u) : Responds i (a + b) m u where
  core := h'.core.trans h.core
  others hj := (h'.others hj).trans (h.others hj)
  stream := h'.stream.trans h.stream
  paid := h.paid.trans h'.paid
  pending := List.Subset.trans h'.pending h.pending
  initial hm := h'.initial (h.initial hm)
  held := h'.held.trans h.held
  writes := h.writes.trans h'.writes

/-- Nothing is owed on the way. -/
theorem comp (h : Responds i 0 m t) (h' : Responds i 0 t u) : Responds i 0 m u := by
  simpa using h.trans h'

theorem before (h : Responds i 0 m t) (h' : Responds i a t u) : Responds i a m u := by
  simpa using h.trans h'

/-- What is reserved is sent. -/
theorem settle (h : Responds i a m t) (h' : Responds i (-a) t u) : Responds i 0 m u := by
  simpa using h.trans h'

theorem ids (h : Responds i a m t) : t.ids = m.ids := (congrArg Manager.ids h.core :)

theorem lastClientStream (h : Responds i a m t) : t.lastClientStream = m.lastClientStream :=
  (congrArg Manager.lastClientStream h.core :)

theorem initialWindowSize (h : Responds i a m t) : t.initialWindowSize = m.initialWindowSize :=
  (congrArg Manager.initialWindowSize h.core :)

theorem core_stream (h : Responds i a m t) (j : Nat) : (t.stream j).core = (m.stream j).core := by
  by_cases hj : j = i
  · rw [hj]
    exact h.stream
  · rw [h.others hj]

theorem state (h : Responds i a m t) (j : Nat) : (t.stream j).state = (m.stream j).state :=
  (congrArg Stream.state (h.core_stream j) :)

end Responds

/-! ## Changes that are responses -/

section Primitives

variable {i : Nat} {m : Manager}

@[simp] theorem modify_stream_self (m : Manager) (i : Nat) (f : Stream → Stream) :
    (m.modify i f).stream i = f (m.stream i) := update_self i _ _

variable {j : Nat} {f : Stream → Stream}

@[simp] theorem modify_stream_ne (m : Manager) (f : Stream → Stream) (hj : j ≠ i) :
    (m.modify i f).stream j = m.stream j := update_of_ne hj _ _

@[simp] theorem setState_stream_self (m : Manager) (i : Nat) (next : State) :
    (m.setState i next).stream i = { m.stream i with state := next } := update_self i _ _

@[simp] theorem setState_stream_ne (m : Manager) (next : State) (hj : j ≠ i) :
    (m.setState i next).stream j = m.stream j := update_of_ne hj _ _

variable {s : Stream} {out : List Output}

@[simp] theorem insert_stream_self : (m.insert i s).stream i = s :=
  update_self i _ _

@[simp] theorem insert_stream_ne (hj : j ≠ i) : (m.insert i s).stream j = m.stream j :=
  update_of_ne hj _ _

theorem insert_ids (hi : i ∉ m.ids) : (m.insert i s).ids = i :: m.ids := if_neg hi

/-- The stream changes and its request does not; its window has paid, and what it buffers is
accounted for. -/
theorem responds_buffer {owed held window : Int}
    (hc : (f (m.stream i)).core = (m.stream i).core) (hp : Paid owed (m.stream i) (f (m.stream i)))
    (hi : (m.stream i).receivedInitialHeaders = true →
      (f (m.stream i)).receivedInitialHeaders = true)
    (hh : held - (f (m.stream i)).outboundBuffer.length =
      m.outboundHeld - (m.stream i).outboundBuffer.length) :
    Responds i owed m { m.modify i f with outboundHeld := held, connectionWindow := window } := by
  have hs : ({ m.modify i f with outboundHeld := held, connectionWindow := window } :
    Manager).stream i =
    f (m.stream i) := modify_stream_self m i f
  refine ⟨rfl, fun hj => modify_stream_ne m f hj, ?_, ?_, refl _, ?_, ?_, .of_eq rfl rfl rfl⟩
  all_goals rw [hs]
  · exact hc
  · exact hp
  · exact hi
  · exact hh

/-- The stream changes, its request, its window and its buffer do not. -/
theorem responds_modify (hc : (f (m.stream i)).core = (m.stream i).core)
    (ha : (f (m.stream i)).account = (m.stream i).account)
    (hi : (m.stream i).receivedInitialHeaders = true →
      (f (m.stream i)).receivedInitialHeaders = true)
    (hb : (f (m.stream i)).outboundBuffer = (m.stream i).outboundBuffer) :
    Responds i 0 m (m.modify i f) :=
  responds_buffer hc (.of_eq ha) hi (by rw [hb])

/-- The streams and the budget stay. -/
theorem responds_books {t : Manager} (hc : t.core = m.core) (hs : t.stream = m.stream)
    (hp : t.pendingStreamUpdates ⊆ m.pendingStreamUpdates) (hh : t.outboundHeld = m.outboundHeld)
    (hw : Writes (Output.OfStream i) m t) : Responds i 0 m t := by
  refine ⟨hc, fun _ => by rw [hs], by rw [hs], ?_, hp, by rw [hs]; exact id, by rw [hs, hh], hw⟩
  rw [hs]
  exact .of_eq rfl

theorem responds_write (ho : ∀ o ∈ out, o.OfStream i) : Responds i 0 m (m.write out) :=
  responds_books rfl rfl (refl _) rfl (.write ho)

theorem responds_enqueue (ho : ∀ o ∈ out, o.OfStream i) : Responds i 0 m (m.enqueue out) :=
  responds_books rfl rfl (refl _) rfl ⟨rfl, ⟨[], (append_nil _).symm, nofun⟩, out, rfl, ho⟩

theorem responds_cancel : Responds i 0 m (m.cancel i) := responds_modify rfl rfl id rfl

theorem responds_disarmRequest : Responds i 0 m (m.disarmRequest i) :=
  responds_modify rfl rfl id rfl

theorem responds_setHeadersSent : Responds i 0 m (m.setHeadersSent i) :=
  responds_modify rfl rfl id rfl

theorem responds_noteWritten {n : Nat} : Responds i 0 m (m.noteWritten i n) :=
  responds_modify rfl rfl id rfl

theorem responds_failResponse : Responds i 0 m (m.failResponse i) := responds_modify rfl rfl id rfl

theorem increments_drainWriteQueue : m.drainWriteQueue.increments.Perm m.increments := by
  simp only [increments, sent, drainWriteQueue, append_nil, filterMap_append, append_assoc]
  exact (perm_append_comm).append_left _

end Primitives

/-! ## DATA frames -/

theorem ofStream_fragments {fuel : Nat} :
    ∀ o ∈ fragments maxFrame id endStream fuel data, o.OfStream id := by
  induction fuel generalizing data with
  | zero => exact nofun
  | succ fuel ih =>
    rw [fragments]
    split_ifs
    · exact forall_mem_singleton.mpr rfl
    · exact forall_mem_cons.mpr ⟨rfl, ih⟩

theorem ofStream_dataFrames : ∀ o ∈ dataFrames maxFrame id endStream data, o.OfStream id := by
  unfold dataFrames
  split_ifs
  · exact forall_mem_singleton.mpr rfl
  all_goals exact ofStream_fragments

section Sends

variable {i : Nat} {m : Manager} {n : Nat} {data rest : Bytes} {want : Int} {endStream : Bool}
  {t : Manager}

/-- Bytes are counted as sent. -/
theorem responds_countSent : Responds i (-n) m (m.countSent i n) :=
  responds_buffer (f := fun s => { s with dataSent := s.dataSent + n }) rfl
    ⟨rfl, rfl, fun _ => ⟨by dsimp only; omega, .inl (by dsimp only; omega)⟩⟩ id rfl

theorem responds_sendData (endStream : Bool) (data : Bytes) :
    Responds i (-data.length) m (m.sendData i endStream data) := by
  have hq : Responds i 0 m (m.enqueue (dataFrames m.maxFrameSize i endStream data)) :=
    responds_enqueue ofStream_dataFrames
  exact hq.before responds_countSent

theorem responds_sendTake (hn : n ≤ data.length) :
    Responds i (-n) m (m.sendData i endStream (data.take n)) := by
  have hs := responds_sendData (i := i) (m := m) endStream (data.take n)
  rwa [length_take_of_le hn] at hs

/-! ## Grants -/

theorem int32_eq {x : Int} (hl : -(2 ^ 31) ≤ x) (hh : x < 2 ^ 31) : int32 x = x := by
  exact bmod_eq_of_le (by omega) (by omega)

/-- What a call is granted, and what it leaves of the windows. -/
theorem reserveSendWindow_eq : ∃ granted left window, m.reserveSendWindow i want =
      (granted, { m.modify i fun s => { s with windowSize := left } with
        connectionWindow := window }) ∧
    0 ≤ granted ∧ (granted = 0 ∨ granted ≤ want) ∧ ((m.stream i).windowSize ≤ maxWindow →
      left = (m.stream i).windowSize - granted ∧ (granted = 0 ∨ 0 ≤ left)) := by
  unfold reserveSendWindow
  dsimp only
  split
  · refine ⟨0, (m.stream i).windowSize, m.connectionWindow, ?_, le_refl 0, .inl rfl,
      fun _ => ⟨by omega, .inl rfl⟩⟩
    rw [modify, setStream, update_eq_self]
  · refine ⟨_, _, _, rfl, by split_ifs <;> omega, .inr (by split_ifs <;> omega), fun hm => ?_⟩
    unfold maxWindow at hm
    rw [int32_eq (x := (m.stream i).windowSize -
      (if want > (m.stream i).windowSize then (m.stream i).windowSize else want))]
    all_goals first
      | (rw [int32_eq (by omega) (by omega)]; omega)
      | omega

theorem reserveSendWindow_spec : let granted := (m.reserveSendWindow i want).1
    0 ≤ granted ∧ (granted = 0 ∨ granted ≤ want) ∧
      Responds i granted m (m.reserveSendWindow i want).2 := by
  obtain ⟨granted, left, window, heq, hp, hle, hl⟩ := reserveSendWindow_eq
  rw [heq]
  refine ⟨hp, hle, responds_buffer rfl ⟨rfl, rfl, fun hm => ?_⟩ id rfl⟩
  obtain ⟨hs, hn⟩ := hl hm
  dsimp only
  omega

/-- The grant of so many bytes, as a number of bytes. -/
theorem reserveSendWindow_bytes : let r := m.reserveSendWindow i (clampWindowRequest n)
    r.1.toNat ≤ n ∧ Responds i r.1.toNat m r.2 := by
  obtain ⟨hp, hle, hr⟩ := reserveSendWindow_spec
  have hn : clampWindowRequest n ≤ n := min_le_left _ _
  refine ⟨?_, ?_⟩
  · rcases hle with hz | hle
    · rw [hz]
      exact Nat.zero_le n
    · omega
  · rwa [toNat_of_nonneg hp]

/-! ## Buffers -/

theorem responds_bufferOutbound : Responds i 0 m (m.bufferOutbound i data endStream) := by
  refine responds_buffer rfl (.of_eq rfl) id ?_
  rw [length_append]
  omega

theorem responds_tryBufferOutbound
    (h : m.tryBufferOutbound i data endStream = some t) : Responds i 0 m t := by
  unfold tryBufferOutbound at h
  split_ifs at h
  all_goals
    cases h
    exact responds_bufferOutbound

/-- A grant changes nothing of the stream but its window. -/
theorem reserveSendWindow_stream :
    ∃ window, (m.reserveSendWindow i want).2.stream i =
      { m.stream i with windowSize := window } := by
  obtain ⟨_, left, _, heq, -⟩ := reserveSendWindow_eq
  rw [heq]
  exact ⟨left, update_self i _ _⟩

theorem sendData_stream :
    (m.sendData i endStream data).stream i =
      { m.stream i with dataSent := (m.stream i).dataSent + data.length } := by
  rw [sendData, countSent, modify_stream_self]
  rfl

/-- A flush changes nothing of the stream but its window and its buffer, which was not empty
if it is not empty after. -/
theorem flushOutbound_stream : ∃ window buffer sent, (m.flushOutbound i).2.stream i =
        { m.stream i with windowSize := window, outboundBuffer := buffer, dataSent := sent } ∧
      (buffer ≠ [] → (m.stream i).outboundBuffer ≠ []) := by
  by_cases he : (m.stream i).outboundBuffer = []
  · have hs : m.flushOutbound i = (false, m) := if_pos he
    rw [hs]
    exact ⟨_, _, _, rfl, id⟩
  · obtain ⟨window, hw⟩ :=
      reserveSendWindow_stream
    simp only [flushOutbound, if_neg he]
    generalize m.reserveSendWindow i (clampWindowRequest (m.stream i).outboundBuffer.length) =
      grant at hw ⊢
    split_ifs
    · exact ⟨_, _, _, hw, fun _ => he⟩
    · refine ⟨window, (m.stream i).outboundBuffer.drop grant.1.toNat, (m.stream i).dataSent +
        ((m.stream i).outboundBuffer.take grant.1.toNat).length, ?_, fun _ => he⟩
      rw [modify_stream_self, sendData_stream, hw]

theorem responds_flushOutbound : Responds i 0 m (m.flushOutbound i).2 := by
  obtain ⟨hle, hg⟩ := reserveSendWindow_bytes
  by_cases he : (m.stream i).outboundBuffer = []
  · have hs : m.flushOutbound i = (false, m) := if_pos he
    rw [hs]
    exact .refl
  · simp only [flushOutbound, if_neg he]
    split_ifs with hn
    · rw [toNat_eq_zero.mpr hn] at hg
      exact hg
    · refine Responds.comp (hg.settle ?_) (responds_buffer rfl (.of_eq rfl) id ?_)
      swap
      · obtain ⟨window, hw⟩ :=
          reserveSendWindow_stream
        rw [sendData_stream, hw, length_drop]
        dsimp only
        omega
      exact responds_sendTake hle

theorem responds_sendGranted : Responds i 0 m (m.sendGranted i data).2 := by
  obtain ⟨hle, hg⟩ := reserveSendWindow_bytes
  simp only [sendGranted]
  split_ifs with hp
  · exact (hg.settle (responds_sendTake hle)).comp responds_noteWritten
  · rwa [Nat.eq_zero_of_not_pos hp] at hg

theorem responds_bufferRest : Responds i 0 m (m.bufferRest i rest) := by
  refine Responds.comp (responds_buffer rfl (.of_eq rfl) id ?_) responds_noteWritten
  rw [length_append]
  omega

theorem responds_sendOrBuffer : Responds i 0 m (m.sendOrBuffer i data) := by
  have hs : Responds i 0 m
      (if (m.stream i).outboundBuffer = [] then m.sendGranted i data else (0, m)).2 := by
    split_ifs
    · exact responds_sendGranted
    · exact .refl
  unfold sendOrBuffer
  generalize (if (m.stream i).outboundBuffer = [] then m.sendGranted i data else (0, m)) =
    sent at hs ⊢
  dsimp only
  split_ifs
  · exact hs.comp responds_bufferRest
  · exact hs

theorem responds_streamWrite (h : m.streamWrite i data = some (t, rest)) : Responds i 0 m t := by
  simp only [streamWrite] at h
  split_ifs at h <;> cases h
  · exact .refl
  · exact responds_sendOrBuffer
  · exact responds_sendGranted

theorem responds_endOutbound (h : m.endOutbound i = some t) : Responds i 0 m t := by
  have he : Responds i 0 m (m.modify i fun s => { s with respEnded := true }) :=
    responds_modify rfl rfl id rfl
  simp only [endOutbound] at h
  split_ifs at h <;> cases h
  · exact he.comp (responds_modify rfl rfl id rfl)
  · exact he.comp (responds_sendData true [])

theorem responds_discardOutbound : Responds i 0 m (m.discardOutbound i) := by
  refine responds_buffer rfl (.of_eq rfl) id ?_
  rw [length_nil]
  omega

theorem responds_abandonOutbound : Responds i 0 m (m.abandonOutbound i).2 := by
  simp only [abandonOutbound]
  split_ifs
  · exact .refl
  · dsimp only
    exact responds_modify rfl rfl id rfl

/-! ## Whole responses -/

variable {body : Bytes} {status : Nat} {code : ErrCode} {c : Call}

theorem ofStream_firstFrames : ∀ o ∈ m.firstFrames i n body, o.OfStream i := by
  unfold firstFrames
  split_ifs
  · exact ofStream_dataFrames
  · exact nofun

theorem responds_writeResponseInline (status : Nat) (body : Bytes) :
    Responds i 0 m (m.writeResponseInline i status body) := by
  have hh : Responds i 0 m (m.write [.headers i status (decide (m.responseBody i body = []))]) :=
    responds_write (forall_mem_singleton.mpr rfl)
  obtain ⟨-, hg⟩ := reserveSendWindow_bytes
  simp only [writeResponseInline]
  split_ifs
  · exact hh.comp responds_setHeadersSent
  · refine Responds.comp (hh.comp (hg.settle ?_)) responds_setHeadersSent
    exact (responds_write ofStream_firstFrames).before responds_countSent
  · refine Responds.comp (Responds.comp (hh.comp (hg.settle ?_)) responds_bufferOutbound)
      responds_setHeadersSent
    exact (responds_write ofStream_firstFrames).before responds_countSent

theorem responds_writeResponse : Responds i 0 m (m.writeResponse i status body).1 := by
  obtain ⟨-, hg⟩ := reserveSendWindow_bytes
  refine (hg.settle (.before (responds_enqueue (forall_mem_cons.mpr ⟨?_, ofStream_firstFrames⟩))
    responds_countSent)).comp responds_setHeadersSent
  rfl

theorem responds_sendRest : Responds i 0 m (m.sendRest i rest).1 := by
  obtain ⟨hle, hg⟩ := reserveSendWindow_bytes
  simp only [sendRest]
  split_ifs with hp
  · exact hg.settle (responds_sendTake hle)
  · rwa [Nat.eq_zero_of_not_pos hp] at hg

theorem responds_writeHeader {declared : Int} :
    Responds i 0 m (m.writeHeader i status declared) := by
  unfold writeHeader
  split_ifs
  · exact .refl
  · refine .comp (.comp (responds_enqueue (forall_mem_singleton.mpr ?_))
      (responds_modify rfl rfl id rfl)) responds_setHeadersSent
    rfl

/-! ## Resets -/

theorem responds_queueReset : Responds i 0 m (m.queueReset i code) := by
  refine .comp (responds_enqueue (forall_mem_singleton.mpr ?_)) responds_cancel
  rfl

theorem responds_resetStreamOnce : Responds i 0 m (m.resetStreamOnce i code) := by
  unfold resetStreamOnce
  split_ifs
  · exact .refl
  · exact responds_queueReset

theorem responds_resetHandlerStream : Responds i 0 m (m.resetHandlerStream i) :=
  responds_discardOutbound.comp responds_queueReset

/-! ## Handlers -/

theorem responds_getD {o : Option Manager} (h : ∀ {t}, o = some t → Responds i 0 m t) :
    Responds i 0 m (o.getD m) := by
  cases o with
  | none => exact .refl
  | some t => exact h rfl

theorem responds_callInline : Responds i 0 m (callInline i m c) := by
  cases c with
  | writeResponse status body => exact responds_writeResponseInline status body
  | writeHeader status declared => exact responds_writeHeader
  | write data =>
    refine responds_getD fun {t} h => ?_
    obtain ⟨⟨u, rest⟩, hw, rfl⟩ := Option.map_eq_some_iff.mp h
    exact responds_streamWrite hw
  | close => exact responds_getD responds_endOutbound
  | failResponse => exact responds_failResponse

theorem responds_calls (calls : List Call) : Responds i 0 m (calls.foldl (callInline i) m) := by
  induction calls generalizing m with
  | nil => exact .refl
  | cons c calls ih => exact responds_callInline.comp ih

theorem responds_settleStreamed : Responds i 0 m (m.settleStreamed i).2 := by
  simp only [settleStreamed]
  split_ifs
  · exact .refl
  · split
    · exact responds_getD responds_endOutbound
    all_goals exact .refl

theorem responds_settleInline : Responds i 0 m (m.settleInline i) := by
  unfold settleInline
  split_ifs
  · exact responds_resetHandlerStream
  · exact .refl

theorem responds_callPool : Responds i 0 m (m.callPool i c).1 := by
  cases c with
  | writeResponse status body => exact responds_writeResponse
  | writeHeader status declared => exact responds_writeHeader
  | write data =>
    simp only [callPool]
    split
    · exact .refl
    · exact responds_streamWrite ‹_›
  | close => exact responds_getD responds_endOutbound
  | failResponse => exact responds_failResponse

theorem responds_finishPool {ending : Ending} : Responds i 0 m (m.finishPool i ending).1 := by
  cases ending with
  | returned =>
    simp only [finishPool]
    split_ifs
    · exact responds_writeResponse
    all_goals exact .refl
  | error | panicked | goexit => exact .refl

end Sends

end Manager

end Celeris.H2
