import Celeris.H2.Headers
import Mathlib.Algebra.BigOperators.Group.Finset.Piecewise

/-!
# Frames are chains of changes

The definitions of `H2.Processor` from `handleData` to `processFrame` are chains of
changes, as those of `H2.Headers` are.

The `SETTINGS` frames first change the windows of all streams together; `Resizes` is
that part of them.
-/

namespace Celeris.H2

open List hiding range
open Manager hiding Responds

/-! ## DATA -/

namespace Manager

variable {m u : Manager} {n : Nat}

/-- The increments a flush sends. -/
theorem increments_flushWindowUpdates (force : Bool) (hp : ∀ x ∈ u.pendingStreamUpdates, x.1 ≠ 0) :
    (u.flushWindowUpdates force).increments.Perm (u.increments ++
      if dueUpdate force u.pendingConnWindowUpdate then [u.pendingConnWindowUpdate] else []) := by
  have hs : ((u.pendingStreamUpdates.filter fun x => dueUpdate force x.2).map
      fun x => Output.windowUpdate x.1 x.2).filterMap Output.connIncrement = [] := by
    refine filterMap_eq_nil_iff.mpr fun o ho => ?_
    obtain ⟨⟨id, amount⟩, hx, rfl⟩ := mem_map.mp ho
    obtain ⟨id, rfl⟩ := Nat.exists_eq_succ_of_ne_zero (hp _ (mem_of_mem_filter hx))
    rfl
  simp only [increments, sent, flushWindowUpdates, filterMap_append, hs, append_assoc]
  refine List.Perm.append_left _ (List.Perm.append_left _ ?_)
  refine perm_append_comm.trans (List.Perm.append_left _ ?_)
  split_ifs <;> exact .refl _

variable {force : Bool}

theorem writes_flushWindowUpdates : Writes Output.IsCredit u (u.flushWindowUpdates force) := by
  refine ⟨rfl, ⟨_, append_assoc _ _ _,
    forall_mem_append.mpr ⟨?_, forall_mem_map.mpr fun _ _ => trivial⟩⟩,
    [], (append_nil _).symm, nofun⟩
  split_ifs
  · exact forall_mem_singleton.mpr trivial
  · exact nofun

/-- Credit that was added is sent when it is due. -/
theorem credits_flush (hc : { u.core with pendingConnWindowUpdate := 0 } =
      { m.core with pendingConnWindowUpdate := 0 }) (hs : u.stream = m.stream)
    (hi : u.increments = m.increments)
    (hp : (∀ x ∈ m.pendingStreamUpdates, x.1 ≠ 0) → ∀ x ∈ u.pendingStreamUpdates, x.1 ≠ 0)
    (hsum : m.pendingConnWindowUpdate < windowUpdateThreshold →
      u.pendingConnWindowUpdate = m.pendingConnWindowUpdate + n)
        (hh : u.outboundHeld = m.outboundHeld)
    (hw : Writes Output.IsCredit m u) (hn : n < 2 ^ 24) :
    Credits n m (u.flushWindowUpdates force) where
  core := hc
  stream := hs
  pending h x hx := hp h x (mem_of_mem_filter hx)
  gives h hsm := by
    have hf := increments_flushWindowUpdates force (hp h)
    have hsum := hsum hsm
    have hl : (u.flushWindowUpdates force).pendingConnWindowUpdate =
      if dueUpdate force u.pendingConnWindowUpdate then 0 else u.pendingConnWindowUpdate := rfl
    rw [hi] at hf
    unfold windowUpdateThreshold at hsm
    cases hdue : dueUpdate force u.pendingConnWindowUpdate with
    | true =>
      rw [hdue, if_pos rfl] at hf hl
      simp only [dueUpdate, Bool.and_eq_true, decide_eq_true_eq] at hdue
      refine ⟨by rw [hl]; decide, _, hf, ?_, fun x hx => ?_⟩
      · rw [hl, sum_singleton, hsum, Nat.add_zero]
      · rw [mem_singleton.mp hx]
        unfold maxWindow
        omega
    | false =>
      rw [hdue, if_neg Bool.false_ne_true] at hf hl
      simp only [dueUpdate, Bool.and_eq_false_iff, Bool.or_eq_false_iff,
        decide_eq_false_iff_not] at hdue
      refine ⟨by unfold windowUpdateThreshold at hdue ⊢; omega, _, hf, ?_,
        fun x hx => absurd hx not_mem_nil⟩
      rw [hl, sum_nil, hsum, Nat.zero_add]
  held := hh
  writes := hw.trans writes_flushWindowUpdates

theorem credits_flushOnly : Credits 0 m (m.flushWindowUpdates force) :=
  credits_flush rfl rfl rfl id (fun _ => rfl) rfl .refl (by omega)

/-- Credit for the connection only. -/
theorem credits_conn (hn : n < 2 ^ 24) :
    Credits n m ((m.accumulateWindowUpdate 0 n).flushWindowUpdates force) := by
  refine credits_flush (m := m) (u := m.accumulateWindowUpdate 0 n) rfl rfl rfl id
    (fun hs => ?_) rfl (.of_eq rfl rfl rfl) hn
  unfold windowUpdateThreshold at hs
  exact Nat.mod_eq_of_lt (by omega)

/-- Credit for a stream and the connection. -/
theorem credits_stream {i : Nat} (hi : i ≠ 0) (hn : n < 2 ^ 24) (force : Bool) :
    Credits n m (((m.accumulateWindowUpdate i n).accumulateWindowUpdate 0 n).flushWindowUpdates
      force) := by
  have hs : m.accumulateWindowUpdate i n = { m.dropPending i with
      pendingStreamUpdates := (i, ((m.pendingStreamUpdates.lookup i).getD 0 + n) % 2 ^ 32) ::
        (m.dropPending i).pendingStreamUpdates } := if_neg hi
  refine credits_flush (m := m) (u := (m.accumulateWindowUpdate i n).accumulateWindowUpdate 0 n) ?_
    ?_ ?_ (fun h x hx => ?_) (fun hsm => ?_) ?_ ?_ hn
  all_goals rw [hs] at *
  · rfl
  · rfl
  · rfl
  · rcases mem_cons.mp hx with rfl | hx
    · exact hi
    · exact h x (mem_of_mem_filter hx)
  · unfold windowUpdateThreshold at hsm
    exact Nat.mod_eq_of_lt (by simp only [dropPending]; omega)
  · rfl
  · exact .of_eq rfl rfl rfl

end Manager

namespace Processor

section

variable {T : Scope} {p q : Processor} {i : Nat} {f : DataFrame}

variable {env : Env}

theorem countEmptyData_none (h : p.countEmptyData env f = (q, none)) :
    ∃ refusals, q = { p with refusals := refusals } := by
  unfold countEmptyData at h
  split_ifs at h
  · exact ⟨_, countRefusal_none h⟩
  · cases h
    exact ⟨p.refusals, rfl⟩

theorem yields_countEmptyData : Yields T 0 p (p.countEmptyData env f) := by
  unfold countEmptyData
  split_ifs
  · exact yields_countRefusal
  · exact .of_changes (.refl p)

theorem changes_creditConn : Changes T f.length p (p.creditConn f) :=
  .single (.credit (credits_conn f.length_lt))

theorem yields_ignoreData : Yields T f.length p (p.ignoreData env f) := by
  unfold ignoreData
  dsimp only
  split
  · refine yields_countEmptyData.andThen fun {q} _ => .of_changes ?_
    have hc : Changes T f.length q (if f.length > 0 then q.creditConn f else q) := by
      split_ifs with hl
      · exact changes_creditConn
      · rw [Nat.eq_zero_of_not_pos hl]
        exact .refl q
    generalize (if f.length > 0 then q.creditConn f else q) = r at hc ⊢
    split_ifs
    · exact hc.andThen changes_forget
    · exact hc
  · exact yields_goAwayErr _ _ _

theorem Requesting.refusals (h : Requesting p i) {refusals : Refusals} :
    Requesting { p with refusals := refusals } i := ⟨h.mem, h.opened⟩

theorem changes_addData (h : Requesting p f.streamID) : Changes T 0 p (p.addData f) := by
  have hr := Transition.Chain.single (Change.request (T := T) h.mem h.opened [] f.data)
  simpa [addData, manage] using hr

theorem Requesting.addData (h : Requesting p f.streamID) : Requesting (p.addData f) f.streamID := by
  refine ⟨h.mem, ?_⟩
  unfold Processor.addData manage
  rw [modify_stream_self]
  exact h.opened

/-- The credit for a frame, sent when it is due. -/
theorem changes_creditData (hid : f.streamID ≠ 0) (force : Bool) :
    Changes T f.length p ((p.creditData f).manage (·.flushWindowUpdates force)) := by
  unfold creditData
  split_ifs with hl
  · exact .single (.credit (credits_stream hid f.length_lt force))
  · rw [Nat.eq_zero_of_not_pos hl]
    exact .single (.credit credits_flushOnly)

theorem Requesting.creditData (h : Requesting p f.streamID) (hid : f.streamID ≠ 0) {force : Bool} :
    Requesting ((p.creditData f).manage (·.flushWindowUpdates force)) f.streamID := by
  unfold Processor.creditData
  split_ifs with hl
  · have hc := credits_stream (m := p.manager) hid f.length_lt force
    refine ⟨(congrArg (f.streamID ∈ ids ·) hc.core).mpr h.mem, ?_⟩
    exact (congrArg (fun s : Nat → Stream => (s f.streamID).state.requesting) hc.stream).trans
      h.opened
  · exact ⟨h.mem, h.opened⟩

theorem Inv.ne_zero (hi : Inv T p) (h : i ∈ p.manager.ids) : i ≠ 0 := by
  have ho := (hi.valid.streams h).odd
  omega

/-- The state in which a request ends with its data: the credit is sent whatever it is. -/
theorem changes_takeEnd (hi : Inv T p) (h : Requesting p f.streamID) :
    let taken := (((p.addData f).creditData f).manage (·.flushWindowUpdates true)).disarmRequest
      f.streamID
    Changes T f.length p taken ∧ Requesting taken f.streamID := by
  have hid := hi.ne_zero h.mem
  have hc := (changes_addData (T := T) h).before (changes_creditData (p := p.addData f) hid true)
  refine ⟨hc.andThen (changes_quiet responds_disarmRequest (quiet_disarmRequest _ f.streamID)), ?_⟩
  exact (h.addData.creditData hid).respond responds_disarmRequest

theorem yields_takeData (hi : Inv T p) (h : Requesting p f.streamID)
    (he : f.endStream = true → T.ends f.streamID) : Yields T f.length p (p.takeData env f) := by
  have ha : Changes T 0 p (p.addData f) := changes_addData h
  unfold takeData
  dsimp only
  split_ifs with hla hend hl
  · exact (yields_refuse h.mem h.ne_idle).andThen fun _ => .of_changes changes_creditConn
  · obtain ⟨hc, ho⟩ := changes_takeEnd hi h
    exact .before hc (yields_runChecked (hi.changes hc) ho (he hend))
  · exact .of_changes (ha.before (changes_creditData (hi.ne_zero h.mem) false))
  · have hn : (p.addData f).creditData f = p.addData f := if_neg hl
    rw [hn, Nat.eq_zero_of_not_pos hl]
    exact .of_changes ha

theorem requesting_of_validateDataState {state : State} (h : validateDataState state = none) :
    state.requesting = true := by
  cases state with
  | opened | halfClosedLocal => rfl
  | idle | halfClosedRemote | closed => cases h

theorem yields_handleData (hi : Inv T p)
    (he : f.endStream = true → T.ends f.streamID) : Yields T f.length p (p.handleData env f) := by
  unfold handleData
  dsimp only
  split_ifs with hm hcl
  · exact .of_error changes_rstStream
  · cases hv : validateDataState (p.manager.stream f.streamID).state with
    | some text => exact .of_error changes_sendRSTStreamAndMarkClosed
    | none =>
      have ho : Requesting p f.streamID := ⟨hm, requesting_of_validateDataState hv⟩
      refine yields_countEmptyData.andThen fun hc => ?_
      have hq := hi.yields yields_countEmptyData hc
      obtain ⟨refusals, rfl⟩ := countEmptyData_none hc
      exact yields_takeData hq ho.refusals he
  · exact yields_ignoreData

/-! ## Flow control -/

/-- A stream whose response has gone out whole leaves. -/
theorem changes_finishFlushed (hi : i ∈ p.manager.ids) (hse : p.Served i) :
    Changes T 0 p (p.manage (finishFlushed · i (p.manager.stream i).state)) := by
  unfold finishFlushed
  split_ifs with hs
  · have hset : Changes T 0 p (p.manage (·.setState i (p.manager.stream i).state.ended)) := by
      refine .single (.setState hi ?_ (.inr rfl))
      rcases hs with hs | hs <;> rw [hs] <;> nofun
    exact hset.andThen (changes_deleteStream hse)
  · exact changes_deleteStream hse

/-- A flush that ends a response has sent something. -/
theorem flushOutbound_finished {m : Manager} (h : (m.flushOutbound i).1 = true) :
    (m.stream i).outboundBuffer ≠ [] := by
  intro he
  have hn : m.flushOutbound i = (false, m) := if_pos he
  rw [hn] at h
  cases h

theorem quiet_flushOutbound {m : Manager} : Manager.Quiet i m (m.flushOutbound i).2 := by
  obtain ⟨window, buffer, sent, hs, hb⟩ := flushOutbound_stream
  refine ⟨?_, ?_, ?_⟩
  all_goals rw [hs]
  · exact hb
  · exact .inl

theorem changes_flushStream (hinv : Inv T p) (hi : i ∈ p.manager.ids) :
    Changes T 0 p (p.manage (flushStream · i)) := by
  have hr : Manager.Responds i 0 p.manager (p.manager.flushOutbound i).2 := responds_flushOutbound
  have hf : Changes T 0 p { p with manager := (p.manager.flushOutbound i).2 } :=
    changes_quiet hr quiet_flushOutbound
  unfold flushStream manage
  dsimp only
  split_ifs with hfi
  · refine hf.andThen ?_
    rw [← hr.state i]
    exact changes_finishFlushed (p := { p with manager := (p.manager.flushOutbound i).2 })
      (hr.ids ▸ hi) ((hinv.answers.streams hi).buffered (flushOutbound_finished hfi))
  · exact hf

end

end Processor

namespace Manager

variable {m : Manager} {i j : Nat}

theorem mem_take (hj : j ≠ i) : j ∈ (m.take i).ids ↔ j ∈ m.ids := by
  unfold take
  split_ifs
  all_goals exact mem_erase_of_ne hj

theorem mem_deleteStream (hj : j ≠ i) : j ∈ (m.deleteStream i).ids ↔ j ∈ m.ids := by
  unfold deleteStream
  split_ifs
  · exact mem_take hj
  · exact Iff.rfl

end Manager

namespace Processor

section

variable {T : Scope} {p q : Processor} {i : Nat} {m : Manager} {increment : Nat}

variable {j id : Nat} {l : List Nat} {env : Env}

theorem mem_finishFlushed {state : State} (hj : j ≠ i) :
    j ∈ (finishFlushed m i state).ids ↔ j ∈ m.ids := by
  unfold finishFlushed
  rw [mem_deleteStream hj]
  split_ifs
  all_goals exact Iff.rfl

theorem mem_flushStream (hj : j ≠ i) : j ∈ (flushStream m i).ids ↔ j ∈ m.ids := by
  have hr : Manager.Responds i 0 m (m.flushOutbound i).2 := responds_flushOutbound
  unfold flushStream
  dsimp only
  split_ifs
  · rw [mem_finishFlushed hj, hr.ids]
  · rw [hr.ids]

theorem changes_flushStalled (hn : l.Nodup) (hinv : Inv T p) (hl : ∀ i ∈ l, i ∈ p.manager.ids) :
    Changes T 0 p (p.manage (flushStalled l)) := by
  induction l generalizing p with
  | nil => exact .refl p
  | cons i l ih =>
    obtain ⟨hi, hl⟩ := forall_mem_cons.mp hl
    obtain ⟨hnot, hn⟩ := nodup_cons.mp hn
    unfold manage flushStalled
    split_ifs
    · exact .refl p
    · exact ih hn hinv hl
    · have hr := changes_flushStream hinv hi
      refine hr.andThen (ih hn (hinv.changes hr) fun j hj => ?_)
      exact (mem_flushStream (ne_of_mem_of_not_mem hj hnot)).mpr (hl j hj)

/-- The range over the map is over its keys, each once. -/
theorem nodup_range (order : List Nat) (h : m.ids.Nodup) : (m.range order).Nodup := by
  unfold range
  split_ifs with hp
  · exact (isPerm_iff.mp hp).nodup_iff.mpr h
  · exact h

theorem mem_range (order : List Nat) (i : Nat) : i ∈ m.range order ↔ i ∈ m.ids := by
  unfold range
  split_ifs with hp
  · exact (isPerm_iff.mp hp).mem_iff
  · exact Iff.rfl

theorem yields_updateConnWindow (hinv : Inv T p) :
    Yields T 0 p (p.updateConnWindow env increment) := by
  unfold updateConnWindow
  dsimp only
  split_ifs
  · exact yields_goAwayErr _ _ _
  · have hw : Changes T 0 p (p.manage fun m =>
        { m with connectionWindow := int32 (p.manager.connectionWindow + increment) }) :=
      changes_quiet (i := 0) (responds_books rfl rfl (Subset.refl _) rfl (.of_eq rfl rfl rfl))
        (.of_eq rfl)
    have hn := nodup_range (env.order 0) hinv.valid.nodup
    refine .of_changes (hw.andThen (changes_flushStalled (hn.filter _) (hinv.changes hw) ?_))
    exact fun i hi => (mem_range _ i).mp (mem_of_mem_filter hi)

theorem yields_updateStreamWindow (hi : Inv T p) :
    Yields T 0 p (p.updateStreamWindow id increment) := by
  unfold updateStreamWindow
  dsimp only
  split_ifs with hm hc hmax
  · exact .of_changes (.refl p)
  · exact .of_error changes_sendRSTStreamAndMarkClosed
  · have hw := Transition.Chain.single (Change.window (T := T) (Int.not_lt.mp hmax))
    exact .of_changes (hw.andThen (changes_flushStream (hi.changes hw) hm))
  · exact .of_changes (.refl p)
  · exact yields_goAwayErr _ _ _

theorem yields_handleWindowUpdate (hi : Inv T p) :
    Yields T 0 p (p.handleWindowUpdate env id increment) := by
  unfold handleWindowUpdate
  split_ifs
  · exact yields_goAwayErr _ _ _
  · exact .of_error changes_sendRSTStreamAndMarkClosed
  · exact yields_updateConnWindow hi
  · exact yields_updateStreamWindow hi

/-! ## Loops -/

/-- A loop, where every round keeps what the later ones need. -/
theorem changes_loop (ok : Processor → Nat → Prop) (R : Nat → Nat → Prop)
    {body : Manager → Nat → Manager}
    (hb : ∀ {p i}, Inv T p → ok p i → Changes T 0 p (p.manage (body · i)))
    (hok : ∀ {p i j}, R i j → ok p j → ok (p.manage (body · i)) j) (hp : l.Pairwise R)
    (hinv : Inv T p) (hl : ∀ i ∈ l, ok p i) : Changes T 0 p (p.manage fun m => l.foldl body m) := by
  induction l generalizing p with
  | nil => exact .refl p
  | cons i l ih =>
    obtain ⟨hi, hl⟩ := forall_mem_cons.mp hl
    obtain ⟨hrel, hp⟩ := pairwise_cons.mp hp
    have hr := hb hinv hi
    exact hr.andThen (ih hp (hinv.changes hr) fun j hj => hok (hrel j hj) (hl j hj))

theorem changes_finishFlushes {finished : List Nat} (hinv : Inv T p)
    (hs : ∀ i ∈ finished, p.Served i) : Changes T 0 p (p.manage (finishFlushes finished)) := by
  refine changes_loop (fun p i => p.Served i) (fun _ _ => True) (fun {p i} _ hs => ?_)
    (fun _ hs => hs) (pairwise_of_forall fun _ _ => trivial) hinv hs
  unfold manage
  dsimp only
  split_ifs with hi
  · exact changes_finishFlushed hi hs
  · exact .refl p

end

end Processor

/-! ## SETTINGS -/

namespace Manager

def buffered (m : Manager) (s : Finset Nat) : Int :=
  ∑ i ∈ s, ((m.stream i).outboundBuffer.length : Int)

/-- One stream changes what it buffers, and the budget with it. -/
theorem buffered_stream {m t : Manager} {i : Nat} {s : Finset Nat}
    (ho : ∀ {j}, j ≠ i → (t.stream j).outboundBuffer = (m.stream j).outboundBuffer)
    (hh : t.outboundHeld - (t.stream i).outboundBuffer.length =
      m.outboundHeld - (m.stream i).outboundBuffer.length) (hi : i ∈ s) :
    t.outboundHeld - t.buffered s = m.outboundHeld - m.buffered s := by
  have hr : ∑ j ∈ s.erase i, ((t.stream j).outboundBuffer.length : Int) =
      ∑ j ∈ s.erase i, ((m.stream j).outboundBuffer.length : Int) :=
    Finset.sum_congr rfl fun j hj => by rw [ho (Finset.ne_of_mem_erase hj)]
  unfold buffered
  rw [← Finset.add_sum_erase s _ hi, ← Finset.add_sum_erase s _ hi, hr]
  omega

/-- The initial window size and the windows of the streams change, and responses go on. -/
structure Resizes (m t : Manager) : Prop where
  core : t.core = { m.core with initialWindowSize := t.initialWindowSize }
  stream : ∀ j, (t.stream j).core = (m.stream j).core
  initial : ∀ j, (t.stream j).receivedInitialHeaders = (m.stream j).receivedInitialHeaders
  quiet : ∀ j, Quiet j m t
  others : ∀ {j}, j ∉ m.ids → t.stream j = m.stream j
  pending : t.pendingStreamUpdates ⊆ m.pendingStreamUpdates
  held : ∀ {s}, (∀ i ∈ m.ids, i ∈ s) → t.outboundHeld - t.buffered s = m.outboundHeld - m.buffered s
  writes : Writes (fun o => ∃ i, o.OfStream i) m t

namespace Resizes

variable {m t u : Manager} {i : Nat}

theorem ids (h : Resizes m t) : t.ids = m.ids := (congrArg Manager.ids h.core :)

theorem lastClientStream (h : Resizes m t) : t.lastClientStream = m.lastClientStream :=
  (congrArg Manager.lastClientStream h.core :)

theorem state (h : Resizes m t) {j : Nat} : (t.stream j).state = (m.stream j).state :=
  Stream.state_of_core (h.stream j)

/-- No stream changes. -/
theorem of_stream (hc : t.core = { m.core with initialWindowSize := t.initialWindowSize })
    (hs : t.stream = m.stream) (hp : t.pendingStreamUpdates ⊆ m.pendingStreamUpdates)
    (hh : t.outboundHeld = m.outboundHeld) (hw : Writes (fun o => ∃ i, o.OfStream i) m t) :
    Resizes m t where
  core := hc
  stream j := by rw [hs]
  initial j := by rw [hs]
  quiet j := .of_eq (congrFun hs j)
  others _ := congrFun hs _
  pending := hp
  held _ := by rw [hh, buffered, hs, buffered]
  writes := hw

theorem refl (m : Manager) : Resizes m m := of_stream rfl rfl (Subset.refl _) rfl .refl

theorem trans (h : Resizes m t) (h' : Resizes t u) : Resizes m u where
  core := by rw [h'.core, h.core]
  stream j := (h'.stream j).trans (h.stream j)
  initial j := (h'.initial j).trans (h.initial j)
  quiet j := by
    refine ⟨fun hu => (h.quiet j).buffer ((h'.quiet j).buffer hu),
      (h'.quiet j).cancelled.trans (h.quiet j).cancelled, fun hu => ?_⟩
    exact ((h'.quiet j).armed hu).elim (h.quiet j).armed fun hst => .inr (h.state ▸ hst)
  others hj := (h'.others (by rwa [h.ids])).trans (h.others hj)
  pending := List.Subset.trans h'.pending h.pending
  held hs := (h'.held (by rwa [h.ids])).trans (h.held hs)
  writes := h.writes.trans h'.writes

/-- The windows of one stream change, and what it buffers is flushed. -/
theorem of_modify {window base sent : Int} {buffer : Bytes} (hi : i ∈ m.ids) (hc : t.core = m.core)
    (hp : t.pendingStreamUpdates ⊆ m.pendingStreamUpdates)
    (ho : ∀ {j}, j ≠ i → t.stream j = m.stream j)
    (hst : t.stream i = { m.stream i with
      windowSize := window, base := base, outboundBuffer := buffer, dataSent := sent })
    (hb : buffer ≠ [] → (m.stream i).outboundBuffer ≠ [])
    (hh : t.outboundHeld - (t.stream i).outboundBuffer.length =
      m.outboundHeld - (m.stream i).outboundBuffer.length)
    (hw : Writes (fun o => ∃ i, o.OfStream i) m t) : Resizes m t where
  core := by
    have hin : t.initialWindowSize = m.initialWindowSize := (congrArg initialWindowSize hc :)
    rw [hc, hin]
    rfl
  stream j := by
    by_cases hj : j = i
    · rw [hj, hst]
      rfl
    · rw [ho hj]
  initial j := by
    by_cases hj : j = i
    · rw [hj, hst]
    · rw [ho hj]
  quiet j := by
    by_cases hj : j = i
    · refine ⟨?_, ?_, ?_⟩
      all_goals rw [hj, hst]
      · exact hb
      · exact .inl
    · exact .of_eq (ho hj)
  others hj := ho (fun hji => hj (hji ▸ hi))
  pending := hp
  held hs := buffered_stream (fun hj => by rw [ho hj]) hh (hs i hi)
  writes := hw

theorem of_flush (hi : i ∈ m.ids) : Resizes m (m.flushOutbound i).2 := by
  obtain ⟨window, buffer, sent, hs, hb⟩ := flushOutbound_stream
  have hr : Responds i 0 m (m.flushOutbound i).2 := responds_flushOutbound
  have hbase : (m.flushOutbound i).2.stream i = { m.stream i with
      windowSize := window, base := (m.stream i).base, outboundBuffer := buffer, dataSent :=
        sent } := hs
  exact of_modify hi hr.core hr.pending hr.others hbase hb hr.held
    (hr.writes.mono fun _ ho => ⟨i, ho⟩)

end Resizes

end Manager

namespace Processor

theorem resizes_adjustWindows (delta : Int) {l : List Nat} {m : Manager} (hl : ∀ i ∈ l, i ∈ m.ids)
    (finished : List Nat) : Manager.Resizes m (adjustWindows delta l (m, finished)).1.1 ∧
      ∀ id ∈ (adjustWindows delta l (m, finished)).1.2,
        id ∈ finished ∨ id ∈ m.ids ∧ (m.stream id).outboundBuffer ≠ [] := by
  induction l generalizing m finished with
  | nil => exact ⟨.refl m, fun id hid => .inl hid⟩
  | cons i l ih =>
    obtain ⟨hi, hl⟩ := forall_mem_cons.mp hl
    unfold adjustWindows
    dsimp only
    split
    · exact ⟨.refl m, fun id hid => .inl hid⟩
    · generalize hnew : int32 ((m.stream i).windowSize + delta) = new
      have hs := modify_stream_self m i
        fun s => { s with windowSize := new, base := s.base + delta }
      have hw : Manager.Resizes m (m.modify i fun s =>
          { s with windowSize := new, base := s.base + delta }) :=
        .of_modify hi rfl (Subset.refl _) (fun hj => modify_stream_ne m _ hj) hs id
          (by rw [hs]; rfl) (.of_eq rfl rfl rfl)
      generalize (m.modify i fun s => { s with windowSize := new, base := s.base + delta }) =
        t at hs hw ⊢
      have hl : ∀ j ∈ l, j ∈ t.ids := fun j hj => hw.ids ▸ hl j hj
      split
      · have hfl : Manager.Resizes t (t.flushOutbound i).2 := .of_flush (hw.ids ▸ hi)
        obtain ⟨hr, hf⟩ := ih (m := (t.flushOutbound i).2) (fun j hj => hfl.ids ▸ hl j hj)
          (if (t.flushOutbound i).1 then finished ++ [i] else finished)
        refine ⟨(hw.trans hfl).trans hr, fun id hid => ?_⟩
        rcases hf id hid with hid | ⟨hmem, hb⟩
        · split_ifs at hid with hd
          · rcases mem_append.mp hid with hid | hid
            · exact .inl hid
            · cases mem_singleton.mp hid
              have hb := flushOutbound_finished hd
              rw [hs] at hb
              exact .inr ⟨hi, hb⟩
          · exact .inl hid
        · have hboth := hw.trans hfl
          exact .inr ⟨hboth.ids ▸ hmem, (hboth.quiet id).buffer hb⟩
      · obtain ⟨hr, hf⟩ := ih (m := t) hl finished
        refine ⟨hw.trans hr, fun id hid => (hf id hid).imp_right ?_⟩
        exact fun ⟨hmem, hb⟩ => ⟨hw.ids ▸ hmem, (hw.quiet id).buffer hb⟩

theorem outBuf_reserveSendWindow (m : Manager) (i : Nat) (want : Int) :
    (m.reserveSendWindow i want).2.outBuf = m.outBuf := by
  by_cases hn : want ≤ 0 ∨ (m.stream i).windowSize ≤ 0
  · rw [show m.reserveSendWindow i want = (0, m) from if_pos hn]
  · simp only [reserveSendWindow, if_neg hn]
    rfl

theorem outBuf_flushOutbound {m : Manager} {i : Nat} : (m.flushOutbound i).2.outBuf = m.outBuf := by
  unfold flushOutbound
  have hr := outBuf_reserveSendWindow m i (clampWindowRequest (m.stream i).outboundBuffer.length)
  dsimp only
  split_ifs
  · rfl
  · exact hr
  · exact hr

/-- What a stream and a flush leave, the range over the streams leaves. -/
theorem adjustWindows_eq {α : Type} {f : Manager → α} (hm : ∀ m i s, f (m.setStream i s) = f m)
    (hf : ∀ m i, f (flushOutbound m i).2 = f m) (delta : Int) (l : List Nat) (m : Manager)
    (finished : List Nat) : f (adjustWindows delta l (m, finished)).1.1 = f m := by
  induction l generalizing m finished with
  | nil => rfl
  | cons i l ih =>
    unfold adjustWindows
    dsimp only
    split
    · rfl
    · split
      · rw [ih, hf, Manager.modify, hm]
      · rw [ih, Manager.modify, hm]

/-- A `SETTINGS` frame changes windows. -/
structure Resizes (p q : Processor) : Prop where
  manager : Manager.Resizes p.manager q.manager
  rest : q = { p with manager := q.manager, hasMoreFrames := q.hasMoreFrames }

section

variable {T : Scope} {p q : Processor}

theorem Resizes.refl (p : Processor) : Resizes p p := ⟨.refl _, rfl⟩

theorem Resizes.pool (h : Resizes p q) : q.pool = p.pool := by rw [h.rest]

theorem Resizes.cleanup (h : Resizes p q) :
    q.pendingInlineCleanup = p.pendingInlineCleanup := by rw [h.rest]

theorem Resizes.served (h : Resizes p q) : q.served = p.served := by rw [h.rest]

theorem Resizes.received (h : Resizes p q) : q.received = p.received := by rw [h.rest]

variable {i id : Nat} {x : SettingsPass} {m : Manager}

theorem Resizes.isServed (h : Resizes p q) : q.Served i ↔ p.Served i := by
  unfold Served
  rw [h.served]

theorem Inv.resizes (h : Inv T p) (hr : Resizes p q) : Inv T q := by
  have hm := hr.manager
  refine ⟨?_, fun u hu => h.pending u (hm.pending hu), ?_⟩
  · rw [hr.pool, hr.cleanup]
    exact h.valid.of_core hm.ids hm.stream hm.lastClientStream.ge
  · refine ⟨fun {i} hse => ?_, fun hmem => ?_, fun hi => ?_, fun {i} hi => ?_⟩
    · rw [hm.lastClientStream, hm.ids, Stream.endStream_of_core (hm.stream i)]
      exact h.answers.used (hr.isServed.mp hse)
    · rw [hr.isServed]
      exact h.answers.handlers (hr.pool ▸ hmem)
    · rw [hr.isServed]
      exact h.answers.cleanups (hr.cleanup ▸ hi)
    · have hs := h.answers.streams (hm.ids ▸ hi)
      have hq := hm.quiet i
      refine ⟨fun hb => ?_, fun ho => ?_, fun ha => ?_⟩
      · exact hr.isServed.mpr (hs.buffered (hq.buffer hb))
      · rw [hq.cancelled]
        exact hs.alive ((Stream.endStream_of_core (hm.stream i)).symm.trans ho)
      · rw [hm.state]
        exact (hq.armed ha).elim hs.armed (·)

/-- The processor of a pass, but for a `GOAWAY`. -/
def SettingsPass.windows (x : SettingsPass) (p : Processor) : Processor :=
  { p with manager := { x.processor.manager with outBuf := p.manager.outBuf } }

/-- The entries of a `SETTINGS` frame change windows, and may end in a `GOAWAY`. -/
structure Applies (p : Processor) (x : SettingsPass) : Prop where
  resizes : Manager.Resizes p.manager (x.windows p).manager
  goAway : x.processor = x.windows p ∨ x.err.isSome = true ∧ ∃ text,
    x.processor = (x.windows p).sendGoAway (x.windows p).manager.maxStreamID .flowControlError text
  finished : ∀ id ∈ x.finished, id ∈ p.manager.ids ∧ (p.manager.stream id).outboundBuffer ≠ []

section

variable (h : Applies p x) (hx : x.processor = x.windows p)

include h hx

/-- The windows of a pass that has not failed are changed. -/
theorem Applies.extend {y : SettingsPass}
    (hr : Manager.Resizes x.processor.manager m) (ho : m.outBuf = x.processor.manager.outBuf)
    (hy : y.processor = { x.processor with manager := m } ∨ y.err.isSome = true ∧ ∃ text,
      y.processor = { x.processor with manager := m }.sendGoAway m.maxStreamID .flowControlError
        text)
    (hf : ∀ id ∈ y.finished, id ∈ x.finished ∨
      id ∈ x.processor.manager.ids ∧ (x.processor.manager.stream id).outboundBuffer ≠ []) :
        Applies p y := by
  have hm : x.processor.manager = (x.windows p).manager := congrArg manager hx
  have hw : y.windows p = { p with manager := m } := by
    have ho : m.outBuf = p.manager.outBuf := ho.trans (congrArg outBuf hm :)
    unfold SettingsPass.windows
    rcases hy with hy | ⟨-, text, hy⟩
    · rw [hy, ← ho]
    · rw [hy, ← ho]
      rfl
  have hs : { x.processor with manager := m } = { p with manager := m } := by
    rw [hx]
    rfl
  refine ⟨?_, ?_, fun id hid => ?_⟩
  · rw [hw]
    exact h.resizes.trans (hm ▸ hr)
  · rwa [hw, ← hs]
  · refine (hf id hid).elim (h.finished id) fun ⟨hmem, hb⟩ => ?_
    exact ⟨h.resizes.ids ▸ hmem, (h.resizes.quiet id).buffer hb⟩

theorem applies_applyInitialWindowSize
    {val : Nat} {order : List Nat} : Applies p (applyInitialWindowSize x val order) := by
  unfold applyInitialWindowSize
  dsimp only
  split_ifs
  · exact h.extend hx (.refl _) rfl (.inr ⟨rfl, _, rfl⟩) fun id hid => .inl hid
  · have hin : Manager.Resizes x.processor.manager
        { x.processor.manager with initialWindowSize := val } :=
      .of_stream rfl rfl (Subset.refl _) rfl (.of_eq rfl rfl rfl)
    obtain ⟨ha, hf⟩ := resizes_adjustWindows (int32 (val - x.processor.manager.initialWindowSize))
      (fun i hi => (mem_range order i).mp hi) x.finished
    have hb := hin.trans ha
    have ho := adjustWindows_eq (f := outBuf) (fun _ _ _ => rfl) fun _ _ => outBuf_flushOutbound
    split
    · exact h.extend hx hb (ho ..) (.inr ⟨rfl, _, rfl⟩) hf
    · exact h.extend hx hb (ho ..) (.inl rfl) hf

theorem applies_applySetting
    (order : List Nat) (entry : Setting) : Applies p (applySetting x order entry) := by
  cases entry with
  | initialWindowSize val => exact applies_applyInitialWindowSize h hx
  | enablePush val =>
    unfold applySetting
    dsimp only
    split_ifs
    · exact ⟨h.resizes, .inl hx, h.finished⟩
    · exact h
  | maxFrameSize val =>
    unfold applySetting
    dsimp only
    split_ifs
    · exact ⟨h.resizes, .inl hx, h.finished⟩
    · exact ⟨h.resizes, .inl hx, h.finished⟩
    · have hs : Manager.Resizes x.processor.manager
          { x.processor.manager with maxFrameSize := val } :=
        .of_stream rfl rfl (Subset.refl _) rfl (.of_eq rfl rfl rfl)
      exact h.extend hx hs rfl (.inl rfl) fun id hid => .inl hid
  | _ => exact h

end

theorem applies_applySettings (order : Nat → List Nat) (k : Nat) (h : Applies p x)
    (hx : x.processor = x.windows p) (entries : List Setting) :
    Applies p (applySettings order k x entries) := by
  induction entries generalizing k x with
  | nil => exact h
  | cons entry entries ih =>
    have he := applies_applySetting h hx (order k) entry
    unfold applySettings
    dsimp only
    split_ifs with herr
    · exact he
    · exact ih (k + 1) he (he.goAway.resolve_right fun hs => herr hs.1)

theorem applies_init (p : Processor) : Applies p { processor := p } :=
  ⟨.refl _, .inl rfl, nofun⟩

/-- What follows the entries of a `SETTINGS` frame is a chain of changes. -/
theorem yields_handleSettings (hinv : Inv T p) {env : Env} {entries : List Setting} :
    Yields T 0 ((applySettings env.order 0 { processor := p } entries).windows p)
      (p.handleSettings env false entries) := by
  have ha := applies_applySettings env.order 0 (applies_init p) rfl entries
  simp only [handleSettings, Bool.false_eq_true, if_false]
  generalize applySettings env.order 0 { processor := p } entries = x at ha ⊢
  have hq := hinv.resizes ⟨ha.resizes, rfl⟩
  cases he : x.err with
  | some text =>
    rcases ha.goAway with hx | ⟨-, text, hx⟩
    · rw [← hx]
      exact yields_goAwayErr _ _ _
    · rw [hx]
      exact .after (changes_sendGoAway (.inl rfl) _ _) (yields_goAwayErr _ _ _)
  | none =>
    have hx := ha.goAway.resolve_right fun hs => by simp [he] at hs
    have hack : Changes T 0 (x.windows p) ((x.windows p).manage (·.write [.settingsAck])) :=
      .single (.write (forall_mem_singleton.mpr trivial))
    rw [hx]
    refine .of_changes (hack.andThen (changes_finishFlushes (hq.changes hack) fun i hi => ?_))
    obtain ⟨hm, hb⟩ := ha.finished i hi
    exact (hinv.answers.streams hm).buffered hb

/-! ## The other frames -/

variable {env : Env} {f : Frame}

theorem yields_handleRSTStream (hd : T.dismissed id) : Yields T 0 p (p.handleRSTStream env id) := by
  unfold handleRSTStream
  generalize (if env.now ≠ p.rstWindowSec then 1 else p.rstCount + 1) = count
  have hco : Changes T 0 p { p with rstWindowSec := env.now, rstCount := count } :=
    changes_books rfl
  refine .after hco ?_
  dsimp only
  split
  · exact yields_goAwayErr _ _ _
  · unfold resetStream
    by_cases hm : id ∈ p.manager.ids
    · rw [if_pos hm]
      refine .of_changes (changes_leave (i := id) ?_ (.inr (.inr (.inr hd))))
      have hc : Manager.Responds id 0 p.manager (p.manager.cancel id) := responds_cancel
      exact .after hc (leaves_take hm)
    · rw [if_neg hm]
      split_ifs
      · exact .of_changes changes_forget
      · exact yields_goAwayErr _ _ _

theorem responds_placeholderIDs (ids : List Nat) :
    Manager.Responds 0 0 m { m with placeholderIDs := ids } :=
  responds_books rfl rfl (Subset.refl _) rfl (.of_eq rfl rfl rfl)

/-- A placeholder that the client has passed leaves. -/
theorem changes_reap (i : Nat) (hinv : Inv T p) : Changes T 0 p (p.manage fun m =>
    if i ∈ m.ids ∧ (m.stream i).placeholder ∧ (m.stream i).state = .idle then (m.erase i).release i
      else m) := by
  unfold manage
  dsimp only
  split_ifs with hr
  · obtain ⟨hm, -, hi⟩ := hr
    have hok := hinv.valid.streams hm
    have ho : (p.manager.stream i).endStream = false :=
      Bool.eq_false_iff.mpr fun he => (hok.isOver he).ne_idle hi
    exact changes_leave (leaves_reap hm hi (hok.sync ho)) (.inr (.inl hi))
  · exact .refl p

theorem changes_reapPassedPlaceholders (fuel k : Nat) (hi : Inv T p) :
    Changes T 0 p (p.manage (reapPassedPlaceholders fuel · k)) := by
  induction fuel generalizing p k with
  | zero => exact .refl p
  | succ fuel ih =>
    unfold manage reapPassedPlaceholders
    dsimp only
    cases hk : p.manager.placeholderIDs[k]? with
    | none => exact .refl p
    | some i =>
      dsimp only
      split
      · exact ih (k + 1) hi
      · have hb := (changes_reap i hi).andThen (changes_quiet (responds_placeholderIDs
          (swapErase p.manager.placeholderIDs k)) (.of_eq rfl))
        exact hb.andThen (ih k (hi.changes hb))

theorem reapPassedPlaceholders_ids (fuel : Nat) (m : Manager) (k : Nat) :
    (reapPassedPlaceholders fuel m k).ids ⊆ m.ids ∧
      (reapPassedPlaceholders fuel m k).lastClientStream = m.lastClientStream := by
  induction fuel generalizing m k with
  | zero => exact ⟨Subset.refl _, rfl⟩
  | succ fuel ih =>
    unfold reapPassedPlaceholders
    cases m.placeholderIDs[k]? with
    | none => exact ⟨Subset.refl _, rfl⟩
    | some i =>
      dsimp only
      split_ifs
      · exact ih _ _
      · exact ⟨List.Subset.trans (ih _ _).1 erase_subset, (ih _ _).2⟩
      · exact ih _ _

/-- `CreatePlaceholder` reaps when it has as many placeholders as it may. -/
theorem changes_reapFull (hi : Inv T p) :
    let t := if p.manager.placeholderIDs.length ≥ maxPriorityPlaceholders then
      reapPassedPlaceholders p.manager.placeholderIDs.length p.manager 0 else p.manager
    Changes T 0 p { p with manager := t } ∧ t.ids ⊆ p.manager.ids ∧
      t.lastClientStream = p.manager.lastClientStream := by
  split_ifs
  · exact ⟨changes_reapPassedPlaceholders _ 0 hi, reapPassedPlaceholders_ids _ _ _⟩
  · exact ⟨.refl p, Subset.refl _, rfl⟩

theorem changes_createPlaceholder (hinv : Inv T p)
    (hn : id ∉ p.manager.ids → p.manager.lastClientStream < id ∧ id % 2 = 1) :
    Changes T 0 p (p.manage (·.createPlaceholder id)) := by
  unfold createPlaceholder manage
  dsimp only
  split
  · exact .refl p
  · rename_i hm
    obtain ⟨hl, ho⟩ := hn hm
    obtain ⟨hr, hi, hs⟩ := changes_reapFull hinv
    generalize (if p.manager.placeholderIDs.length ≥ maxPriorityPlaceholders then
      reapPassedPlaceholders p.manager.placeholderIDs.length p.manager 0 else p.manager) = t
      at hr hi hs ⊢
    split_ifs
    · exact hr
    · refine hr.andThen (.single (.placeholder (p := { p with manager := t }) ?_ ?_ ho _))
      · exact fun h => hm (hi h)
      · exact hs ▸ hl

theorem yields_handlePriority (hi : Inv T p) {priority : Priority} :
    Yields T 0 p (p.handlePriority id priority) := by
  unfold handlePriority
  dsimp only
  split_ifs with hs hf hk
  · exact yields_goAwayErr _ _ _
  · exact yields_goAwayErr _ _ _
  · exact .of_changes (.refl p)
  · have hc : Changes T 0 p (p.manage (·.createPlaceholder id)) :=
      changes_createPlaceholder hi fun hm => by
      have hn := not_and.mp hk hm
      omega
    refine .of_changes (hc.andThen ?_)
    unfold manage
    dsimp only
    split_ifs
    · exact changes_quiet responds_updatePriority (.of_eq rfl)
    · exact .refl _

theorem leaves_goAwayStream (hi : i ∈ m.ids) : Manager.Leaves i m (goAwayStream m i) := by
  have hp : Manager.Responds i 0 m (m.dropPlaceholder i) := responds_dropPlaceholder
  exact .after hp (leaves_erase hi (responds_disarmRequest.comp responds_cancel))

theorem mem_goAwayStream {j : Nat} (hj : j ≠ i) : j ∈ (goAwayStream m i).ids ↔ j ∈ m.ids := by
  unfold goAwayStream
  split_ifs
  all_goals exact mem_erase_of_ne hj

theorem yields_handleGoAway (hinv : Inv T p) {lastStreamID : Nat}
    (hd : ∀ i > lastStreamID, T.dismissed i) : Yields T 0 p (p.handleGoAway env lastStreamID) := by
  have hn := nodup_range (env.order 0) hinv.valid.nodup
  refine .of_changes (changes_loop (fun p i => i ∈ p.manager.ids ∧ i > lastStreamID) (· ≠ ·)
    (fun _ hi => ?_)
    (fun hne hj => ⟨(mem_goAwayStream hne.symm).mpr hj.1, hj.2⟩) (hn.filter _) hinv fun i hi => ?_)
  · exact changes_leave (leaves_goAwayStream hi.1) (.inr (.inr (.inr (hd _ hi.2))))
  · obtain ⟨hr, hl⟩ := mem_filter.mp hi
    exact ⟨(mem_range _ i).mp hr, of_decide_eq_true hl⟩

theorem yields_handlePing {ack : Bool} {data : Bytes} :
    Yields T 0 p (p.handlePing id ack data) := by
  unfold handlePing
  split_ifs
  · exact yields_goAwayErr _ _ _
  · exact .of_changes (.refl p)
  · exact .of_changes (.single (.write (forall_mem_singleton.mpr trivial)))

/-! ## Dispatch -/

/-- The stream of the header block that ends with a frame, and whether the request ends with it. -/
def headerBlock (p : Processor) : Frame → Option (Nat × Bool)
  | .headers f => if p.continuationState = none ∧ f.endHeaders then some (f.streamID, f.endStream)
      else none
  | .continuation id endHeaders _ => p.continuationState.bind fun cs =>
    if cs.streamID = id ∧ endHeaders then some (id, cs.endStream) else none
  | _ => none

theorem headerBlock_cases {endStream : Bool} (h : p.headerBlock f = some (id, endStream)) :
    (∃ g, f = .headers g ∧ p.continuationState = none ∧ g.endHeaders = true ∧ g.streamID = id ∧
      g.endStream = endStream) ∨
    ∃ cs fragment, f = .continuation id true fragment ∧ p.continuationState = some cs ∧
      cs.streamID = id ∧ cs.endStream = endStream := by
  cases f with
  | headers f =>
    unfold headerBlock at h
    dsimp only at h
    split_ifs at h with hw
    cases h
    exact .inl ⟨f, rfl, hw.1, hw.2, rfl, rfl⟩
  | continuation streamID endHeaders fragment =>
    obtain ⟨cs, hcs, h⟩ := Option.bind_eq_some_iff.mp h
    split_ifs at h with hw
    cases h
    obtain ⟨hid, he⟩ := hw
    cases he
    exact .inr ⟨cs, fragment, rfl, hcs, hid, rfl⟩
  | _ => cases h

variable (T) in
/-- The scope allows what a frame may do. -/
structure FrameOk (p : Processor) (env : Env) (f : Frame) : Prop where
  block : ∀ {id endStream}, p.headerBlock f = some (id, endStream) → BlockOk T p env id endStream
  ends : ∀ {data}, f = .data data → data.endStream = true → T.ends data.streamID
  reset : ∀ {id}, f = .rstStream id → T.dismissed id
  goAway : ∀ {last}, f = .goAway last → ∀ i > last, T.dismissed i

/-- The state in which a `SETTINGS` frame has changed the windows. -/
def resized (p : Processor) (env : Env) (f : Frame) : Processor :=
  match p.continuationState, f with
  | none, .settings false entries => (applySettings env.order 0 { processor := p } entries).windows
      p
  | _, _ => p

theorem resizes_resized (env : Env) (f : Frame) : Resizes p (p.resized env f) := by
  unfold resized
  split
  · exact ⟨(applies_applySettings env.order 0 (applies_init p) rfl _).resizes, rfl⟩
  · exact .refl p

theorem yields_interrupts {expected n : Nat} : Yields T n p (p.interrupts f expected) := by
  unfold interrupts
  dsimp only
  split_ifs
  all_goals exact yields_goAwayErr _ _ _

/-- The frames but `SETTINGS`. -/
theorem yields_handleFrame (hinv : Inv T p) (hT : FrameOk T p env f)
    (hf : ∀ entries, f ≠ .settings false entries)
    (hb : ∀ {cs}, p.continuationState = some cs → continues cs.streamID f = true) :
    Yields T (flowLength f) p (p.handleFrame env f) := by
  cases f with
  | settings ack entries =>
    cases ack with
    | false => exact absurd rfl (hf entries)
    | true => exact .of_changes (.refl p)
  | headers f =>
    unfold handleFrame
    dsimp only
    split_ifs
    · exact yields_goAwayErr _ _ _
    · refine yields_handleHeaders hinv fun hend => hT.block (if_pos ⟨?_, hend⟩)
      exact Option.eq_none_iff_forall_ne_some.mpr fun cs hcs => Bool.false_ne_true (hb hcs)
  | data f =>
    unfold handleFrame
    dsimp only
    split_ifs
    · exact yields_goAwayErr _ _ _
    · exact .of_error changes_rstStream
    · exact yields_handleData hinv (hT.ends rfl)
  | windowUpdate id increment => exact yields_handleWindowUpdate hinv
  | rstStream id => exact yields_handleRSTStream (hT.reset rfl)
  | priority id priority => exact yields_handlePriority hinv
  | goAway lastStreamID => exact yields_handleGoAway hinv (hT.goAway rfl)
  | ping id ack data => exact yields_handlePing
  | continuation id endHeaders fragment =>
    refine yields_handleContinuation hinv fun hend {cs} hcs hid => hT.block ?_
    rw [headerBlock, hcs, Option.bind_some, if_pos ⟨hid, hend⟩]
  | pushPromise id => exact yields_goAwayErr _ _ _
  | unknown id => exact .of_changes (.refl p)

/-- Every frame is a chain of changes, after what a `SETTINGS` frame does to the windows. -/
theorem yields_processFrame (hi : Inv T p) (hT : FrameOk T p env f) :
    Yields T (flowLength f) (p.resized env f) (p.processFrame env f) := by
  unfold processFrame resized
  cases hcs : p.continuationState with
  | some cs =>
    dsimp only
    split_ifs with hc
    · refine yields_handleFrame hi hT (fun entries heq => ?_) fun hcs' => ?_
      · rw [heq] at hc
        cases hc
      · cases hcs.symm.trans hcs'
        exact hc
    · exact yields_interrupts
  | none =>
    by_cases hs : ∃ entries, f = .settings false entries
    · obtain ⟨entries, rfl⟩ := hs
      exact yields_handleSettings hi
    · have hf : ∀ entries, f ≠ .settings false entries := fun entries heq => hs ⟨entries, heq⟩
      split
      · exact absurd rfl (hf _)
      · refine yields_handleFrame hi hT hf fun hcs' => ?_
        cases hcs.symm.trans hcs'

end

end Processor

end Celeris.H2
