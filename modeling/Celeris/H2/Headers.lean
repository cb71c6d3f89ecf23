import Celeris.H2.Invariant

/-!
# Header blocks are chains of changes

Each definition of `H2.Processor` from `sendGoAway` to `handleContinuation` is a chain of
changes. `Yields` says so of a result: the changes weigh what they should unless an
error ends the connection. `Requesting` and `Ready` are what is known of a stream when
its request is still open, and when a handler may start on it; `BlockOk` is what the
scope has to allow where a header block ends.
-/

namespace Celeris.H2

open Manager ServerResets

namespace Processor

/-! ## Chains -/

section

variable {T : Scope} {p q : Processor} {t : Manager} {i n k : Nat}

theorem Inv.changes (h : Inv T p) (hc : Changes T n p q) : Inv T q :=
  hc.invariant (fun h hch => hch.inv h) h

theorem changes_respond (h : Manager.Responds i 0 p.manager t) (hw : p.Answering i) :
    Changes T 0 p { p with manager := t } :=
  .single (.respond h (.inl hw))

theorem changes_quiet (h : Manager.Responds i 0 p.manager t) (hq : Manager.Quiet i p.manager t) :
    Changes T 0 p { p with manager := t } :=
  .single (.respond h (.inr hq))

theorem changes_leave (h : Manager.Leaves i p.manager t)
    (hw : p.Served i ∨ (p.manager.stream i).state = .idle ∨ Manager.Reset i t ∨ T.dismissed i) :
    Changes T 0 p { p with manager := t } :=
  .single (.leave h hw .inl)

theorem changes_books (h : q = { p with
      refusals := q.refusals, resetIDs := q.resetIDs, rstCount := q.rstCount, rstWindowSec :=
        q.rstWindowSec
      ended := q.ended }) : Changes T 0 p q := by
  rw [h]
  exact .single (.books ⟨rfl, rfl, rfl, rfl, rfl, rfl, rfl, rfl, .inl, .inl⟩)

/-- The header block that is being received changes. -/
theorem changes_block {block : Option ContinuationState}
    (h : ∀ {cs}, block = some cs → cs.headerBlock.length ≤ p.headerListMax * 4) :
    Changes T 0 p { p with continuationState := block } :=
  .single (.books ⟨rfl, rfl, rfl, rfl, rfl, rfl, rfl, rfl, fun hcs => .inr (h hcs), .inl⟩)

/-- Marks are forgotten. -/
theorem changes_unmark {resetOpen : ServerResets} {expiredReq : List (Nat × Int)}
    (h : ∀ {j}, { p with resetOpen := resetOpen, expiredReq := expiredReq }.Marked j → p.Marked j) :
    Changes T 0 p { p with resetOpen := resetOpen, expiredReq := expiredReq } :=
  .single (.books ⟨rfl, rfl, rfl, rfl, rfl, rfl, rfl, rfl, .inl, fun hj => .inl (h hj)⟩)

theorem changes_deleteStream (hs : p.Served i) :
    Changes T 0 p { p with manager := p.manager.deleteStream i } := by
  unfold deleteStream
  split_ifs with hi
  · exact changes_leave (leaves_take hi) (.inl hs)
  · exact .refl p

variable (T) in
/-- Changes with a result; they weigh `n` unless the result is an error. -/
def Yields (n : Nat) (p : Processor) (r : Result) : Prop :=
  ∃ k, Changes T k p r.1 ∧ (r.2 = none → k = n)

variable {r : Result} {j : Nat}

theorem andThen_eq_none {next : Processor → Result} (h : andThen r next = (q, none)) :
    ∃ u, r = (u, none) ∧ next u = (q, none) := by
  rcases r with ⟨u, _ | err⟩
  · exact ⟨u, rfl, h⟩
  · cases h

namespace Yields

variable {r : Result}

theorem of_changes {err : Option Err} (h : Changes T n p q) : Yields T n p (q, err) :=
  ⟨n, h, fun _ => rfl⟩

theorem of_error {err : Err} (h : Changes T k p q) : Yields T n p (q, some err) := ⟨k, h, nofun⟩

/-- Weightless changes come first. -/
theorem after (h : Changes T 0 p q) (h' : Yields T n q r) : Yields T n p r := by
  obtain ⟨k, hc, hw⟩ := h'
  exact ⟨k, h.before hc, hw⟩

/-- Weightless changes follow. -/
theorem before (h : Changes T n p q) (h' : Yields T 0 q r) : Yields T n p r := by
  obtain ⟨k, hc, hw⟩ := h'
  refine ⟨n + k, h.trans hc, fun hn => ?_⟩
  rw [hw hn, Nat.add_zero]

theorem andThen {next : Processor → Result} (h : Yields T 0 p r)
    (hn : ∀ {q}, r = (q, none) → Yields T n q (next q)) : Yields T n p (andThen r next) := by
  obtain ⟨k, hc, hw⟩ := h
  rcases r with ⟨q, _ | err⟩
  · have hk : k = 0 := hw rfl
    exact after (hk ▸ hc) (hn rfl)
  · exact of_error hc

end Yields

theorem Inv.yields {err : Option Err} (h : Inv T p) (hy : Yields T n p r)
    (hr : r = (q, err)) : Inv T q := by
  obtain ⟨k, hc, -⟩ := hy
  rw [hr] at hc
  exact h.changes hc

/-! ## Errors and resets -/

theorem changes_sendGoAway {last : Nat}
    (hl : last = p.manager.maxStreamID ∨ last = p.manager.lastClientStream)
    (code : ErrCode) (text : String) : Changes T 0 p (p.sendGoAway last code text) :=
  .single (.goAway hl code text)

theorem yields_goAwayErr (code : ErrCode) (text : String) (err : Err) :
    Yields T n p (p.goAwayErr code text err) :=
  .of_error (changes_sendGoAway (.inl rfl) code text)

variable {id : Nat} {code : ErrCode} {clientDone : Bool} {env : Env} {kind : RefusalKind}
  {why : Option Cause}

theorem changes_rstStream :
    Changes T 0 p { p with manager := p.manager.write [.rstStream id code] } :=
  .single (.write (List.forall_mem_singleton.mpr trivial))

theorem responds_rstStream {m : Manager} (code : ErrCode) :
    Manager.Responds i 0 m (m.write [.rstStream i code]) :=
  responds_write (List.forall_mem_singleton.mpr rfl)

theorem deleteStream_wire (m : Manager) (id : Nat) :
    (m.deleteStream id).wire = m.wire ∧ (m.deleteStream id).outBuf = m.outBuf := by
  unfold deleteStream take
  split_ifs
  all_goals exact ⟨rfl, rfl⟩

/-- A reset goes straight to the buffer of the writer. -/
theorem sendRSTStreamAndMarkClosed_wire (p : Processor) (id : Nat) (code : ErrCode) :
    (p.sendRSTStreamAndMarkClosed id code).manager.wire = p.manager.wire ∧
      (p.sendRSTStreamAndMarkClosed id code).manager.outBuf = p.manager.outBuf ++
        [.rstStream id code] := by
  unfold sendRSTStreamAndMarkClosed manage
  rw [(deleteStream_wire _ id).1, (deleteStream_wire _ id).2]
  split_ifs <;> exact ⟨rfl, rfl⟩

theorem reset_sendRSTStreamAndMarkClosed (p : Processor) (id : Nat) (code : ErrCode) :
    Manager.Reset id (p.sendRSTStreamAndMarkClosed id code).manager := by
  refine ⟨code, List.mem_append_left _ (List.mem_append_right _ ?_)⟩
  rw [(sendRSTStreamAndMarkClosed_wire p id code).2]
  exact List.mem_append_right _ (List.mem_singleton_self _)

theorem leaves_sendRSTStreamAndMarkClosed (hm : id ∈ p.manager.ids) (code : ErrCode) :
    Manager.Leaves id p.manager (p.sendRSTStreamAndMarkClosed id code).manager := by
  unfold sendRSTStreamAndMarkClosed manage deleteStream
  dsimp only
  rw [if_pos hm, if_pos (by exact hm)]
  exact .after (responds_cancel.comp (responds_rstStream code)) (leaves_take hm)

theorem sendRSTStreamAndMarkClosed_of_not_mem (hm : id ∉ p.manager.ids) (code : ErrCode) :
    (p.sendRSTStreamAndMarkClosed id code).manager = p.manager.write [.rstStream id code] := by
  unfold sendRSTStreamAndMarkClosed manage deleteStream
  dsimp only
  rw [if_neg hm, if_neg (by exact hm)]

theorem changes_sendRSTStreamAndMarkClosed :
    Changes T 0 p (p.sendRSTStreamAndMarkClosed id code) := by
  have hr : Changes T 0 p { p with manager := (p.sendRSTStreamAndMarkClosed id code).manager } := by
    by_cases hm : id ∈ p.manager.ids
    · exact changes_leave (leaves_sendRSTStreamAndMarkClosed hm code)
        (.inr (.inr (.inl (reset_sendRSTStreamAndMarkClosed p id code))))
    · rw [sendRSTStreamAndMarkClosed_of_not_mem hm]
      exact changes_rstStream
  exact hr.andThen (changes_books rfl)

/-! ## Marks -/

theorem requestExpired_iff : p.requestExpired i = true ↔ i ∈ p.expiredReq.map Prod.fst := by
  unfold requestExpired
  simp

theorem marked_markResetOpen (h : (p.markResetOpen i clientDone).Marked j) :
    p.Marked j ∨ j = i := by
  unfold markResetOpen at h
  split_ifs at h
  · exact .inl h
  · rcases h with h | h
    · exact (has_mark_iff.mp h).1.imp_left .inl
    · exact .inl (.inr h)

/-- A stream of the map is reset; if the client is not done with it that is noted. -/
theorem changes_reset (hmem : id ∈ p.manager.ids) (hs : (p.manager.stream id).state ≠ .idle)
    (clientDone : Bool) (code : ErrCode) :
    Changes T 0 p ((p.markResetOpen id clientDone).sendRSTStreamAndMarkClosed id code) := by
  obtain ⟨resets, hm⟩ : ∃ resets, p.markResetOpen id clientDone =
      { p with resetOpen := resets } := by
    unfold markResetOpen
    split_ifs <;> exact ⟨_, rfl⟩
  have hr := reset_sendRSTStreamAndMarkClosed p id code
  have hl : Change T 0 p { p with
      manager := (p.sendRSTStreamAndMarkClosed id code).manager, resetOpen := resets } := by
    refine .leave (leaves_sendRSTStreamAndMarkClosed hmem code) (.inr (.inr (.inl hr)))
      fun {j} hj => ?_
    have hj : (p.markResetOpen id clientDone).Marked j := hm ▸ hj
    exact (marked_markResetOpen hj).imp_right fun hj => ⟨hj, hs, hr⟩
  rw [hm]
  exact Transition.Chain.andThen (.single hl) (changes_books rfl)

/-- The stream of an identifier the client has just used is refused. -/
theorem changes_refused (hf : T.fresh id) :
    Changes T 0 p ((p.markResetOpen id clientDone).sendRSTStreamAndMarkClosed id code) := by
  unfold markResetOpen
  split_ifs with hd
  · exact changes_sendRSTStreamAndMarkClosed
  · refine changes_sendRSTStreamAndMarkClosed.andThen (.single (.books
      ⟨rfl, rfl, rfl, rfl, rfl, rfl, rfl, rfl, .inl, fun {j} hj => ?_⟩))
    rcases hj with hj | hj
    · refine (has_mark_iff.mp hj).1.imp .inl ?_
      rintro rfl
      exact ⟨hf, reset_sendRSTStreamAndMarkClosed p j code⟩
    · exact .inl (.inr hj)

theorem countRefusal_none (h : p.countRefusal env kind why = (q, none)) :
    q = { p with refusals := p.refusals.count kind env.now } := by
  unfold countRefusal at h
  dsimp only at h
  split_ifs at h <;> cases h
  · rfl

theorem yields_countRefusal : Yields T 0 p (p.countRefusal env kind why) := by
  have hb : Changes T 0 p { p with refusals := p.refusals.count kind env.now } := changes_books rfl
  unfold countRefusal
  dsimp only
  split_ifs
  · exact .after hb (yields_goAwayErr _ _ _)
  · exact .of_changes hb

theorem yields_refuse (hm : id ∈ p.manager.ids) (hs : (p.manager.stream id).state ≠ .idle) :
    Yields T 0 p (p.refuse env kind why id clientDone code) := by
  refine yields_countRefusal.andThen fun hc => .of_changes ?_
  rw [countRefusal_none hc]
  exact changes_reset (p := { p with refusals := p.refusals.count kind env.now }) hm hs clientDone
    code

theorem marked_forget (h : ((p.clearResetOpen id).forgetExpired id).Marked j) :
    p.Marked j ∧ j ≠ id := by
  rcases h with h | h
  · exact (has_clear_iff.mp h).imp_left .inl
  · obtain ⟨e, he, rfl⟩ := List.mem_map.mp (requestExpired_iff.mp h)
    obtain ⟨he, hne⟩ := List.mem_filter.mp he
    exact ⟨.inr (requestExpired_iff.mpr (List.mem_map_of_mem he)), by simpa using hne⟩

theorem quiet_disarmRequest (m : Manager) (id : Nat) : Manager.Quiet id m (m.disarmRequest id) := by
  refine ⟨?_, ?_, ?_⟩
  all_goals rw [Manager.disarmRequest, Manager.modify_stream_self]
  · exact (·)
  · exact nofun

theorem changes_forget : Changes T 0 p ((p.clearResetOpen id).forgetExpired id) :=
  changes_unmark fun hj => (marked_forget hj).1

/-! ## Handlers start -/

variable (T) in
/-- A handler may start on a stream. -/
structure Ready (p : Processor) (i : Nat) : Prop where
  mem : i ∈ p.manager.ids
  state : (p.manager.stream i).state = .halfClosedRemote
  ended : (p.manager.stream i).endStream = true
  sync : (p.manager.stream i).asyncRunning = false
  alive : (p.manager.stream i).cancelled = false
  pool : ∀ stage, (i, stage) ∉ p.pool
  cleanup : i ∉ p.pendingInlineCleanup
  data : (p.manager.stream i).data.length = (p.manager.stream i).receivedDataLen
  accepted : (p.manager.stream i).Accepted T i

end

end Processor

/-- After its response has ended, a request that has ended is over. -/
theorem Manager.afterInline_spec {m : Manager} {i : Nat} (ending : Ending) (more : Bool)
    (hst : (m.stream i).state = .halfClosedRemote) :
    ∃ u, Responds i 0 m u ∧ ((m.afterInline i ending more).1 ≠ .defer ∧
      (m.afterInline i ending more).2 = u ∨
      (m.afterInline i ending more).2 = u.setState i .closed) := by
  cases ending with
  | goexit => exact ⟨_, responds_settleInline, .inl ⟨nofun, rfl⟩⟩
  | error | panicked =>
    refine ⟨_, responds_settleInline.comp responds_abandonOutbound, .inl ⟨?_, rfl⟩⟩
    simp only [afterInline]
    split_ifs <;> exact nofun
  | returned =>
    by_cases hsent : (m.stream i).headersSent = false
    · have hi : m.afterInline i .returned more = (.now, m.writeResponseInline i 200 []) :=
        if_pos hsent
      rw [hi]
      exact ⟨_, responds_writeResponseInline 200 [], .inl ⟨nofun, rfl⟩⟩
    · simp only [afterInline, if_neg hsent]
      generalize hse : (if (m.stream i).streamed then
        if (m.settleStreamed i).1 then (m.settleStreamed i).2.resetHandlerStream i
        else (m.settleStreamed i).2 else m) = settled
      have hs : Responds i 0 m settled := by
        rw [← hse]
        split_ifs
        · exact responds_settleStreamed.comp responds_resetHandlerStream
        · exact responds_settleStreamed
        · exact .refl
      have ha := hs.comp responds_abandonOutbound
      refine ⟨_, ha, ?_⟩
      cases (settled.abandonOutbound i).1 with
      | true => exact .inl ⟨nofun, rfl⟩
      | false =>
        right
        rw [ha.state, hst]
        rfl

namespace Processor

section

variable {T : Scope} {p q : Processor} {i n : Nat}

/-- The part of `executeHandlerInline` before the stream is cleaned up. -/
theorem changes_afterInline (h : Ready T p i) (hs : p.Served i) (run : HandlerRun) (more : Bool) :
    let x := (run.calls.foldl (callInline i) p.manager).afterInline i run.ending more
    Changes T 0 p { p with manager := x.2.dropData i } ∧ x.2.ids = p.manager.ids ∧
      (x.2.stream i).asyncRunning = false ∧ (x.1 = .defer → (x.2.stream i).state = .closed) := by
  have hca : Manager.Responds i 0 p.manager (run.calls.foldl (callInline i) p.manager) :=
    responds_calls run.calls
  obtain ⟨u, hu, hcases⟩ := afterInline_spec run.ending more ((hca.state i).trans h.state)
  have hr := hca.comp hu
  have ha : Changes T 0 p { p with manager := u } := changes_respond hr ⟨hs, .inl h.mem⟩
  have he : (u.stream i).endStream = true := (Stream.endStream_of_core hr.stream).trans h.ended
  have hsync : (u.stream i).asyncRunning = false := (hr.asyncRunning i).trans h.sync
  dsimp only
  rcases hcases with ⟨hc, hm⟩ | hm
  · rw [hm]
    refine ⟨?_, hr.ids, hsync, fun hd => absurd hd hc⟩
    exact ha.andThen (.single (.dropData he (h.pool _)))
  · rw [hm]
    have hself := setState_stream_self u i .closed
    refine ⟨?_, hr.ids, ?_, fun _ => ?_⟩
    · have hcl : Changes T 0 { p with manager := u }
          { p with manager := u.setState i .closed } := by
        refine .single (.setState (hr.ids ▸ h.mem) ?_ (.inl rfl))
        rw [hr.state, h.state]
        exact nofun
      refine (ha.andThen hcl).andThen (.single (.dropData ?_ (h.pool _)))
      rw [hself]
      exact he
    all_goals rw [hself]
    exact hsync

theorem changes_executeHandlerInline (h : Ready T p i)
    (hl : p.goAwaySent = true → i ≤ p.goAwayLastID)
    (env : Env) : Changes T 0 p (p.executeHandlerInline env i) := by
  have hse : Changes T 0 p (p.serve i) :=
    .single (.serve (.inl ⟨h.mem, h.ended, hl⟩) h.data h.accepted)
  have hs := served_serve p i
  have hr : Ready T (p.serve i) i :=
    { h with }
  obtain ⟨hc, hi, hsync, hd⟩ := changes_afterInline hr hs env.run (p.serve i).hasMoreFrames
  refine hse.andThen ?_
  unfold executeHandlerInline Manager.executeHandlerInline
  dsimp only
  generalize (env.run.calls.foldl (callInline i) (p.serve i).manager).afterInline i env.run.ending
    (p.serve i).hasMoreFrames = x at hc hi hsync hd ⊢
  rcases x with ⟨cleanup, t⟩
  have hm : i ∈ (t.dropData i).ids := hi ▸ h.mem
  have hself : (t.dropData i).stream i = { t.stream i with data := [] } := modify_stream_self t i _
  have ha : ((t.dropData i).stream i).asyncRunning = false := by rwa [hself]
  cases cleanup with
  | keep => exact hc.andThen (changes_books rfl)
  | defer =>
    have hst : ((t.dropData i).stream i).state = .closed := by
      rw [hself]
      exact hd rfl
    exact (hc.andThen (.single (.defer hm hst ha h.pool hs))).andThen (changes_books rfl)
  | now =>
    exact (hc.andThen (changes_leave (leaves_remove hm ha) (.inl hs))).andThen (changes_books rfl)

theorem changes_runHandler (h : Ready T p i) (env : Env) : Changes T 0 p (p.runHandler env i) := by
  unfold runHandler
  dsimp only
  split_ifs with hl
  · exact changes_sendRSTStreamAndMarkClosed
  all_goals
    have hl : p.goAwaySent = true → i ≤ p.goAwayLastID := fun hs =>
      Nat.not_lt.mp fun hlt => hl ⟨hs, hlt⟩
  · exact changes_executeHandlerInline h hl env
  · exact .refl p
  · exact .single (.submit h.mem h.state h.ended h.pool h.cleanup h.data h.accepted hl)

/-! ## HEADERS -/

/-- A stream whose request is open. -/
structure Requesting (p : Processor) (i : Nat) : Prop where
  mem : i ∈ p.manager.ids
  opened : (p.manager.stream i).state.requesting = true

theorem Requesting.respond {t : Manager} {j : Nat} (h : Requesting p i)
    (hr : Manager.Responds j 0 p.manager t) : Requesting { p with manager := t } i :=
  ⟨hr.ids ▸ h.mem, (congrArg State.requesting (hr.state i)).trans h.opened⟩

theorem Requesting.ne_idle (h : Requesting p i) : (p.manager.stream i).state ≠ .idle := by
  intro hi
  have ho := h.opened
  rw [hi] at ho
  cases ho

/-- The request of a stream whose request is open has not ended. -/
theorem Inv.not_ended (hi : Inv T p) (h : Requesting p i) :
    (p.manager.stream i).endStream = false :=
  Bool.eq_false_iff.mpr fun he => ((hi.valid.streams h.mem).isOver he).not_requesting h.opened

/-- A handler may start on a request that has just ended. -/
theorem Inv.ready (hi : Inv T p) (h : Requesting p i) (ha : (p.manager.stream i).Accepted T i) :
    Ready T (p.endRequest i) i := by
  have hok := hi.valid.streams h.mem
  have ho := hi.not_ended h
  obtain ⟨hp, hc⟩ := hi.valid.free_of_requesting h.mem h.opened
  refine ⟨h.mem, ?_, ?_, ?_, ?_, hp, hc, ?_, ?_⟩
  all_goals rw [endRequest_stream_self]
  · exact hok.sync ho
  · exact (hi.answers.streams h.mem).alive ho
  · exact hok.length ho
  · exact ha

theorem changes_endRequest (h : Requesting p i) (he : T.ends i) : Changes T 0 p (p.endRequest i) :=
  .single (.endRequest h.mem h.opened he)

variable {env : Env} {headers : List Field} {endStream : Bool}

/-- A request ends, and a handler starts if its content-length is right. -/
theorem yields_runChecked (hi : Inv T p) (h : Requesting p i) (he : T.ends i) :
    Yields T 0 p ((p.endRequest i).runChecked env i) := by
  refine .after (changes_endRequest h he) ?_
  unfold runChecked
  dsimp only
  split
  · refine yields_refuse (p := p.endRequest i) h.mem ?_
    rw [endRequest_stream_self]
    exact nofun
  · refine .of_changes (changes_runHandler (hi.ready h (.inl ?_)) env)
    rename_i hok
    rwa [endRequest_stream_self] at hok

theorem changes_addHeaders (h : Requesting p i) : Changes T 0 p (p.addHeaders i headers) := by
  have hr := Transition.Chain.single (Change.request (T := T) h.mem h.opened headers [])
  simpa [addHeaders, manage] using hr

theorem Requesting.addHeaders (h : Requesting p i) : Requesting (p.addHeaders i headers) i := by
  refine ⟨h.mem, ?_⟩
  unfold Processor.addHeaders manage
  rw [modify_stream_self]
  exact h.opened

theorem yields_decodeRefused : Yields T 0 p (p.decodeRefused env) := by
  unfold decodeRefused
  split_ifs
  · exact yields_goAwayErr _ _ _
  · exact .of_changes (.refl p)

variable {id : Nat}

theorem yields_refuseStream (hf : T.fresh id) : Yields T 0 p (p.refuseStream env id endStream) :=
  yields_countRefusal.andThen fun _ =>
    yields_decodeRefused.andThen fun _ => .of_changes (changes_refused hf)

/-- The request deadline of a stream that is in use is set. -/
theorem responds_armRequest (hs : (p.manager.stream i).state ≠ .idle) :
    ∃ t, Manager.Responds i 0 p.manager t ∧ Manager.Quiet i p.manager t ∧
      p.armRequest i endStream = { p with manager := t } := by
  unfold armRequest
  split_ifs
  · refine ⟨_, responds_modify rfl rfl id rfl, ⟨?_, ?_, fun _ => .inr hs⟩, rfl⟩
    all_goals rw [modify_stream_self]
    exact id
  · exact ⟨_, .refl, .of_eq rfl, rfl⟩

variable (T) in
/-- What `admitHeaders` does: the request of a stream it admits is open. -/
structure Admits (p : Processor) (id : Nat) (x : Result × Admission) : Prop where
  yields : Yields T 0 p x.1
  opened : ∀ {q}, x.1 = (q, none) → x.2 ≠ .refused → Requesting q id
  trailers : x.2 = .trailers →
    x.1 = (p, none) ∧ Requesting p id ∧ (p.manager.stream id).receivedInitialHeaders = true

theorem Admits.of_error {code : ErrCode} {text : String} {err : Err} {admission : Admission}
    (h : Changes T 0 p q) (hn : admission ≠ .trailers) :
    Admits T p id (q.goAwayErr code text err, admission) :=
  ⟨.after h (yields_goAwayErr _ _ _), nofun, fun ht => absurd ht hn⟩

theorem Admits.of_refused {r : Result} (h : Yields T 0 p r) : Admits T p id (r, .refused) :=
  ⟨h, fun _ hr => absurd rfl hr, nofun⟩

/-- A stream is opened: its request deadline is set. -/
theorem Admits.of_armed (h : Changes T 0 p q) (ho : Requesting q id) :
    Admits T p id ((q.armRequest id endStream, none), .new) := by
  obtain ⟨t, hr, hq, ha⟩ := responds_armRequest (p := q) ho.ne_idle
  rw [ha]
  refine ⟨.of_changes (h.andThen (changes_quiet hr hq)), fun heq _ => ?_, nofun⟩
  cases heq
  exact ho.respond hr

theorem admits_openStream_new (hl : p.manager.lastClientStream < id) (hodd : id % 2 = 1)
    (hf : T.fresh id) (hfree : id ∈ p.manager.ids → (p.manager.stream id).state = .idle) :
    Admits T p id (openStream (p.manage fun m => { m with lastClientStream := id }) env id
      endStream) := by
  unfold openStream
  cases ht : (p.manage fun m => { m with lastClientStream := id }).manager.tryOpenStream id with
  | none => exact .of_refused (.after (.single (.pass hl hf)) (yields_refuseStream hf))
  | some t =>
    have ho := opens_of_tryOpenStream ht hfree
    refine .of_armed (.single (.opened hl hodd hf ht hfree)) ⟨ho.mem, ?_⟩
    · rw [ho.stream, Function.update_self]
      rfl

theorem active_of_requesting {state : State} (h : state.requesting = true) :
    state.active = true := by
  cases state with
  | opened | halfClosedLocal => rfl
  | idle | halfClosedRemote | closed => cases h

theorem admits_openStream_again (h : Requesting p id) :
    Admits T p id (p.openStream env id endStream) := by
  have ht : p.manager.tryOpenStream id = some p.manager :=
    if_pos ⟨h.mem, active_of_requesting h.opened⟩
  unfold openStream
  rw [ht]
  exact .of_armed (.refl p) h

theorem validateStreamID_none {last : Nat} (h : validateStreamID id last = none) :
    last < id ∧ id % 2 = 1 := by
  unfold validateStreamID at h
  split_ifs at h
  omega

theorem admits_admitNew (hf : p.manager.lastClientStream < id → T.fresh id)
    (hfree : id ∈ p.manager.ids → (p.manager.stream id).state = .idle) :
    Admits T p id (p.admitNew env id endStream) := by
  unfold admitNew
  dsimp only
  split_ifs
  · exact .of_error changes_forget nofun
  · exact .of_refused (.after changes_forget yields_decodeRefused)
  · exact .of_error (.refl p) nofun
  · cases hv : validateStreamID id p.manager.lastClientStream with
    | some text => exact .of_error (.refl p) nofun
    | none =>
      obtain ⟨hl, ho⟩ := validateStreamID_none hv
      exact admits_openStream_new hl ho (hf hl) hfree

theorem requesting_of_ne {state : State} (hi : state ≠ .idle) (hc : state ≠ .closed)
    (hr : state ≠ .halfClosedRemote) : state.requesting = true := by
  cases state with
  | opened | halfClosedLocal => rfl
  | idle => exact absurd rfl hi
  | halfClosedRemote => exact absurd rfl hr
  | closed => exact absurd rfl hc

theorem admits_admitHeaders (env : Env) (endStream : Bool)
    (hf : p.manager.lastClientStream < id → T.fresh id) :
    Admits T p id (p.admitHeaders env id endStream) := by
  unfold admitHeaders
  dsimp only
  split_ifs with hn hc hr ht he
  · exact admits_admitNew hf (fun hm => hn.resolve_left fun hnot => hnot hm)
  · exact .of_error (.refl p) nofun
  · exact .of_error (.refl p) nofun
  · exact .of_error (.refl p) nofun
  all_goals
    obtain ⟨hm, hi⟩ := not_or.mp hn
    have ho : Requesting p id := ⟨not_not.mp hm, requesting_of_ne hi hc hr⟩
  · refine ⟨.of_changes (.refl p), fun heq _ => ?_, fun _ => ⟨rfl, ho, ht⟩⟩
    cases heq
    exact ho
  · exact admits_openStream_again ho

/-! ## Header blocks -/

variable (T) in
/-- What the scope allows where a header block ends. -/
structure BlockOk (p : Processor) (env : Env) (id : Nat) (endStream : Bool) : Prop where
  fresh : p.manager.lastClientStream < id → T.fresh id
  ends : endStream = true → T.ends id
  trailers : endStream = true → id ∈ p.manager.ids → (p.manager.stream id).state.requesting = true →
    (p.manager.stream id).receivedInitialHeaders = true →
      ∀ {headers}, env.decoded = .fields headers →
      T.trailers id ((p.manager.stream id).headers ++ headers) (p.manager.stream id).receivedDataLen

/-- The state in which a request ends with its trailers. -/
theorem changes_trailers (h : Requesting p id) :
    Changes T 0 p ((p.addHeaders id headers).disarmRequest id) ∧
      Requesting ((p.addHeaders id headers).disarmRequest id) id ∧
      ((p.addHeaders id headers).disarmRequest id).manager.stream id =
        { p.manager.stream id with
          headers := (p.manager.stream id).headers ++ headers, reqDeadline := false } := by
  have hr : Manager.Responds id 0 (p.addHeaders id headers).manager
    ((p.addHeaders id headers).disarmRequest id).manager := responds_disarmRequest
  refine ⟨?_, h.addHeaders.respond hr, ?_⟩
  · exact (changes_addHeaders h).andThen (changes_quiet hr (quiet_disarmRequest _ id))
  · rw [disarmRequest, manage, Manager.disarmRequest, Manager.modify_stream_self, addHeaders,
      manage, modify_stream_self]

theorem yields_completeTrailers (hi : Inv T p) (h : Requesting p id)
    (he : endStream = true → T.ends id) (hT : endStream = true →
      T.trailers id ((p.manager.stream id).headers ++ headers)
        (p.manager.stream id).receivedDataLen) :
    Yields T 0 p (p.completeTrailers env id endStream headers) := by
  unfold completeTrailers
  split
  · exact yields_refuse h.mem h.ne_idle
  · split_ifs with hend
    · obtain ⟨hc, ho, hs⟩ := changes_trailers (T := T) h
      have ha : (((p.addHeaders id headers).disarmRequest id).manager.stream id).Accepted T id := by
        refine .inr ?_
        rw [hs]
        exact hT hend
      exact .of_changes ((hc.andThen (changes_endRequest ho (he hend))).andThen
        (changes_runHandler ((hi.changes hc).ready ho ha) env))
    · exact .of_changes (changes_addHeaders h)

/-- The request has its headers. -/
def beginRequest (p : Processor) (id : Nat) (headers : List Field) : Processor :=
  (p.addHeaders id headers).manage (·.modify id fun s =>
    { s with isHEAD := s.isHEAD || isHead headers, receivedInitialHeaders := true })

theorem changes_beginRequest (h : Requesting p id) :
    Changes T 0 p (p.beginRequest id headers) ∧ Requesting (p.beginRequest id headers) id := by
  have hr : Manager.Responds id 0 (p.addHeaders id headers).manager
    ((p.addHeaders id headers).manager.modify id fun s =>
      { s with isHEAD := s.isHEAD || isHead headers, receivedInitialHeaders := true }) :=
    responds_modify rfl rfl (fun _ => rfl) rfl
  refine ⟨(changes_addHeaders h).andThen (changes_quiet hr ⟨?_, ?_, ?_⟩), h.addHeaders.respond hr⟩
  all_goals rw [modify_stream_self]
  · exact (·)
  · exact .inl

theorem yields_completeHeaders (hi : Inv T p) (h : Requesting p id)
    (he : endStream = true → T.ends id) :
    Yields T 0 p (p.completeHeaders env id endStream headers) := by
  obtain ⟨hc, ho⟩ := changes_beginRequest (T := T) h
  unfold completeHeaders
  split
  · exact yields_refuse h.mem h.ne_idle
  · split_ifs with hend
    · exact .after hc (yields_runChecked (hi.changes hc) ho (he hend))
    · exact .of_changes hc

theorem yields_completeHeaderBlock (hi : Inv T p) (h : Requesting p id) (env : Env)
    (trailers endStream : Bool) (he : endStream = true → T.ends id)
    (hT : trailers = true → endStream = true → ∀ {headers}, env.decoded = .fields headers →
      T.trailers id ((p.manager.stream id).headers ++ headers)
        (p.manager.stream id).receivedDataLen) :
    Yields T 0 p (p.completeHeaderBlock env trailers id endStream) := by
  unfold completeHeaderBlock
  cases hd : env.decoded with
  | failed => exact yields_goAwayErr _ _ _
  | tooLarge => exact yields_refuse h.mem h.ne_idle
  | fields headers =>
    split_ifs with ht
    · exact yields_completeTrailers hi h he fun hend => hT ht hend hd
    · exact yields_completeHeaders hi h he

/-- A stream takes a priority. -/
theorem responds_updatePriority {m : Manager} {priority : Priority} :
    Manager.Responds i 0 m (m.updatePriority i priority) :=
  responds_books rfl rfl (List.Subset.refl _) rfl (.of_eq rfl rfl rfl)

theorem changes_prioritize (h : Requesting p i) (priority : Option Priority) :
    Changes T 0 p (p.prioritize i priority) ∧ Requesting (p.prioritize i priority) i := by
  cases priority with
  | none => exact ⟨.refl p, h⟩
  | some priority =>
    exact ⟨changes_quiet responds_updatePriority (.of_eq rfl), h.respond responds_updatePriority⟩

theorem yields_serveHeaderBlock (hinv : Inv T p) (env : Env) (id : Nat) (endStream : Bool)
    (priority : Option Priority) (block : Bytes) (hT : BlockOk T p env id endStream) :
    Yields T 0 p (p.serveHeaderBlock env id endStream priority block) := by
  unfold serveHeaderBlock
  split
  · exact yields_goAwayErr _ _ _
  · have ha := admits_admitHeaders env endStream hT.fresh
    generalize p.admitHeaders env id endStream = x at ha ⊢
    rcases x with ⟨r, admission⟩
    refine ha.yields.andThen fun {q} hr => ?_
    have hq : Inv T q := hinv.yields ha.yields hr
    cases admission with
    | refused => exact .of_changes (.refl q)
    | trailers =>
      obtain ⟨hs, ho, hi⟩ := ha.trailers rfl
      have heq : p = q := congrArg Prod.fst (hs.symm.trans hr)
      subst heq
      exact yields_completeHeaderBlock hq ho env true endStream hT.ends fun _ he =>
        hT.trailers he ho.mem ho.opened hi
    | new =>
      split_ifs
      · exact yields_goAwayErr _ _ _
      · obtain ⟨hc, ho⟩ := changes_prioritize (T := T) (ha.opened hr nofun) priority
        exact .after hc (yields_completeHeaderBlock (hq.changes hc) ho env false endStream hT.ends
          nofun)

theorem yields_handleHeaders (hi : Inv T p) {f : HeadersFrame}
    (hT : f.endHeaders = true → BlockOk T p env f.streamID f.endStream) :
    Yields T 0 p (p.handleHeaders env f) := by
  unfold handleHeaders
  split_ifs with he hl
  · exact yields_serveHeaderBlock hi env _ _ _ _ (hT he)
  · exact yields_goAwayErr _ _ _
  · refine .of_changes (changes_block fun hcs => ?_)
    cases hcs
    exact Nat.not_lt.mp hl

theorem yields_handleContinuation (hi : Inv T p) {endHeaders : Bool} {fragment : Bytes}
    (hT : endHeaders = true → ∀ {cs}, p.continuationState = some cs → cs.streamID = id →
      BlockOk T p env id cs.endStream) :
        Yields T 0 p (p.handleContinuation env id endHeaders fragment) := by
  unfold handleContinuation
  cases hcs : p.continuationState with
  | none => exact yields_goAwayErr _ _ _
  | some cs =>
    have hd : Changes T 0 p { p with continuationState := none } := changes_block nofun
    dsimp only
    split_ifs with hid hl _ hend
    · exact yields_goAwayErr _ _ _
    · exact .after hd (yields_goAwayErr _ _ _)
    · exact .after hd (yields_goAwayErr _ _ _)
    · refine .of_changes (changes_block fun hn => ?_)
      cases hn
      rw [List.length_append]
      exact Nat.not_lt.mp hl
    · obtain ⟨hf, he, ht⟩ := hT (Bool.not_eq_false _ ▸ hend) hcs (not_not.mp hid)
      exact .after hd (yields_serveHeaderBlock (hi.changes hd) env _ _ _ _ ⟨hf, he, ht⟩)

end

end Processor

end Celeris.H2
