import Celeris.H2.Frames

/-!
# Events are chains of changes

The steps of the handlers on the pool, what the event loop does beside frames, and with
`H2.Frames` every event of a connection. `step_changes` is what the results about whole
runs start from: an event changes the windows if it is a `SETTINGS` frame, is then a
chain of changes, and counts the flow-controlled length of its frame at the end.
-/

namespace Celeris.H2

open List Manager Option

namespace Processor

variable {T : Scope} {p q : Processor} {t : Manager} {k i : Nat} {stage next : PoolStage}

/-! ## Handlers on the pool -/

/-- The handler goes to another stage, its response having gone on. -/
theorem changes_stage (hk : p.pool[k]? = some (i, stage)) (hs : p.Served i)
    (h : Manager.Responds i 0 p.manager t) (hn : next.Ok T i (p.manager.stream i)) :
    Changes T 0 p { p with manager := t, pool := p.pool.set k (i, next) } :=
  (changes_respond h ⟨hs, .inr ⟨stage, mem_of_getElem? hk⟩⟩).andThen
    (.single (.stage (p := { p with manager := t }) hk (hn.of_core h.stream) hs))

variable {m : Manager} {s : Stream} {env : Env} {f : Frame} {e : Event}

/-- To close a stream that is closed changes nothing. -/
theorem responds_setState_closed (h : (m.stream i).state = .closed) :
    Manager.Responds i 0 m (m.setState i .closed) where
  core := by simp [Manager.setState, Manager.updateActiveCount, Manager.moveCount, Manager.core, h,
    Manager.modify, Manager.setStream]
  others hj := setState_stream_ne m _ hj
  stream := by rw [setState_stream_self, Stream.core, Stream.core, h]
  paid := by
    rw [setState_stream_self]
    exact .of_eq rfl
  pending := Subset.refl _
  initial := by
    rw [setState_stream_self]
    exact id
  held := by
    rw [setState_stream_self]
    rfl
  writes := .of_eq rfl rfl rfl

/-- A handler closes its stream. -/
theorem changes_close (hi : Inv T p) (hk : p.pool[k]? = some (i, stage)) (hs : p.Served i) :
    Changes T 0 p (p.manage (·.setState i .closed)) := by
  have hok := hi.valid.handlers (mem_of_getElem? hk)
  by_cases hm : i ∈ p.manager.ids
  · exact .single (.setState hm hok.isOver.ne_idle (.inl rfl))
  · exact changes_respond (responds_setState_closed (hok.gone hm))
      ⟨hs, .inr ⟨stage, mem_of_getElem? hk⟩⟩

theorem ok_orRunning {stage : Bytes → PoolStage} {rest : Bytes} (h : (stage rest).Ok T i s) :
    (PoolStage.orRunning stage rest).Ok T i s := by
  unfold PoolStage.orRunning
  split_ifs
  · trivial
  · exact h

/-- The steps `executeHandler` makes by itself. -/
theorem changes_advancePool {after : Option PoolStage} (hinv : Inv T p)
    (hk : p.pool[k]? = some (i, stage))
    (hs : p.Served i) (h : p.manager.advancePool i stage = some (t, after)) :
    Changes T 0 p { p with manager := t, pool := setStage p.pool k i after } := by
  have hok := hinv.valid.handlers (mem_of_getElem? hk)
  have hclose {next : PoolStage} (hn : next.Ok T i ((p.manager.setState i .closed).stream i)) :
      Changes T 0 p { p with
        manager := p.manager.setState i .closed, pool := setStage p.pool k i (some next) } :=
    (changes_close hinv hk hs).andThen
      (.single (.stage (p := p.manage (·.setState i .closed)) hk hn hs))
  cases stage with (unfold advancePool at h; dsimp only at h)
  | finishing rest =>
    split at h
    · rename_i hb
      cases h
      exact changes_stage hk hs (responds_tryBufferOutbound hb) trivial
    · cases h
      exact changes_stage hk hs .refl trivial
  | flushing =>
    split_ifs at h <;> cases h
    · exact changes_stage hk hs responds_flushOutbound trivial
    · exact changes_stage hk hs .refl trivial
  | waiting rest =>
    split_ifs at h
    all_goals
      cases h
      exact changes_stage hk hs .refl trivial
  | sending rest =>
    cases h
    exact changes_stage hk hs responds_sendRest (ok_orRunning trivial)
  | writing rest =>
    split at h
    · cases h
      exact changes_stage hk hs .refl trivial
    · rename_i hw
      cases h
      exact changes_stage hk hs (responds_streamWrite hw) (ok_orRunning trivial)
  | settling state =>
    cases h
    refine changes_stage hk hs responds_settleStreamed ?_
    split_ifs
    all_goals exact hok.stage
  | discarding state =>
    cases h
    refine changes_stage hk hs responds_discardOutbound ?_
    cases state <;> exact hok.stage
  | resetting state =>
    cases h
    refine changes_stage hk hs responds_queueReset ?_
    cases state <;> exact hok.stage
  | closing state =>
    split_ifs at h with hst <;> cases h
    · have he : state.ended = .closed := by
        rcases hok.stage with hover | hover <;> (rw [hover]; rfl)
      rw [he]
      exact hclose trivial
    · exact changes_stage hk hs .refl trivial
  | deferred =>
    cases h
    have hfree : (i, PoolStage.submitted) ∉ p.pool := by
      intro hmem
      cases hinv.valid.stage_unique hk hmem
    refine Transition.Chain.andThen (.single (.dropData hok.ended hfree))
      (.single (.stage hk ?_ hs))
    split_ifs <;> trivial
  | handOff =>
    unfold handOffBuffered at h
    split_ifs at h with hmem <;> cases h
    · exact .single (.handOff hk hmem hs)
    · exact changes_stage hk hs .refl trivial
  | retiring =>
    cases h
    exact hclose (congrArg Stream.state (setState_stream_self p.manager i .closed) :)
  | retire =>
    cases h
    exact .single (.retire hk hok.stage hs)
  | submitted | running => cases h

/-- A call of a handler leaves it running, or in a wait. -/
theorem ok_callPool {c : Call} : (m.callPool i c).2.Ok T i s := by
  cases c with
  | writeResponse status body => exact ok_orRunning trivial
  | write data =>
    unfold callPool
    dsimp only
    split
    · trivial
    · exact ok_orRunning trivial
  | _ => trivial

theorem ok_finishPool {ending : Ending} (h : (m.stream i).state.Over) :
    (m.finishPool i ending).2.Ok T i s := by
  cases ending with unfold finishPool
  | returned =>
    dsimp only
    split_ifs
    · trivial
    · exact h
    · exact h
  | _ => split_ifs <;> trivial

theorem changes_stepPool {action : PoolAction} (hi : Inv T p) (h : p.stepPool k action = some q) :
    Changes T 0 p q := by
  obtain ⟨⟨i, stage⟩, hk, h⟩ := bind_eq_some_iff.mp h
  obtain ⟨⟨t, after⟩, hstep, h⟩ := bind_eq_some_iff.mp h
  cases h
  have hok := hi.valid.handlers (mem_of_getElem? hk)
  have hs := (hi.answers.handlers (mem_of_getElem? hk)).resolve_left
  cases action with
  | start =>
    cases stage with
    | submitted =>
      cases hstep
      obtain ⟨hd, ha⟩ := hok.stage
      refine Transition.Chain.andThen (.single (.serve (.inr (mem_of_getElem? hk)) hd ha))
        (.single (.stage (p := p.serve i) hk ?_ (served_serve p i)))
      trivial
    | _ => cases hstep
  | call c =>
    cases stage with
    | running =>
      cases hstep
      exact changes_stage hk (hs nofun) responds_callPool ok_callPool
    | _ => cases hstep
  | finish ending =>
    cases stage with
    | running =>
      cases hstep
      exact changes_stage hk (hs nofun) responds_finishPool (ok_finishPool hok.isOver)
    | _ => cases hstep
  | advance =>
    have had : p.manager.advancePool i stage = some (t, after) := by
      cases stage <;> exact hstep
    refine changes_advancePool hi hk (hs ?_) had
    rintro rfl
    cases hstep
  | timeout =>
    cases stage with
    | waiting rest | writing rest =>
      cases hstep
      exact changes_stage hk (hs nofun) responds_resetStreamOnce trivial
    | _ => cases hstep

/-! ## Beside frames -/

theorem changes_flushInlineCleanup (hinv : Inv T p) : Changes T 0 p p.flushInlineCleanup := by
  refine Transition.Chain.andThen (changes_loop (fun p i => i ∈ p.pendingInlineCleanup)
    (fun _ _ => True)
    (fun {p i} hinv hi => ?_) (fun _ hj => hj) (pairwise_of_forall fun _ _ => trivial) hinv
      fun _ hi => hi)
    (.single (.cleaned [] (nil_subset _)))
  unfold manage
  dsimp only
  split_ifs with hm
  · have hok := hinv.valid.cleanups hi
    rw [hok.closed hm]
    exact changes_leave (leaves_remove hm hok.async) (.inl (hinv.answers.cleanups hi))
  · exact .refl p

theorem marked_expireRequest {deadline : Int} {j : Nat}
    (h : (p.expireRequest i deadline).Marked j) : p.Marked j ∨ j = i := by
  rcases h with h | h
  · exact (ServerResets.has_mark_iff.mp h).1.imp_left .inl
  · obtain ⟨e, he, rfl⟩ := mem_map.mp (requestExpired_iff.mp h)
    rcases mem_cons.mp he with rfl | he
    · exact .inr rfl
    · have hold : e ∈ p.expiredReq := by
        have he := mem_of_mem_filter he
        split_ifs at he
        · exact mem_of_mem_filter he
        · exact he
      exact .inl (.inr (requestExpired_iff.mpr (mem_map_of_mem hold)))

theorem changes_expireRequest (hinv : Inv T p) (hmem : i ∈ p.manager.ids)
    (har : (p.manager.stream i).reqDeadline = true) (deadline : Int) :
    Changes T 0 p (p.expireRequest i deadline) := by
  set t := ((p.manager.cancel i).writeResponseInline i 408 []).write [.rstStream i .noError]
  have ha : Manager.Responds i 0 p.manager t :=
    (responds_cancel.comp (responds_writeResponseInline 408 [])).comp (responds_rstStream _)
  have hl : Manager.Leaves i p.manager (p.expireRequest i deadline).manager := by
    have hh : i ∈ t.ids := ha.ids ▸ hmem
    have ht : (p.expireRequest i deadline).manager = t.take i := if_pos hh
    rw [ht]
    exact .after ha (leaves_take hh)
  have hr : Manager.Reset i (p.expireRequest i deadline).manager := by
    have hs := deleteStream_wire t i
    refine ⟨.noError, mem_append_left _ (mem_append_right _ ?_)⟩
    exact hs.2 ▸ mem_append_right _ (mem_singleton_self _)
  have hle : Change T 0 p { p with
      manager := (p.expireRequest i deadline).manager
      resetOpen := (p.expireRequest i deadline).resetOpen
      expiredReq := (p.expireRequest i deadline).expiredReq } := by
    refine .leave hl (.inr (.inr (.inl hr))) fun {j} hj => ?_
    exact (marked_expireRequest hj).imp_right fun hj => ⟨hj, (hinv.answers.streams hmem).armed har,
      hr⟩
  exact Transition.Chain.andThen (.single hle) (changes_books rfl)

theorem changes_expireWrite (hi : Inv T p) : Changes T 0 p (p.expireWrite i) := by
  refine Transition.Chain.andThen (t := p.manage (·.expireWrite i)) ?_ (changes_books rfl)
  unfold manage Manager.expireWrite
  dsimp only
  split_ifs with hn hc
  · exact .refl p
  all_goals
    have hm := not_not.mp (not_or.mp hn).1
    have hs := (hi.answers.streams hm).buffered (not_or.mp hn).2
  · exact changes_leave (.after (responds_discardOutbound.comp responds_cancel) (leaves_take hm))
      (.inl hs)
  · exact changes_leave (.after ((responds_discardOutbound.comp
      responds_queueReset).comp responds_cancel) (leaves_take hm)) (.inl hs)

theorem changes_dropTombstones {now : Int} : Changes T 0 p (p.dropTombstones now) := by
  refine changes_unmark fun hj => hj.imp_right fun hj => ?_
  obtain ⟨e, he, rfl⟩ := mem_map.mp (requestExpired_iff.mp hj)
  exact requestExpired_iff.mpr (mem_map_of_mem (mem_of_mem_filter he))

/-! ## Events -/

variable (T) in
def EventOk (p : Processor) : Event → Prop
  | .frame env f => FrameOk T p env f
  | _ => True

/-- Nothing need be known. -/
theorem eventOk_all (p : Processor) (e : Event) : EventOk .all p e := by
  cases e with
  | frame env f =>
    exact ⟨fun _ => ⟨fun _ => trivial, fun _ => trivial, fun _ _ _ _ _ _ => trivial⟩,
      fun _ _ => trivial,
      fun _ => trivial, fun _ _ _ => trivial⟩
  | _ => trivial

def Event.length : Event → Nat
  | .frame _ f => flowLength f
  | _ => 0

/-- The state in which an event has changed the windows. -/
def resizedBy (p : Processor) : Event → Processor
  | .frame env f => (p.setHasMoreFrames env.hasMoreFrames).resized env f
  | _ => p

theorem resizes_resizedBy (p : Processor) (e : Event) : Resizes p (p.resizedBy e) := by
  cases e with
  | frame env f =>
    have hr := resizes_resized (p := p.setHasMoreFrames env.hasMoreFrames) env f
    refine ⟨hr.manager, ?_⟩
    rw [resizedBy, hr.rest]
    rfl
  | _ => exact .refl p

/-- The buffers are written out. -/
theorem changes_writeOut : Changes T 0 p (p.manage fun m => m.flushOut.drainWriteQueue) :=
  Transition.Chain.andThen (.single .flushOut) (.single .drain)

variable {o : Output} {cfg : Config}

/-- What is in the buffer of the writer is written out. -/
theorem wire_flushed {wire : List Output} (hw : m.wire = wire) (ho : o ∈ m.outBuf) :
    ∃ before after, m.flushOut.drainWriteQueue.wire = wire ++ before ++ o :: after := by
  obtain ⟨before, after, hout⟩ := append_of_mem ho
  unfold drainWriteQueue flushOut
  rw [hw, hout]
  refine ⟨before, after ++ m.queue, ?_⟩
  simp only [append_assoc, cons_append]

/-- What a frame has made the server write is written out. -/
theorem processH2_wire
    (hw : ((p.setHasMoreFrames env.hasMoreFrames).processFrame env f).1.manager.wire =
      p.manager.wire)
    (ho : o ∈ ((p.setHasMoreFrames env.hasMoreFrames).processFrame env f).1.manager.outBuf) :
    ∃ before after, (p.processH2 env f).manager.wire = p.manager.wire ++ before ++ o :: after :=
  wire_flushed hw ho

/-- What a frame does after which the connection goes on. -/
theorem step_frame (h : step p (.frame env f) = some q) (ho : q.ended = false) :
    ∃ r, (p.setHasMoreFrames env.hasMoreFrames).processFrame env f = (r, none) ∧
      q = { r.manage fun m => m.flushOut.drainWriteQueue with
        received := r.received + flowLength f } := by
  obtain ⟨k, action, hp, -⟩ | ⟨-, hl⟩ := step_cases h
  · cases hp
  · cases hl
    unfold processH2 at ho ⊢
    generalize (p.setHasMoreFrames env.hasMoreFrames).processFrame env f = x at ho ⊢
    rcases x with ⟨r, _ | err⟩
    · refine ⟨r, rfl, ?_⟩
      dsimp only
      rw [isSome_none, Bool.or_false]
      rfl
    · cases (Bool.or_true r.ended).symm.trans ho

/-- Every event is a chain of changes, after what a `SETTINGS` frame does to the windows. -/
theorem step_changes (hinv : Inv T p) (hT : EventOk T p e) (h : step p e = some q) :
    ∃ n u, Changes T n (p.resizedBy e) u ∧ (q.ended = false → n = e.length) ∧
      q = { u with ended := q.ended, received := u.received + e.length } := by
  rcases step_cases h with ⟨k, action, rfl, hp⟩ | ⟨-, hl⟩
  · exact ⟨0, q, changes_stepPool hinv hp, fun _ => rfl, rfl⟩
  · cases e with
    | pool k action => cases hl
    | frame env f =>
      cases hl
      have hinv' : Inv T (p.setHasMoreFrames env.hasMoreFrames) := hinv.resizes ⟨.refl _, rfl⟩
      obtain ⟨n, hc, hw⟩ :=
        yields_processFrame hinv' { hT with block := fun hb => { hT.block hb with } }
      refine ⟨n, _, hc.andThen changes_writeOut, fun ho => hw ?_, rfl⟩
      have herr := (Bool.or_eq_false_iff.mp ho).2
      rwa [isSome_eq_false_iff, isNone_iff_eq_none] at herr
    | readError err =>
      cases hl
      have hg (code : ErrCode) (text : String) :
          Changes T 0 p ((p.sendGoAway p.manager.maxStreamID code text).manage (·.flushOut)) :=
        (changes_sendGoAway (.inl rfl) code text).andThen (.single .flushOut)
      cases err with
      | connection code text => exact ⟨0, _, (hg code text).andThen (.single .drain), fun _ => rfl,
          rfl⟩
      | frameTooLarge text => exact ⟨0, _, (hg _ text).andThen (.single .drain), fun _ => rfl, rfl⟩
      | other => exact ⟨0, _, .single .drain, fun _ => rfl, rfl⟩
    | flushInlineCleanup =>
      cases hl
      exact ⟨0, _, changes_flushInlineCleanup hinv, fun _ => rfl, rfl⟩
    | flushWindowUpdates force =>
      cases hl
      exact ⟨0, _, Transition.Chain.andThen (.single (.credit credits_flushOnly))
        (.single .flushOut), fun _ => rfl, rfl⟩
    | expireRequest id deadline =>
      unfold loopStep at hl
      dsimp only at hl
      split_ifs at hl with ha
      cases hl
      exact ⟨0, _, (changes_expireRequest hinv ha.1 ha.2 deadline).andThen changes_writeOut,
        fun _ => rfl, rfl⟩
    | expireWrite id =>
      cases hl
      exact ⟨0, _, (changes_expireWrite hinv).andThen changes_writeOut, fun _ => rfl, rfl⟩
    | dropTombstones now =>
      cases hl
      exact ⟨0, p.dropTombstones now, changes_dropTombstones, fun _ => rfl, rfl⟩
    | expireHeaderBlock =>
      unfold loopStep at hl
      dsimp only at hl
      split_ifs at hl
      cases hl
      exact ⟨0, _, (changes_sendGoAway (.inl rfl) _ _).andThen changes_writeOut, fun _ => rfl, rfl⟩
    | shutdown =>
      cases hl
      exact ⟨0, _, (changes_sendGoAway (.inr rfl) _ _).andThen (.single .flushOut), fun _ => rfl,
        rfl⟩
    | drain =>
      cases hl
      exact ⟨0, _, .single .drain, fun _ => rfl, rfl⟩

/-! ## Runs -/

theorem inv_newProcessor (cfg : Config) : Inv T (newProcessor cfg) where
  valid := ⟨nodup_nil, nofun, nofun, nodup_nil, nofun⟩
  pending := nofun
  answers := ⟨nofun, nofun, nofun, nofun⟩

theorem Inv.step (hi : Inv T p) (hT : EventOk T p e) (h : step p e = some q) : Inv T q := by
  obtain ⟨n, u, hc, -, hq⟩ := step_changes hi hT h
  have hu := (hi.resizes (resizes_resizedBy p e)).changes hc
  rw [hq]
  exact { hu with answers := { hu.answers with } }

theorem inv_of_runs {ok : Processor → Event → Prop} (hok : ∀ {p e}, ok p e → EventOk T p e)
    (h : Transition.Runs step ok (newProcessor cfg) p) : Inv T p :=
  h.invariant (fun hi he hs => hi.step (hok he) hs) (inv_newProcessor cfg)

variable (T) in
/-- What every change keeps, and the changes of windows that a `SETTINGS` frame makes. -/
structure Kept (P : Processor → Prop) : Prop where
  resizes : ∀ {p q}, Resizes p q → P p → P q
  change : ∀ {n p q}, Inv T p → Change T n p q → P p → P q
  counts : ∀ {p : Processor} {ended : Bool} {received : Nat}, P p →
    P { p with ended := ended, received := received }

namespace Kept

variable {P : Processor → Prop}

theorem changes {n : Nat} (hk : Kept T P) (hi : Inv T p) (hch : Changes T n p q) (hp : P p) : P q :=
  (hch.invariant (P := fun p => Inv T p ∧ P p) (fun ⟨hi, hp⟩ hc => ⟨hc.inv hi, hk.change hi hc hp⟩)
    ⟨hi, hp⟩).2

theorem step (hk : Kept T P) (hi : Inv T p) (hT : EventOk T p e)
    (h : Processor.step p e = some q) (hp : P p) : P q := by
  obtain ⟨n, u, hc, -, hq⟩ := step_changes hi hT h
  have hr := resizes_resizedBy p e
  rw [hq]
  exact hk.counts (hk.changes (hi.resizes hr) hc (hk.resizes hr hp))

theorem runs {ok : Processor → Event → Prop} (hk : Kept T P) (hok : ∀ {p e}, ok p e → EventOk T p e)
    (hi : Inv T p) (hp : P p) (h : Transition.Runs Processor.step ok p q) : Inv T q ∧ P q :=
  h.invariant (P := fun q => Inv T q ∧ P q)
    (fun ⟨hi, hp⟩ he hs => ⟨hi.step (hok he) hs, hk.step hi (hok he) hs hp⟩) ⟨hi, hp⟩

end Kept

theorem not_ended_of_step (h : step p e = some q) (ho : q.ended = false) : p.ended = false := by
  rcases step_cases h with ⟨k, action, -, hpool⟩ | ⟨hp, -⟩
  · obtain ⟨⟨i, stage⟩, -, hpool⟩ := bind_eq_some_iff.mp hpool
    obtain ⟨⟨t, after⟩, -, hpool⟩ := bind_eq_some_iff.mp hpool
    cases hpool
    rw [← ho]
    split_ifs <;> rfl
  · exact hp

/-- What events keep that do not end the connection holds while it goes on. -/
theorem open_of_runs {P : Processor → Prop} (hi : P (newProcessor cfg))
    (hs : ∀ {p q : Processor} {e : Event}, Inv .all p → EventOk .all p e →
      Processor.step p e = some q → q.ended = false → P p → P q)
    (h : Transition.Runs Processor.step (fun _ _ => True) (newProcessor cfg) p)
    (ho : p.ended = false) : P p := by
  refine (h.invariant (P := fun p => Inv .all p ∧ (p.ended = false → P p)) ?_
    ⟨inv_newProcessor cfg, fun _ => hi⟩).2 ho
  rintro p q e ⟨hinv, hp⟩ - hone
  exact ⟨hinv.step (eventOk_all p e) hone, fun hq =>
    hs hinv (eventOk_all p e) hone hq (hp (not_ended_of_step hone hq))⟩

end Processor

end Celeris.H2
