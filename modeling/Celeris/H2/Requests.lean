import Celeris.H2.Events

/-!
# What becomes of a request

A request that has ended is given to a handler in the event that ends it, or its stream
is reset there; between two events of a connection that goes on there is no third kind
(`Settled`). Events that neither begin nor end the request of a stream keep this by
cases on `Change`, and for the one frame that does, the functions of `H2.Processor` are
followed down to `runHandler`.
-/

namespace Celeris.H2

open Manager Transition

def Scope.without (i : Nat) : Scope := { Scope.all with fresh := (· ≠ i), ends := (· ≠ i) }

namespace Processor

variable {T : Scope} {p q : Processor} {i n : Nat}

/-- The request of a stream of the map has begun, and if it has ended it is with a handler. -/
structure Settled (i : Nat) (p : Processor) : Prop where
  begun : i ∈ p.manager.ids → (p.manager.stream i).state.requesting = true →
    (p.manager.stream i).receivedInitialHeaders = true
  ended : i ∈ p.manager.ids → (p.manager.stream i).endStream = true → p.Served i ∨ p.Pooled i

/-! ## Events on other streams -/

namespace Settled

theorem gone (h : i ∉ p.manager.ids) : Settled i p := ⟨fun hm => absurd hm h, fun hm => absurd hm h⟩

/-- A request that a handler has is settled. -/
theorem of_served (hi : Inv T p) (h : p.Served i) : Settled i p where
  begun hm ho := by
    have he := (hi.answers.used h).2 hm
    rw [hi.not_ended ⟨hm, ho⟩] at he
    cases he
  ended _ _ := .inl h

theorem of_pooled (hi : Inv T p) (h : p.Pooled i) : Settled i p where
  begun _ ho := by
    obtain ⟨stage, hm⟩ := h
    exact absurd ho (hi.valid.handlers hm).not_requesting
  ended _ _ := .inr h

/-- What matters of a stream stays. -/
theorem same (h : Settled i p) (hm : i ∈ q.manager.ids → i ∈ p.manager.ids)
    (ho : (q.manager.stream i).state.requesting = true →
      (p.manager.stream i).state.requesting = true)
    (hb : (p.manager.stream i).receivedInitialHeaders = true →
      (q.manager.stream i).receivedInitialHeaders = true)
    (he : (q.manager.stream i).endStream = (p.manager.stream i).endStream)
    (hh : p.Served i ∨ p.Pooled i → q.Served i ∨ q.Pooled i) : Settled i q where
  begun hi hs := hb (h.begun (hm hi) (ho hs))
  ended hi hover := hh (h.ended (hm hi) (he ▸ hover))

/-- Another stream changes. -/
theorem kept (h : Settled i p) (hs : q.manager.stream i = p.manager.stream i)
    (hm : i ∈ q.manager.ids → i ∈ p.manager.ids)
    (hh : p.Served i ∨ p.Pooled i → q.Served i ∨ q.Pooled i) : Settled i q := by
  refine h.same hm ?_ ?_ ?_ hh
  all_goals rw [hs]
  all_goals exact id

theorem apart {j : Nat} (h : Settled i p) (ha : Apart j p.manager q.manager) (hij : i ≠ j)
    (hh : p.Served i ∨ p.Pooled i → q.Served i ∨ q.Pooled i) : Settled i q :=
  h.kept (ha.stream hij) (ha.ids hij).mp hh

/-- A stream changes, but not in what matters. -/
theorem update (h : Settled i p) {j : Nat} {s : Stream}
    (hs : q.manager.stream = Function.update p.manager.stream j s)
    (hi : q.manager.ids ⊆ p.manager.ids)
    (ho : s.state.requesting = true → (p.manager.stream j).state.requesting = true)
    (hb : s.receivedInitialHeaders = (p.manager.stream j).receivedInitialHeaders)
    (he : s.endStream = (p.manager.stream j).endStream)
    (hh : p.Served i ∨ p.Pooled i → q.Served i ∨ q.Pooled i) : Settled i q := by
  by_cases hij : i = j
  · refine h.same (@hi i) ?_ ?_ ?_ hh
    all_goals rw [hs, hij, Function.update_self]
    · exact ho
    · exact hb.trans
    · exact he
  · exact h.kept (by rw [hs, Function.update_of_ne hij]) (@hi i) hh

theorem credits {t : Manager} (h : Settled i p) (hc : Manager.Credits n p.manager t) :
    Settled i { p with manager := t } :=
  h.kept (congrFun hc.stream i) (fun hi => hc.ids ▸ hi) id

end Settled

theorem State.requesting_of_ended {state : State} (h : state.ended.requesting = true) :
    state.requesting = true := by
  cases state with
  | opened | halfClosedLocal => rfl
  | idle | halfClosedRemote | closed => cases h

/-- A change that neither begins nor ends a request leaves it settled. -/
theorem Change.settled (hinv : Inv T p) (h : Change T n p q) (hf : ¬T.fresh i) (he : ¬T.ends i)
    (hp : Settled i p) : Settled i q := by
  have hh : p.Served i ∨ p.Pooled i → q.Served i ∨ q.Pooled i :=
    fun hw => hw.elim (fun hs => .inl (hs.change h)) h.held
  cases h with
  | books hbo => exact hp.kept (by rw [hbo.manager]) (by rw [hbo.manager]; exact id) hh
  | @respond _ t j hr hwho =>
    refine hp.same (fun hi => hr.ids ▸ hi) (fun hopen => hr.state i ▸ hopen) (fun hb => ?_)
      (Stream.endStream_of_core (hr.core_stream i)) hh
    by_cases hij : i = j
    · subst hij
      exact hr.initial hb
    · rw [← hr.others hij] at hb
      exact hb
  | @setState _ j next hj hst hn =>
    refine hp.update rfl (List.Subset.refl _) (fun hopen => ?_) rfl rfl hh
    rcases hn with rfl | rfl
    · cases hopen
    · exact State.requesting_of_ended hopen
  | @leave _ t j resetOpen expiredReq hl hwhy hm =>
    by_cases hij : i = j
    · refine .gone fun hi => ?_
      rw [hij, hl.ids] at hi
      exact hinv.valid.nodup.not_mem_erase hi
    · exact hp.apart (apart_erase hl.ids hl.others) hij hh
  | @opened _ t j hj hodd hj' hopen hfree =>
    have ho := opens_of_tryOpenStream hopen hfree
    exact hp.apart (apart_enter ho.ids ho.stream) (fun hij => hf (hij ▸ hj')) hh
  | @placeholder _ j hfree hj hodd ids =>
    by_cases hij : i = j
    · subst hij
      constructor
      all_goals
        rw [insert_stream_self]
        exact fun _ => nofun
    · exact hp.apart (apart_enter rfl rfl) hij hh
  | @endRequest _ j hj hopen hj' => exact hp.apart apart_endRequest (fun hij => he (hij ▸ hj')) hh
  | credit hc => exact hp.credits hc
  | request | window | dropData | submit
  | handOff => exact hp.update rfl (List.Subset.refl _) id rfl rfl hh
  | retire => exact hp.update rfl List.erase_subset id rfl rfl hh
  | _ => exact hp.same id id id rfl hh

theorem Resizes.settled (h : Resizes p q) (hp : Settled i p) : Settled i q := by
  have hc := h.manager.stream i
  have hw : p.Served i ∨ p.Pooled i ↔ q.Served i ∨ q.Pooled i := by
    unfold Served Pooled
    rw [h.served, h.pool]
  refine hp.same (fun hi => h.manager.ids ▸ hi) (fun ho => Stream.state_of_core hc ▸ ho)
    (fun hb => (h.manager.initial i).trans hb) (Stream.endStream_of_core hc) hw.mp

theorem kept_settled (hf : ¬T.fresh i) (he : ¬T.ends i) : Kept T (Settled i) where
  resizes := Resizes.settled
  change hi h hp := h.settled hi hf he hp
  counts h := ⟨h.begun, h.ended⟩

/-! ## Scopes -/

end Processor

theorem PoolStage.Ok.scope {T T' : Scope} (hT : T.trailers = T'.trailers) {i : Nat} {s : Stream}
    {stage : PoolStage} (h : stage.Ok T i s) : stage.Ok T' i s := by
  cases stage with
  | submitted =>
    rw [PoolStage.Ok, Stream.Accepted] at h ⊢
    rwa [← hT]
  | discarding state | resetting state =>
    cases state with
    | none => trivial
    | some state => exact h
  | _ => exact h

namespace Processor

variable {p q : Processor} {i n : Nat}

/-- The invariant depends on the trailers of a scope only. -/
theorem Inv.scope {T T' : Scope} (h : Inv T p) (hT : T.trailers = T'.trailers) : Inv T' p where
  valid :=
    { h.valid with
      handlers := fun hx =>
        let hok := h.valid.handlers hx
        { hok with stage := hok.stage.scope hT } }
  __ := h

/-! ## The frames of a request -/

def Settles (i : Nat) (r : Result) : Prop := r.2 = none → Settled i r.1

theorem Settles.andThen {r : Result} {next : Processor → Result}
    (h : ∀ {q}, r = (q, none) → Settles i (next q)) : Settles i (andThen r next) := by
  rcases r with ⟨q, _ | err⟩
  · exact h rfl
  · exact nofun

/-- What neither begins nor ends the request leaves it settled. -/
theorem Settles.of_yields {r : Result} (hi : Inv (.without i) p) (h : Yields (.without i) n p r)
    (hp : Settled i p) : Settles i r := by
  obtain ⟨k, hc, -⟩ := h
  have hk : Kept (.without i) (Settled i) := kept_settled (fun h => h rfl) fun h => h rfl
  exact fun _ => hk.changes hi hc hp

theorem not_mem_sendRSTStreamAndMarkClosed (hn : p.manager.ids.Nodup) {code : ErrCode} :
    i ∉ (p.sendRSTStreamAndMarkClosed i code).manager.ids := by
  by_cases hm : i ∈ p.manager.ids
  · rw [(leaves_sendRSTStreamAndMarkClosed hm code).ids]
    exact hn.not_mem_erase
  · rw [sendRSTStreamAndMarkClosed_of_not_mem hm]
    exact hm

theorem markResetOpen_manager (p : Processor) (id : Nat) (clientDone : Bool) :
    (p.markResetOpen id clientDone).manager = p.manager := by
  unfold markResetOpen
  split_ifs <;> rfl

/-- A stream that is reset is settled. -/
theorem settled_reset (hn : p.manager.ids.Nodup) {clientDone : Bool} {code : ErrCode} :
    Settled i ((p.markResetOpen i clientDone).sendRSTStreamAndMarkClosed i code) := by
  refine .gone (not_mem_sendRSTStreamAndMarkClosed ?_)
  rwa [markResetOpen_manager]

theorem settles_refuse (hn : p.manager.ids.Nodup) (env : Env) (kind : RefusalKind)
    (why : Option Cause)
    (clientDone : Bool) (code : ErrCode) : Settles i (p.refuse env kind why i clientDone code) := by
  refine .andThen fun hc _ => ?_
  rw [countRefusal_none hc]
  exact settled_reset (p := { p with refusals := p.refusals.count kind env.now }) hn

/-- A request that may be given to a handler is, or its stream is reset. -/
theorem settled_runHandler (hinv : Inv .all p) (h : Ready .all p i) {env : Env} :
    Settled i (p.runHandler env i) := by
  have hc := changes_runHandler h env
  unfold runHandler at hc ⊢
  dsimp only at hc ⊢
  split_ifs at hc ⊢ with hl hi hca
  · exact .gone (not_mem_sendRSTStreamAndMarkClosed hinv.valid.nodup)
  · exact .of_served (hinv.changes hc) (served_serve p i)
  · rw [h.alive] at hca
    cases hca
  · exact .of_pooled (hinv.changes hc)
      ⟨.submitted, List.mem_append_right _ (List.mem_singleton_self _)⟩

theorem settles_runChecked (hi : Inv .all p) (h : Requesting p i) {env : Env} :
    Settles i ((p.endRequest i).runChecked env i) := by
  unfold runChecked
  dsimp only
  split
  · exact settles_refuse (p := p.endRequest i) hi.valid.nodup env _ _ true _
  · rename_i hok
    rw [endRequest_stream_self] at hok
    exact fun _ => settled_runHandler (hi.changes (changes_endRequest h trivial))
      (hi.ready h (.inl hok))

variable {headers : List Field} {env : Env} {endStream : Bool} {f : Frame}

section

variable (hi : Inv .all p) (h : Requesting p i)

include hi h

theorem settles_completeTrailers (hp : Settled i p) :
    Settles i (p.completeTrailers env i endStream headers) := by
  unfold completeTrailers
  split
  · exact settles_refuse hi.valid.nodup env _ _ true _
  · split_ifs with he
    · obtain ⟨hc, ho, -⟩ := changes_trailers h
      have hi := hi.changes hc
      exact fun _ => settled_runHandler (hi.changes (changes_endRequest ho trivial))
        (hi.ready ho (.inr trivial))
    · exact fun _ => hp.update rfl (List.Subset.refl _) id rfl rfl id

theorem settles_completeHeaders : Settles i (p.completeHeaders env i endStream headers) := by
  obtain ⟨hc, ho⟩ := changes_beginRequest h
  have hb : Settled i (p.beginRequest i headers) := by
    refine ⟨fun _ _ => ?_, fun _ he => ?_⟩
    · simp only [beginRequest, manage, modify_stream_self]
    · rw [(hi.changes hc).not_ended ho] at he
      cases he
  unfold completeHeaders
  split
  · exact settles_refuse hi.valid.nodup env _ _ endStream _
  · split_ifs with hend
    · exact settles_runChecked (hi.changes hc) ho
    · exact fun _ => hb

theorem settles_completeHeaderBlock {trailers : Bool} (hp : trailers = true → Settled i p) :
    Settles i (p.completeHeaderBlock env trailers i endStream) := by
  unfold completeHeaderBlock
  cases hd : env.decoded with
  | failed => exact nofun
  | tooLarge => exact settles_refuse hi.valid.nodup env _ _ endStream _
  | fields headers =>
    split_ifs with ht
    · exact settles_completeTrailers hi h (hp ht)
    · exact settles_completeHeaders hi h

end

theorem settles_decodeRefused (hp : Settled i p) : Settles i (p.decodeRefused env) := by
  unfold decodeRefused
  split_ifs
  · exact nofun
  · exact fun _ => hp

theorem decodeRefused_none (h : p.decodeRefused env = (q, none)) : q = p := by
  unfold decodeRefused at h
  split_ifs at h <;> cases h
  · rfl

theorem settles_refuseStream (hn : p.manager.ids.Nodup) :
    Settles i (p.refuseStream env i endStream) := by
  refine .andThen fun hc => .andThen fun hd _ => ?_
  rw [decodeRefused_none hd, countRefusal_none hc]
  exact settled_reset (p := { p with refusals := p.refusals.count .streamLimit env.now }) hn

/-- A block that is refused leaves the request of the stream as it was. -/
theorem settles_admitHeaders (hn : p.manager.ids.Nodup) (hp : Settled i p) (env : Env)
    (endStream : Bool) (hr : (p.admitHeaders env i endStream).2 = .refused) :
    Settles i (p.admitHeaders env i endStream).1 := by
  have ho : ∀ {p : Processor}, p.manager.ids.Nodup → (p.openStream env i endStream).2 = .refused →
      Settles i (p.openStream env i endStream).1 := by
    intro p hn hr
    unfold openStream at hr ⊢
    split at hr
    · exact settles_refuseStream hn
    · cases hr
  unfold admitHeaders admitNew at hr ⊢
  dsimp only at hr ⊢
  split_ifs at hr ⊢ with hnew hre he hu
  · exact nofun
  · refine settles_decodeRefused ?_
    exact hp.same id id id rfl id
  · split at hr
    · cases hr
    · exact ho hn hr
  · exact ho hn hr

theorem settles_serveHeaderBlock (hi : Inv .all p) (hp : Settled i p)
    {priority : Option Priority} {block : Bytes} :
    Settles i (p.serveHeaderBlock env i endStream priority block) := by
  unfold serveHeaderBlock
  split
  · exact nofun
  · have ha : Admits .all p i (p.admitHeaders env i endStream) :=
      admits_admitHeaders env endStream fun _ => trivial
    have hre := settles_admitHeaders hi.valid.nodup hp env endStream
    generalize p.admitHeaders env i endStream = x at ha hre ⊢
    rcases x with ⟨r, admission⟩
    refine .andThen fun {q} hr => ?_
    have hq : Inv .all q := hi.yields ha.yields hr
    cases admission with
    | refused =>
      intro _
      have hs := hre rfl
      rw [hr] at hs
      exact hs rfl
    | trailers =>
      obtain ⟨hsame, ho, -⟩ := ha.trailers rfl
      have heq : p = q := congrArg Prod.fst (hsame.symm.trans hr)
      subst heq
      exact settles_completeHeaderBlock hq ho fun _ => hp
    | new =>
      split_ifs
      · exact nofun
      · obtain ⟨hc, ho⟩ := changes_prioritize (ha.opened hr nofun) priority
        exact settles_completeHeaderBlock (hq.changes hc) ho nofun

theorem Settled.block (h : Settled i p) {block : Option ContinuationState} :
    Settled i { p with continuationState := block } := ⟨h.begun, h.ended⟩

theorem settles_handleHeaders (hi : Inv .all p) {f : HeadersFrame} (hp : Settled f.streamID p) :
    Settles f.streamID (p.handleHeaders env f) := by
  unfold handleHeaders
  split_ifs
  · exact settles_serveHeaderBlock hi hp
  · exact nofun
  · exact fun _ => hp.block

theorem settles_handleContinuation (hi : Inv .all p) (hp : Settled i p) {endHeaders : Bool}
    {fragment : Bytes} : Settles i (p.handleContinuation env i endHeaders fragment) := by
  unfold handleContinuation
  cases p.continuationState with
  | none => exact nofun
  | some cs =>
    have hd : Changes .all 0 p { p with continuationState := none } := changes_block nofun
    dsimp only
    split_ifs
    · exact nofun
    · exact nofun
    · exact nofun
    · exact fun _ => hp.block
    · exact settles_serveHeaderBlock (hi.changes hd) hp.block

theorem settles_takeData (hi : Inv .all p) {f : DataFrame} (h : Requesting p f.streamID)
    (hp : Settled f.streamID p) : Settles f.streamID (p.takeData env f) := by
  have ha : Settled f.streamID (p.addData f) := hp.update rfl (List.Subset.refl _) id rfl rfl id
  unfold takeData
  dsimp only
  split_ifs with hla he hl
  · refine .andThen fun hr _ => ?_
    have hs := settles_refuse (i := f.streamID) hi.valid.nodup env .bodyLimit
      (some (.bodyTooLarge p.maxRequestBodySize f.streamID)) f.endStream .cancel
    rw [hr] at hs
    exact (hs rfl).credits (credits_conn f.length_lt)
  · obtain ⟨hch, ho⟩ := changes_takeEnd hi h
    exact settles_runChecked (hi.changes hch) ho
  · have hc : (p.addData f).creditData f = _ := if_pos hl
    rw [hc]
    exact fun _ => ha.credits (credits_stream (hi.ne_zero h.mem) f.length_lt false)
  · have hn : (p.addData f).creditData f = p.addData f := if_neg hl
    rw [hn]
    exact fun _ => ha

theorem settles_handleData (hi : Inv .all p) {f : DataFrame} (hp : Settled f.streamID p) :
    Settles f.streamID (p.handleData env f) := by
  unfold handleData
  dsimp only
  split_ifs with hm hcl
  · exact nofun
  · cases hv : validateDataState (p.manager.stream f.streamID).state with
    | some text => exact nofun
    | none =>
      have ho : Requesting p f.streamID := ⟨hm, requesting_of_validateDataState hv⟩
      refine .andThen fun hc => ?_
      have hq := hi.yields yields_countEmptyData hc
      obtain ⟨refusals, rfl⟩ := countEmptyData_none hc
      exact settles_takeData hq ho.refusals ⟨hp.begun, hp.ended⟩
  · exact .of_yields (hi.scope rfl) yields_ignoreData hp

/-! ## Events -/

/-- A frame that may begin or end the request of a stream. -/
def Targets (i : Nat) : Frame → Prop
  | .headers f => f.streamID = i
  | .continuation id _ _ => id = i
  | .data f => f.streamID = i
  | _ => False

theorem settles_handleFrame (hi : Inv .all p) (hp : Settled i p) (hf : Targets i f) :
    Settles i (p.handleFrame env f) := by
  cases f with
  | headers f =>
    cases hf
    unfold handleFrame
    dsimp only
    split_ifs
    · exact nofun
    · exact settles_handleHeaders hi hp
  | data f =>
    cases hf
    unfold handleFrame
    dsimp only
    split_ifs
    · exact nofun
    · exact nofun
    · exact settles_handleData hi hp
  | continuation id endHeaders fragment =>
    cases hf
    exact settles_handleContinuation hi hp
  | _ => exact hf.elim

theorem settles_processFrame (hi : Inv .all p) (hp : Settled i p) (env : Env) (hf : Targets i f) :
    Settles i (p.processFrame env f) := by
  unfold processFrame interrupts
  split
  · dsimp only
    split_ifs
    · exact settles_handleFrame hi hp hf
    · exact nofun
    · exact nofun
  · exact settles_handleFrame hi hp hf

/-- The scope of the frames that neither begin nor end the request of a stream. -/
theorem frameOk_without (hf : ¬Targets i f) : FrameOk (.without i) p env f where
  block {id endStream} hb := by
    have hid : id ≠ i := by
      rintro rfl
      rcases headerBlock_cases hb with ⟨g, rfl, -, -, hid, -⟩ | ⟨cs, fragment, rfl, -⟩
      · exact hf hid
      · exact hf rfl
    exact ⟨fun _ => hid, fun _ => hid, fun _ _ _ _ _ _ => trivial⟩
  ends := by
    rintro data rfl -
    exact hf
  reset _ := trivial
  goAway _ _ _ := trivial

/-- An event after which the connection goes on leaves every request settled. -/
theorem Settled.step {e : Event} (hi : Inv .all p) (h : Processor.step p e = some q)
    (hopen : q.ended = false) (hp : Settled i p) : Settled i q := by
  have hk : Kept (.without i) (Settled i) := kept_settled (fun h => h rfl) fun h => h rfl
  have ho : EventOk (.without i) p e → Settled i q := fun hT => hk.step (hi.scope rfl) hT h hp
  cases e with
  | frame env f =>
    by_cases hf : Targets i f
    · obtain ⟨r, hpr, rfl⟩ := step_frame h hopen
      have hi : Inv .all (p.setHasMoreFrames env.hasMoreFrames) := hi.resizes ⟨.refl _, rfl⟩
      have hs := settles_processFrame hi ⟨hp.begun, hp.ended⟩ env hf
      rw [hpr] at hs
      exact ⟨(hs rfl).begun, (hs rfl).ended⟩
    · exact ho (frameOk_without hf)
  | _ => exact ho trivial

theorem settled_of_runs {cfg : Config}
    (h : Transition.Runs step (fun _ _ => True) (newProcessor cfg) p)
    (ho : p.ended = false) : Settled i p :=
  open_of_runs (P := fun p => ∀ i, Settled i p) (fun _ => .gone (p := newProcessor cfg) nofun)
    (fun hi _ hs ho hp i => (hp i).step hi hs ho) h ho i

/-- Whatever the client sends and however the handlers are scheduled, a stream has at most one
handler in the pool, its cleanup waits for it, and a response is buffered only where a handler was
started; and while the connection goes on a request that has ended has reached a handler or waits
for one. -/
theorem handlers_exclusive {cfg : Config}
    (h : Transition.Runs step (fun _ _ => True) (newProcessor cfg) p) :
    (p.pool.map Prod.fst).Nodup ∧
    (∀ i stage, (i, stage) ∈ p.pool → (p.manager.stream i).asyncRunning = true ∧
      (p.manager.stream i).endStream = true ∧ i ∉ p.pendingInlineCleanup ∧
      (i ∉ p.manager.ids → (p.manager.stream i).state = .closed) ∧
        (stage = .submitted ∨ p.Served i)) ∧
    (∀ i ∈ p.pendingInlineCleanup, (p.manager.stream i).asyncRunning = false ∧ p.Served i) ∧
    ∀ i ∈ p.manager.ids, ((p.manager.stream i).outboundBuffer ≠ [] → p.Served i) ∧
      (p.ended = false → (p.manager.stream i).endStream = true → p.Served i ∨ p.Pooled i) := by
  have hi : Inv .all p := inv_of_runs (fun _ => eventOk_all _ _) h
  refine ⟨hi.valid.unique, fun i stage hm => ?_, fun i hm => ?_, fun i hm => ?_⟩
  · have hp := hi.valid.handlers hm
    exact ⟨hp.async, hp.ended, hp.kept, hp.gone, hi.answers.handlers hm⟩
  · exact ⟨(hi.valid.cleanups hm).async, hi.answers.cleanups hm⟩
  · exact ⟨(hi.answers.streams hm).buffered, fun ho => (settled_of_runs h ho).ended hm⟩

/-- Two requests are handed to the pool, and the handler of the first is started. -/
theorem handlers_exclusive_submitted : let get : List Field :=
      [(ascii ":method", ascii "GET"), (ascii ":scheme", ascii "http"), (ascii ":path", ascii "/")]
    let request (id : Nat) : Event :=
      .frame { decoded := .fields get, routeAsync := true } (.headers ⟨id, true, true, none, [], 0⟩)
    ∃ p, exec step (fun _ _ => True) (newProcessor {}) [request 1, request 3, .pool 0 .start] =
      some p ∧
      p.pool = [(1, .running), (3, .submitted)] ∧ p.Served 1 ∧
        (p.manager.stream 3).asyncRunning = true := by
  intro get request
  obtain ⟨p, he, hp⟩ : ∃ p ∈ exec step (fun _ _ => True) (newProcessor {})
    [request 1, request 3, .pool 0 .start],
      p.pool = [(1, .running), (3, .submitted)] := by decide +kernel
  have h := (handlers_exclusive (runs_of_exec he)).2.1
  exact ⟨p, he, hp, (h 1 .running (by simp [hp])).2.2.2.2.resolve_left nofun,
    (h 3 .submitted (by simp [hp])).1⟩

end Processor

end Celeris.H2
