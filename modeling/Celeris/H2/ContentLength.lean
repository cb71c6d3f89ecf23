import Celeris.Conn.Client
import Celeris.H2.Events

/-!
# The content-length of a request

A request that ends with its header block or with `DATA` reaches a handler only if every
content-length it has is the length of its body. `parseUint` computes in a Go `int`, so
what it says of a value is the value modulo `2^64`.

A request whose content-length is wrong is malformed: its stream is reset with
`PROTOCOL_ERROR`, or, past the budget for such requests, the connection ends. Either way
no handler sees it, then or later.
-/

namespace Celeris.H2

open List Option Transition Manager

/-! ## Lengths -/

def readLength (v : Bytes) : Option Nat := Client.readNumber 10 H1.decDigit v

/-- Every content-length among the fields is a number, and one below `2^64` is the length
of the body. -/
def Declares (headers : List Field) (length : Nat) : Prop :=
  ∀ f ∈ headers, f.1 = ascii "content-length" → ∃ n ∈ readLength f.2, n < 2 ^ 64 → n = length

instance (headers : List Field) (length : Nat) : Decidable (Declares headers length) :=
  inferInstanceAs (Decidable (∀ f ∈ headers, f.1 = ascii "content-length" →
    ∃ n ∈ readLength f.2, n < 2 ^ 64 → n = length))

theorem int64_push {n d : Nat} : int64 (int64 n * 10 + d) = int64 ((n * 10 + d : Nat) : Int) := by
  unfold int64
  push_cast
  rw [Int.add_bmod, Int.bmod_mul_bmod, ← Int.add_bmod]

/-- The loop of `parseUint` keeps the number read so far, modulo `2^64`. -/
theorem parseDigits_int64 (n : Nat) {v : Bytes} : parseDigits (int64 n) v =
    (v.foldlM (fun n c => (H1.decDigit c).map fun d => n * 10 + d) n).map
      fun n : Nat => int64 n := by
  induction v generalizing n with
  | nil => rfl
  | cons c v ih =>
    rw [parseDigits, foldlM_cons, H1.decDigit, H1.isDigit]
    by_cases hc : 0x30 ≤ c ∧ c ≤ 0x39
    · have hd : ¬(c < 0x30 ∨ c > 0x39) := not_or.mpr ⟨UInt8.not_lt.mpr hc.1, UInt8.not_lt.mpr hc.2⟩
      rw [if_neg hd, int64_push, ih, if_pos (by simpa using hc)]
      rfl
    · have ho : c < 0x30 ∨ c > 0x39 := by
        rcases not_and_or.mp hc with h | h
        · exact .inl (UInt8.not_le.mp h)
        · exact .inr (UInt8.not_le.mp h)
      rw [if_pos ho, if_neg (by simpa using hc)]
      rfl

theorem parseUint_eq {v : Bytes} : parseUint v = (readLength v).map fun n : Nat => int64 n := by
  cases v with
  | nil => rfl
  | cons c v => exact parseDigits_int64 0

theorem eq_of_int64 {n length : Nat} (hn : n < 2 ^ 64) (h : int64 n = length) : n = length := by
  rw [int64, Int.bmod_def, Int.emod_eq_of_lt (by omega) (by omega)] at h
  split_ifs at h <;> omega

/-- A check of every element of a list passes when it does for each of them. -/
theorem forM_eq_ok {α ε : Type} {f : α → Except ε Unit} {l : List α} :
    l.forM f = .ok () ↔ ∀ x ∈ l, f x = .ok () := by
  induction l with
  | nil => exact ⟨fun _ => nofun, fun _ => rfl⟩
  | cons x l ih =>
    rw [forall_mem_cons, ← ih]
    show (f x >>= fun _ => l.forM f) = .ok () ↔ _
    cases f x with
    | error e => exact ⟨nofun, fun h => nomatch h.1⟩
    | ok _ => exact ⟨fun h => ⟨rfl, h⟩, fun h => h.2⟩

theorem declares_of_validate {headers : List Field} {length : Nat}
    (h : validateContentLength headers length = .ok ()) : Declares headers length := by
  intro f hf hname
  have hc := forM_eq_ok.mp h f hf
  rw [if_pos hname, parseUint_eq] at hc
  cases hr : readLength f.2 with
  | none =>
    rw [hr] at hc
    cases hc
  | some n =>
    rw [hr, map_some] at hc
    refine ⟨n, rfl, fun hn => eq_of_int64 hn ?_⟩
    by_contra hne
    dsimp only at hc
    rw [if_pos hne] at hc
    cases hc

namespace Processor

/-! ## Requests that handlers see -/

/-- The next header block of a stream is its trailer block. -/
def awaitsTrailers (p : Processor) (i : Nat) : Bool :=
  decide (i ∈ p.manager.ids) && (p.manager.stream i).state.requesting &&
    (p.manager.stream i).receivedInitialHeaders

/-- An event ends the request on a stream with a trailer block. -/
def endsWithTrailers (p : Processor) (i : Nat) : Event → Bool
  | .frame _ (.headers f) => f.endHeaders && f.endStream && decide (f.streamID = i) &&
      p.awaitsTrailers i
  | .frame _ (.continuation id endHeaders _) =>
    endHeaders && p.continuationState.any (·.endStream) && decide (id = i) && p.awaitsTrailers i
  | _ => false

section

variable {T : Scope} {p q : Processor} {i n : Nat}

def Scope.otherTrailers (i : Nat) : Scope := { Scope.all with trailers := fun j _ _ => j ≠ i }

variable {env : Env} {id length : Nat} {f : Frame} {headers : List Field}

theorem blockOk_of_other {endStream : Bool}
    (h : endStream = true → id = i → p.awaitsTrailers i = false) :
    BlockOk (Scope.otherTrailers i) p env id endStream := by
  refine ⟨fun _ => trivial, fun _ => trivial, ?_⟩
  intro he hm ho hi _ _ heq
  have ha := h he heq
  rw [← heq, awaitsTrailers, decide_eq_true hm, ho, hi] at ha
  cases ha

/-- Only a request that ends with trailers is not checked. -/
theorem eventOk_of_other {e : Event} (h : p.endsWithTrailers i e = false) :
    EventOk (Scope.otherTrailers i) p e := by
  cases e with
  | frame env f =>
    refine ⟨fun hb => blockOk_of_other fun he hid => ?_, fun _ _ => trivial, fun _ => trivial,
      fun _ _ _ => trivial⟩
    rcases headerBlock_cases hb with ⟨g, rfl, -, hw, rfl, rfl⟩ | ⟨cs, fragment, rfl, hcs, -, rfl⟩
    · simpa [endsWithTrailers, hw, he, hid] using h
    · simpa [endsWithTrailers, hcs, he, hid] using h
  | _ => trivial

variable (T) in
/-- Every request a handler was started on was whole, and checked unless it ended with
trailers. -/
def Checked (p : Processor) : Prop :=
  ∀ r ∈ p.served, r.data.length = r.received ∧
    (validateContentLength r.headers r.received = .ok () ∨ T.trailers r.id r.headers r.received)

theorem kept_checked : Kept T (Checked T) where
  resizes hr h := by rwa [Checked, hr.served]
  change _ hc h := by
    rcases hc.served with hs | ⟨i, -, hd, ha, rfl⟩
    · rwa [Checked, hs]
    · exact forall_mem_append.mpr ⟨h, forall_mem_singleton.mpr ⟨hd, ha⟩⟩
  counts h := h

/-! ## Requests that no handler sees -/

/-- No handler was started on a stream, nor will be. -/
structure Unseen (i : Nat) (p : Processor) : Prop where
  free : ∀ stage, (i, stage) ∉ p.pool
  unserved : ∀ r ∈ p.served, r.id ≠ i

/-- The client has used an identifier, and its stream has left unseen. -/
structure Gone (i : Nat) (p : Processor) : Prop extends Unseen i p where
  passed : i ≤ p.manager.lastClientStream
  left : i ∉ p.manager.ids

theorem kept_gone : Kept T (Gone i) where
  resizes hr h := by
    refine ⟨⟨?_, ?_⟩, ?_, ?_⟩
    · rw [hr.pool]
      exact h.free
    · rw [hr.served]
      exact h.unserved
    · exact h.passed.trans hr.manager.lastClientStream.ge
    · rw [hr.manager.ids]
      exact h.left
  change {n p q} hi hc h := by
    obtain ⟨hp, hk⟩ := hc.passed hi.valid.nodup h.passed
    refine ⟨⟨fun stage hm => ?_, ?_⟩, hp, fun hm => h.left (hk hm).1⟩
    · rcases hc.pooled hm with ⟨hm, -⟩ | ⟨before, hm, -⟩
      · exact h.left hm
      · exact h.free before hm
    · rcases hc.served with hs | ⟨j, hj, -, -, rfl⟩
      · rw [hs]
        exact h.unserved
      · refine forall_mem_append.mpr ⟨h.unserved, forall_mem_singleton.mpr ?_⟩
        rintro rfl
        rcases hj with ⟨hm, -⟩ | hm
        · exact h.left hm
        · exact h.free _ hm
  counts h := { h with }

/-- A connection that has ended goes on with the handlers on the pool only. -/
theorem Unseen.step_ended {e : Event} (h : Unseen i p) (he : p.ended = true)
    (hs : step p e = some q) : Unseen i q ∧ q.ended = true := by
  rcases step_cases hs with ⟨k, action, -, hp⟩ | ⟨ho, -⟩
  · obtain ⟨⟨j, stage⟩, hk, hp⟩ := bind_eq_some_iff.mp hp
    obtain ⟨⟨t, after⟩, -, hp⟩ := bind_eq_some_iff.mp hp
    have hj : j ≠ i := by
      rintro rfl
      exact h.free stage (mem_of_getElem? hk)
    cases hp
    refine ⟨⟨fun stage hm => ?_, ?_⟩, ?_⟩
    · cases after with
      | none => exact h.free stage (mem_of_mem_eraseIdx hm)
      | some next =>
        rcases mem_or_eq_of_mem_set hm with hm | heq
        · exact h.free stage hm
        · cases heq
          exact hj rfl
    · split_ifs
      · exact forall_mem_append.mpr ⟨h.unserved, forall_mem_singleton.mpr hj⟩
      · exact h.unserved
    · split_ifs <;> exact he
  · rw [he] at ho
    cases ho

/-- A request whose stream has left unseen, or with which the connection ended, stays unseen. -/
theorem unseen_of_runs (hi : Inv .all p) (h : Gone i p ∨ Unseen i p ∧ p.ended = true)
    (hr : Transition.Runs step (fun _ _ => True) p q) : Unseen i q := by
  rcases h with hg | hu
  · exact (kept_gone.runs (fun _ => eventOk_all _ _) hi hg hr).2.toUnseen
  · exact (hr.invariant (P := fun q => Unseen i q ∧ q.ended = true)
      (fun ⟨h, he⟩ _ hs => h.step_ended he hs) hu).1

/-! ## Requests whose content-length is wrong -/

/-- The server opens a stream for a header block, and decodes it. -/
structure TakesBlock (p : Processor) (env : Env) (id : Nat) (dependency : Option Nat)
    (block : Bytes) (fields : List Field) : Prop where
  odd : id % 2 = 1
  fresh : p.manager.lastClientStream < id
  room : p.manager.activeStreams < p.manager.maxStreams
  small : block.length ≤ p.headerListMax * 4
  other : dependency ≠ some id
  decoded : env.decoded = .fields fields

/-- A frame ends a request, with its header block or with `DATA`, within the limits of the
server: the stream, the fields of the request and the length of its body. -/
inductive Completes (p : Processor) (env : Env) : Frame → Nat → List Field → Nat → Prop
  | headers {f : HeadersFrame} {fields : List Field} (hstart : p.continuationState = none)
      (hlength : f.length ≤ p.manager.localMaxFrameSize) (hend : f.endStream = true)
      (hwhole : f.endHeaders = true)
        (hblock : TakesBlock p env f.streamID f.dependency f.fragment fields) :
      Completes p env (.headers f) f.streamID fields 0
  | continuation {cs : ContinuationState} {fragment : Bytes} {fields : List Field}
      (hcs : p.continuationState = some cs) (hend : cs.endStream = true)
      (hfew : cs.continuations < maxContinuationFrames)
      (hblock : TakesBlock p env cs.streamID cs.dependency (cs.headerBlock ++ fragment) fields) :
      Completes p env (.continuation cs.streamID true fragment) cs.streamID fields 0
  | data {f : DataFrame} (hstart : p.continuationState = none)
      (hlength : f.length ≤ p.manager.localMaxFrameSize) (hend : f.endStream = true)
      (hmem : f.streamID ∈ p.manager.ids)
        (hopen : (p.manager.stream f.streamID).state.requesting = true)
      (hlimit : p.maxRequestBodySize = 0 ∨
        (p.manager.stream f.streamID).receivedDataLen + f.data.length ≤ p.maxRequestBodySize) :
      Completes p env (.data f) f.streamID (p.manager.stream f.streamID).headers
        ((p.manager.stream f.streamID).receivedDataLen + f.data.length)

/-- A request has ended on a stream, and no handler was started since. -/
structure Ended (p : Processor) (id : Nat) (u : Processor) : Prop where
  mem : id ∈ u.manager.ids
  nodup : u.manager.ids.Nodup
  passed : id ≤ u.manager.lastClientStream
  wire : u.manager.wire = p.manager.wire
  refusals : u.refusals = p.refusals
  pool : u.pool = p.pool
  served : u.served = p.served
  ended : u.ended = p.ended

/-- A frame is answered as one that ends a malformed request. -/
def Rejects (p : Processor) (env : Env) (id : Nat) (r : Result) : Prop :=
  ∃ u why, Ended p id u ∧ r = u.refuseMalformed env id true why

theorem runChecked_eq (h : ¬Declares (p.manager.stream id).headers
    (p.manager.stream id).receivedDataLen) :
    ∃ why, p.runChecked env id = p.refuseMalformed env id true why := by
  unfold runChecked
  dsimp only
  cases hc : validateContentLength (p.manager.stream id).headers
    (p.manager.stream id).receivedDataLen with
  | ok _ => exact absurd (declares_of_validate hc) h
  | error e => exact ⟨.contentLength e, rfl⟩

theorem creditData_eq {f : DataFrame} :
    ∃ conn streams, p.creditData f = { p with manager := { p.manager with
    pendingConnWindowUpdate := conn, pendingStreamUpdates := streams } } := by
  unfold creditData manage accumulateWindowUpdate
  split_ifs
  all_goals exact ⟨_, _, rfl⟩

theorem rejects_takeData {f : DataFrame} (hinv : Inv T p) (hend : f.endStream = true)
    (hmem : f.streamID ∈ p.manager.ids) (ho : (p.manager.stream f.streamID).state.requesting = true)
    (hl : p.maxRequestBodySize = 0 ∨
      (p.manager.stream f.streamID).receivedDataLen + f.data.length ≤ p.maxRequestBodySize)
    (h : ¬Declares (p.manager.stream f.streamID).headers
      ((p.manager.stream f.streamID).receivedDataLen + f.data.length)) :
    Rejects p env f.streamID (p.takeData env f) := by
  obtain ⟨conn, streams, hc⟩ := creditData_eq (p := p.addData f)
  have hs : ¬(p.maxRequestBodySize > 0 ∧
      (p.manager.stream f.streamID).receivedDataLen + f.data.length > p.maxRequestBodySize) := by
    omega
  unfold takeData
  rw [if_neg hs, if_pos hend, hc]
  generalize hw : disarmRequest _ f.streamID = w
  have hself : w.manager.stream f.streamID = { p.manager.stream f.streamID with
      receivedDataLen := (p.manager.stream f.streamID).receivedDataLen + f.data.length
      data := (p.manager.stream f.streamID).data ++ f.data, reqDeadline := false } := by
    rw [← hw]
    simp [disarmRequest, manage, Manager.disarmRequest, Manager.flushWindowUpdates, addData]
  have hwr : ¬Declares ((w.endRequest f.streamID).manager.stream f.streamID).headers
      ((w.endRequest f.streamID).manager.stream f.streamID).receivedDataLen := by
    rw [endRequest_stream_self, hself]
    exact h
  obtain ⟨why, hr⟩ := runChecked_eq (p := w.endRequest f.streamID) hwr
  refine ⟨w.endRequest f.streamID, why, ?_, hr⟩
  rw [← hw]
  have hok := hinv.valid.streams hmem
  refine ⟨hmem, hinv.valid.nodup, hok.known ?_, rfl, rfl, rfl, rfl, rfl⟩
  intro hi
  rw [hi] at ho
  cases ho

theorem admitHeaders_fresh (hinv : Inv T p) (ho : id % 2 = 1)
    (hf : p.manager.lastClientStream < id) (hr : p.manager.activeStreams < p.manager.maxStreams) :
    ∃ m, p.admitHeaders env id true = (({ p with manager := m }, none), .new) ∧
      Opens id { p.manager with lastClientStream := id } m ∧ m.wire = p.manager.wire := by
  have hfree : id ∈ p.manager.ids → (p.manager.stream id).state = .idle := by
    intro hm
    by_contra hs
    exact absurd ((hinv.valid.streams hm).known hs) (not_le.mpr hf)
  have hn : id ∉ p.manager.ids ∨ (p.manager.stream id).state = .idle := by
    by_cases hm : id ∈ p.manager.ids
    · exact .inr (hfree hm)
    · exact .inl hm
  have hi : ¬(id ∈ p.manager.ids ∧ (p.manager.stream id).state.active = true) := by
    rintro ⟨hm, ha⟩
    rw [hfree hm] at ha
    cases ha
  have hv : validateStreamID id p.manager.lastClientStream = none := by
    unfold validateStreamID
    rw [if_neg (by omega), if_neg (by omega), if_neg (by omega)]
  obtain ⟨m, ht, hw⟩ : ∃ m, { p.manager with lastClientStream := id }.tryOpenStream id = some m ∧
      m.wire = p.manager.wire := by
    unfold tryOpenStream
    rw [if_neg hi, if_neg (by simpa using hr)]
    exact ⟨_, rfl, rfl⟩
  refine ⟨m, ?_, opens_of_tryOpenStream ht hfree, hw⟩
  unfold admitHeaders admitNew
  rw [if_pos hn, if_neg (by omega), if_neg (by omega), hv]
  unfold openStream manage
  rw [ht]
  rfl

theorem rejects_completeHeaders {fields : List Field} {m : Manager} (hi : Inv T p)
    (hodd : id % 2 = 1)
    (ho : Opens id { p.manager with lastClientStream := id } m) (hwire : m.wire = p.manager.wire)
    (h : ¬Declares fields 0) :
    Rejects p env id (completeHeaders { p with manager := m } env id true fields) := by
  have hids := ho.ids
  have he : Ended p id { p with manager := m } := by
    refine ⟨?_, ?_, ?_, hwire, rfl, rfl, rfl, rfl⟩
    · rw [hids]
      split_ifs with hm
      · exact hm
      · exact mem_cons_self
    · rw [hids]
      split_ifs with hm
      · exact hi.valid.nodup
      · exact nodup_cons.mpr ⟨hm, hi.valid.nodup⟩
    · rw [ho.lastClientStream, if_pos hodd]
  unfold completeHeaders
  cases validateRequestHeaders fields with
  | error e => exact ⟨_, _, he, rfl⟩
  | ok _ =>
    generalize hw : manage (addHeaders { p with manager := m } id fields) _ = w
    have hs : (w.manager.stream id).headers = fields ∧
        (w.manager.stream id).receivedDataLen = 0 := by
      rw [← hw]
      simp only [addHeaders, manage, modify_stream_self, ho.stream, Function.update_self]
      exact ⟨rfl, rfl⟩
    have hwr : ¬Declares ((w.endRequest id).manager.stream id).headers
        ((w.endRequest id).manager.stream id).receivedDataLen := by
      rw [endRequest_stream_self]
      rwa [hs.1, hs.2]
    obtain ⟨why, hr⟩ := runChecked_eq (p := w.endRequest id) hwr
    refine ⟨w.endRequest id, why, ?_, hr⟩
    rw [← hw]
    exact { he with }

theorem rejects_serveHeaderBlock {priority : Option Priority} {block : Bytes} {fields : List Field}
    (hi : Inv T p) (hb : TakesBlock p env id (priority.map Priority.streamDependency) block fields)
    (h : ¬Declares fields 0) :
    Rejects p env id (p.serveHeaderBlock env id true priority block) := by
  obtain ⟨m, ha, ho, hw⟩ := admitHeaders_fresh hi hb.odd hb.fresh hb.room
  unfold serveHeaderBlock
  rw [if_neg (not_lt.mpr hb.small), ha]
  dsimp only [andThen]
  rw [if_neg hb.other]
  unfold completeHeaderBlock
  rw [hb.decoded]
  cases priority with
  | none => exact rejects_completeHeaders hi hb.odd ho hw h
  | some priority => exact rejects_completeHeaders hi hb.odd { ho with } hw h

theorem rejects_processFrame (hinv : Inv T p)
    (hc : Completes p env f id headers length) (h : ¬Declares headers length) :
    Rejects p env id (p.processFrame env f) := by
  unfold processFrame
  cases hc with
  | @headers f _ hst hl hend hw hb =>
    rw [hst]
    dsimp only [handleFrame]
    rw [if_neg (not_lt.mpr hl)]
    unfold handleHeaders
    rw [if_pos hw, hend]
    exact rejects_serveHeaderBlock hinv hb h
  | @continuation cs fragment _ hcs hend hfew hb =>
    have hco : continues cs.streamID (.continuation cs.streamID true fragment) = true :=
      decide_eq_true rfl
    have hsm := hb.small
    rw [length_append] at hsm
    rw [hcs]
    dsimp only
    rw [if_pos hco]
    dsimp only [handleFrame]
    unfold handleContinuation
    rw [hcs]
    dsimp only
    rw [if_neg (not_not.mpr rfl), if_neg (not_lt.mpr hsm), if_neg (not_lt.mpr hfew),
      if_neg (by decide), hend]
    have hd : Inv T { p with continuationState := none } := hinv.changes (changes_block nofun)
    have ht : TakesBlock { p with continuationState := none } env cs.streamID cs.dependency
        (cs.headerBlock ++ fragment) headers :=
      { hb with }
    obtain ⟨u, why, he, hr⟩ := rejects_serveHeaderBlock hd ht h
    exact ⟨u, why, { he with }, hr⟩
  | @data f hst hl hend hmem ho hli =>
    rw [hst]
    dsimp only [handleFrame]
    rw [if_neg (not_lt.mpr hl)]
    unfold handleData
    have hem : p.countEmptyData env f = (p, none) := if_neg (by simp [hend])
    have hstate : (p.manager.stream f.streamID).state ≠ .closed ∧
        validateDataState (p.manager.stream f.streamID).state = none := by
      cases hs : (p.manager.stream f.streamID).state with
      | opened | halfClosedLocal => exact ⟨nofun, rfl⟩
      | _ =>
        rw [hs] at ho
        cases ho
    rw [if_neg (not_not.mpr hmem), if_neg hstate.1, hstate.2, hem]
    exact rejects_takeData hinv hend hmem ho hli h

/-- A malformed request is reset, or ends the connection when it is one too many. -/
theorem Rejects.answer {r : Result} (h : Rejects p env id r) :
    r.1.served = p.served ∧ r.1.pool = p.pool ∧ r.1.manager.wire = p.manager.wire ∧
    if (p.refusals.count .malformed env.now).refused .malformed ≤ 100 then
      r.2 = none ∧ r.1.ended = p.ended ∧ Output.rstStream id .protocolError ∈ r.1.manager.outBuf ∧
        id ≤ r.1.manager.lastClientStream ∧ id ∉ r.1.manager.ids
    else r.2.isSome ∧ ∃ last text, Output.goAway last .enhanceYourCalm text ∈
      r.1.manager.outBuf := by
  obtain ⟨u, why, he, rfl⟩ := h
  unfold refuseMalformed refuse countRefusal
  rw [he.refusals]
  by_cases hb : (p.refusals.count .malformed env.now).refused .malformed ≤ 100
  · rw [if_neg (show ¬(p.refusals.count .malformed env.now).refused .malformed >
      RefusalKind.malformed.burstMax from not_lt.mpr hb), if_pos hb]
    dsimp only [andThen]
    generalize hw : markResetOpen _ id true = w
    have hsame : w.served = u.served ∧ w.pool = u.pool ∧ w.ended = u.ended ∧
        w.manager = u.manager := by
      rw [← hw]
      exact ⟨rfl, rfl, rfl, rfl⟩
    obtain ⟨hs, hp, ho, hm⟩ := hsame
    obtain ⟨hwire, hout⟩ := sendRSTStreamAndMarkClosed_wire w id .protocolError
    have hl := leaves_sendRSTStreamAndMarkClosed (p := w) (hm ▸ he.mem) .protocolError
    rw [hm] at hwire hout hl
    refine ⟨hs.trans he.served, hp.trans he.pool, hwire.trans he.wire, rfl, ho.trans he.ended, ?_,
      ?_, ?_⟩
    · rw [hout]
      exact mem_append_right _ (mem_singleton.mpr rfl)
    · exact he.passed.trans (congrArg lastClientStream hl.frame :).ge
    · rw [hl.ids]
      exact he.nodup.not_mem_erase
  · rw [if_pos (show (p.refusals.count .malformed env.now).refused .malformed >
      RefusalKind.malformed.burstMax from not_le.mp hb), if_neg hb]
    exact ⟨he.served, he.pool, he.wire, rfl, _, _, mem_append_right _ (mem_singleton.mpr rfl)⟩

/-- No handler was started on a request that a frame ends. -/
theorem unseen_of_completes (hi : Inv T p) (h : Completes p env f id headers length) :
    Unseen id p := by
  have hf : p.manager.lastClientStream < id → Unseen id p := by
    intro hlast
    refine ⟨fun stage hm => ?_, fun r hr hid => ?_⟩
    · exact absurd (hi.valid.handlers hm).known (not_le.mpr hlast)
    · exact absurd (hi.answers.used ⟨r, hr, hid⟩).1 (not_le.mpr hlast)
  cases h with
  | headers hs hl hend hw hb | continuation hcs hend hfew hb => exact hf hb.fresh
  | data hs hl hend hm ho hli =>
    have hre : Requesting p _ := ⟨hm, ho⟩
    refine ⟨(hi.valid.free_of_requesting hm ho).1, fun r hr hid => ?_⟩
    have he := (hi.answers.used ⟨r, hr, hid⟩).2 hm
    rw [hi.not_ended hre] at he
    cases he

theorem Completes.setHasMoreFrames (h : Completes p env f id headers length) {v : Bool} :
    Completes (p.setHasMoreFrames v) env f id headers length := by
  cases h with
  | headers hs hl he hw hb =>
    exact .headers hs hl he hw { hb with }
  | continuation hcs he hf hb =>
    exact .continuation hcs he hf { hb with }
  | data hs hl he hm ho hli => exact .data hs hl he hm ho hli

end

/-- Whatever the frames and the handlers. A handler that starts on a request that has not
ended with trailers has the whole body, and every content-length of the request is a
number, and the length of the body if it is below `2^64`. A request that ends with its
header block or with `DATA`, within the limits of the server, and has a content-length
that is not so is reset with `PROTOCOL_ERROR`, or, when the peer has sent more than 100
malformed requests in this second, ends the connection with `ENHANCE_YOUR_CALM`; no
handler ever sees it. -/
theorem contentLength_enforced {cfg : Config} {p : Processor} :
    (∀ {i}, Transition.Runs step (fun p e => p.endsWithTrailers i e = false) (newProcessor cfg) p →
      ∀ r ∈ p.served, r.id = i → r.data.length = r.received ∧ Declares r.headers r.received) ∧
    (Transition.Runs step (fun _ _ => True) (newProcessor cfg) p →
      ∀ {env f id headers length q}, Completes p env f id headers length →
        ¬Declares headers length → step p (.frame env f) = some q →
        (∃ before o after, q.manager.wire = p.manager.wire ++ before ++ o :: after ∧
          if (p.refusals.count .malformed env.now).refused .malformed ≤ 100 then
            o = .rstStream id .protocolError ∧ id ∉ q.manager.ids ∧ q.ended = false
          else (∃ last text, o = .goAway last .enhanceYourCalm text) ∧ q.ended = true) ∧
        ∀ {t}, Transition.Runs step (fun _ _ => True) q t → ∀ r ∈ t.served, r.id ≠ id) := by
  refine ⟨fun {i} h r hr hid => ?_, fun h env f id headers length q hc hw hstep => ?_⟩
  · obtain ⟨-, hch⟩ :=
      kept_checked.runs (T := Scope.otherTrailers i) eventOk_of_other (inv_newProcessor cfg) nofun h
    obtain ⟨hdata, hv | ho⟩ := hch r hr
    · exact ⟨hdata, declares_of_validate hv⟩
    · exact absurd hid ho
  · have hinv : Inv .all p := inv_of_runs (fun _ => eventOk_all _ _) h
    have hinv' : Inv .all q := hinv.step (eventOk_all p _) hstep
    have hu := unseen_of_completes hinv hc
    rcases step_cases hstep with ⟨_, _, hpool, -⟩ | ⟨hopen, hloop⟩
    · cases hpool
    · cases hloop
      have hre := rejects_processFrame (p := p.setHasMoreFrames env.hasMoreFrames)
        (hinv.resizes ⟨.refl _, rfl⟩) hc.setHasMoreFrames hw
      obtain ⟨hs, hpool, hwire, ha⟩ := hre.answer
      have hu' : Unseen id (p.processH2 env f) := ⟨hpool ▸ hu.free, hs ▸ hu.unserved⟩
      by_cases hb : (p.refusals.count .malformed env.now).refused .malformed ≤ 100
      · rw [if_pos (by exact hb)] at ha
        obtain ⟨herr, he, hout, hp, hleft⟩ := ha
        obtain ⟨before, after, hwire⟩ := processH2_wire hwire hout
        have hgoes : (p.processH2 env f).ended = false :=
          Bool.or_eq_false_iff.mpr ⟨he.trans hopen, congrArg isSome herr⟩
        exact ⟨⟨before, _, after, hwire, (if_pos hb).mpr ⟨rfl, hleft, hgoes⟩⟩, fun hruns =>
          (unseen_of_runs hinv' (.inl ⟨hu', hp, hleft⟩) hruns).unserved⟩
      · rw [if_neg (by exact hb)] at ha
        obtain ⟨herr, last, text, hout⟩ := ha
        obtain ⟨before, after, hwire⟩ := processH2_wire hwire hout
        have he : (p.processH2 env f).ended = true := Bool.or_eq_true_iff.mpr (.inr herr)
        exact ⟨⟨before, _, after, hwire, (if_neg hb).mpr ⟨⟨last, text, rfl⟩, he⟩⟩, fun hruns =>
          (unseen_of_runs hinv' (.inr ⟨hu', he⟩) hruns).unserved⟩

/-- A `POST` with a content-length of five. -/
def postFive : List Field :=
  [(ascii ":method", ascii "POST"), (ascii ":scheme", ascii "http"), (ascii ":path", ascii "/"),
    (ascii "content-length", ascii "5")]

/-- A body of five bytes is served; a request without a body is reset. -/
theorem twoPosts_enforced :
    let events : List Event :=
      [.frame { decoded := .fields postFive } (.headers ⟨1, false, true, none, [], 0⟩),
      .frame {} (.data ⟨1, true, ascii "abcde", 5, by decide, by decide⟩)]
    ∃ p q, exec step (fun p e => p.endsWithTrailers 1 e = false) (newProcessor {}) events = some p ∧
      p.served.map Request.id = [1] ∧ (∀ r ∈ p.served, Declares r.headers r.received) ∧
      step p (.frame { decoded := .fields postFive } (.headers ⟨3, true, true, none, [], 0⟩)) =
        some q ∧
      (∃ before after, q.manager.wire = p.manager.wire ++ before ++ .rstStream 3 .protocolError ::
        after) ∧
      ∀ r ∈ q.served, r.id ≠ 3 := by
  intro events
  obtain ⟨p, he, hs, hopen, hcs, hl, ha, hroom, hb⟩ : ∃ p ∈ exec step
      (fun p e => p.endsWithTrailers 1 e = false) (newProcessor {}) events,
    p.served.map Request.id = [1] ∧ p.ended = false ∧ p.continuationState.isNone = true ∧
    p.manager.lastClientStream = 1 ∧ p.manager.activeStreams = 0 ∧ p.manager.maxStreams = 100 ∧
    (p.refusals.count .malformed 0).refused .malformed = 1 := by decide +kernel
  have hruns := runs_of_exec he
  have hone : ∀ r ∈ p.served, r.id = 1 := by
    intro r hr
    have hid := mem_map_of_mem (f := Request.id) hr
    rw [hs] at hid
    exact mem_singleton.mp hid
  obtain ⟨q, hstep⟩ : ∃ q, step p (.frame { decoded := .fields postFive }
    (.headers ⟨3, true, true, none, [], 0⟩)) =
      some q := ⟨_, if_neg (by rw [hopen]; decide)⟩
  have hc : Completes p { decoded := .fields postFive } (.headers ⟨3, true, true, none, [], 0⟩) 3
      postFive 0 :=
    .headers (isNone_iff_eq_none.mp hcs) (Nat.zero_le _) rfl rfl ⟨rfl, by rw [hl]; decide,
      by rw [ha, hroom]; decide, Nat.zero_le _, nofun, rfl⟩
  obtain ⟨⟨before, o, after, hw, ho⟩, hu⟩ := contentLength_enforced.2 (hruns.mono fun _ => trivial)
    hc (by decide) hstep
  rw [if_pos (by rw [hb]; decide)] at ho
  exact ⟨p, q, he, hs, fun r hr => (contentLength_enforced.1 hruns r hr (hone r hr)).2, hstep,
    ⟨before, after, ho.1 ▸ hw⟩, hu .refl⟩

/-- A hundred and one requests in a second whose content-length is wrong: the last is not
reset, for the connection ends. -/
theorem malformedFlood_not_reset :
    let events : List Event := (range 101).map fun k =>
      .frame { decoded := .fields postFive } (.headers ⟨2 * k + 1, true, true, none, [], 0⟩)
    ¬Declares postFive 0 ∧ ∃ p, exec step (fun _ _ => True) (newProcessor {}) events = some p ∧
      p.served = [] ∧ p.ended = true ∧ .rstStream 199 .protocolError ∈ p.manager.wire ∧
      .rstStream 201 .protocolError ∉ p.manager.wire := by
  intro events
  exact ⟨by decide, by simp only [← mem_def]; decide +kernel⟩

end Processor

end Celeris.H2
