import Celeris.H2.Identifiers

/-!
# GOAWAY

`GOAWAY` is sent on shutdown with the highest identifier the client has used, and on an
error, of the processor, the framer or the sweep, with the highest stream that was opened;
`SendGoAway` keeps the last stream from going up. `Announced` ties the frames that were sent to
`goAwayLastID`, and the streams that wait for a worker to it: what is given to the pool before a
`GOAWAY` is at or below its last stream. `Accounted` says where a stream that was opened can have
gone.
-/

namespace Celeris.H2

open List Manager Output Transition

/-- The last stream of a `GOAWAY`. -/
def Output.goAwayID : Output → Option Nat
  | .goAway last _ _ => some last
  | _ => none

variable {o : Output}

theorem Output.OfStream.goAwayID {i : Nat} (h : o.OfStream i) : o.goAwayID = none := by
  cases o <;> first | rfl | cases h

theorem Output.IsCredit.goAwayID (h : o.IsCredit) : o.goAwayID = none := by
  cases o <;> first | rfl | cases h

theorem Output.IsControl.goAwayID (h : o.IsControl) : o.goAwayID = none := by
  cases o <;> first | rfl | cases h

/-- The last streams of the `GOAWAY`s that were sent. -/
def Manager.goAways (m : Manager) : List Nat := m.sent.filterMap goAwayID

namespace Processor

variable {T : Scope} {p q : Processor} {i n : Nat}

/-! ## The frames -/

/-- What a change does to the `GOAWAY`s. -/
theorem Change.goAways (h : Change T n p q) (hq : p.manager.queue.filterMap goAwayID = []) :
    q.manager.queue.filterMap goAwayID = [] ∧
      ((q.manager.goAways = p.manager.goAways ∧ q.goAwaySent = p.goAwaySent ∧
        q.goAwayLastID = p.goAwayLastID) ∨
        ∃ last code text, (last = p.manager.maxStreamID ∨ last = p.manager.lastClientStream) ∧
          q = p.sendGoAway last code text) := by
  have hw : ∀ {P : Output → Prop} {t : Manager}, (∀ o, P o → o.goAwayID = none) →
      Manager.Writes P p.manager t → t.queue.filterMap goAwayID = [] ∧
        t.goAways = p.manager.goAways :=
    fun hP h => ⟨(h.filterMap hP).2.trans hq, (h.filterMap hP).1⟩
  cases h with
  | books hb =>
    exact ⟨by rwa [hb.manager], .inl ⟨by rw [hb.manager], hb.goAwaySent, hb.goAwayLastID⟩⟩
  | respond hr => exact (hw (fun _ ho => ho.goAwayID) hr.writes).imp_right (.inl ⟨·, rfl, rfl⟩)
  | leave hl => exact (hw (fun _ ho => ho.goAwayID) hl.writes).imp_right (.inl ⟨·, rfl, rfl⟩)
  | credit hc => exact (hw (fun _ ho => ho.goAwayID) hc.writes).imp_right (.inl ⟨·, rfl, rfl⟩)
  | write hout => exact (hw (fun _ ho => ho.goAwayID) (.write hout)).imp_right (.inl ⟨·, rfl, rfl⟩)
  | opened hi hodd hf hopen hfree =>
    have hop := opens_of_tryOpenStream hopen hfree
    exact ⟨by rw [hop.output.2.2]; exact hq,
      .inl ⟨congrArg (filterMap goAwayID) hop.sent, rfl, rfl⟩⟩
  | goAway hlast code text => exact ⟨hq, .inr ⟨_, code, text, hlast, rfl⟩⟩
  | flushOut =>
    refine ⟨hq, .inl ⟨?_, rfl, rfl⟩⟩
    simp [Manager.goAways, Manager.sent, Manager.flushOut]
  | drain =>
    refine ⟨rfl, .inl ⟨?_, rfl, rfl⟩⟩
    simp [Manager.goAways, Manager.sent, Manager.drainWriteQueue, hq]
  | _ => exact ⟨hq, .inl ⟨rfl, rfl, rfl⟩⟩

/-- The last streams of the `GOAWAY`s go down to `goAwayLastID`, and the streams that are
opened or wait for a worker are at or below it. -/
structure Announced (p : Processor) : Prop where
  queue : p.manager.queue.filterMap goAwayID = []
  sorted : p.manager.goAways.Pairwise (· ≥ ·)
  last : ∀ x ∈ p.manager.goAways, p.goAwaySent = true ∧ p.goAwayLastID ≤ x
  streams : ∀ {i}, p.Live i → i ≤ p.manager.maxStreamID
  handlers : ∀ {i}, p.Pooled i → i ≤ p.manager.maxStreamID
  waiting : p.goAwaySent = true → ∀ {i}, p.Pooled i → i ≤ p.goAwayLastID

theorem goAways_sendGoAway (hq : p.manager.queue.filterMap goAwayID = []) (last : Nat)
    (code : ErrCode) (text : String) : (p.sendGoAway last code text).manager.goAways =
      p.manager.goAways ++ [(p.sendGoAway last code text).goAwayLastID] := by
  simp [goAways, sent, sendGoAway, manage, write, hq, goAwayID]

/-- The last stream does not go up. -/
theorem goAwayLastID_sendGoAway {last : Nat} {code : ErrCode} {text : String} :
    (p.goAwaySent = true → (p.sendGoAway last code text).goAwayLastID ≤ p.goAwayLastID) ∧
      ((p.sendGoAway last code text).goAwayLastID = last ∨
        p.goAwaySent = true ∧ (p.sendGoAway last code text).goAwayLastID = p.goAwayLastID) := by
  unfold sendGoAway
  split_ifs with hl
  · exact ⟨fun _ => le_rfl, .inr ⟨hl.1, rfl⟩⟩
  · exact ⟨fun hs => Nat.not_lt.mp fun hlt => hl ⟨hs, hlt⟩, .inl rfl⟩

/-- The last stream of the `GOAWAY`s does not go up. -/
theorem Change.goAwayLastID (h : Change T n p q) (hq : p.manager.queue.filterMap goAwayID = [])
    (hs : p.goAwaySent = true) : q.goAwaySent = true ∧ q.goAwayLastID ≤ p.goAwayLastID := by
  obtain ⟨-, ⟨-, hsame, hl⟩ | ⟨last, code, text, -, rfl⟩⟩ := h.goAways hq
  · exact ⟨hsame.trans hs, hl.le⟩
  · exact ⟨rfl, goAwayLastID_sendGoAway.1 hs⟩

theorem Change.maxStreamID (h : Change T n p q) :
    p.manager.maxStreamID ≤ q.manager.maxStreamID := by
  rcases h.numbers with hp | ⟨j, hb⟩
  · exact hp.maxStreamID.ge
  · rw [hb.maxStreamID]
    exact le_max_left _ _

/-- What is given to the pool is alive, and at or below the last stream of the `GOAWAY`s. -/
theorem Change.isPooled (h : Change T n p q) (hi : q.Pooled i) :
    p.Pooled i ∨ p.Live i ∧ (p.goAwaySent = true → i ≤ p.goAwayLastID) := by
  obtain ⟨stage, hm⟩ := hi
  rcases h.pooled hm with ⟨hm, hs, hl, -⟩ | ⟨before, hb, -⟩
  · refine .inr ⟨⟨hm, ?_⟩, hl⟩
    rw [hs]
    exact nofun
  · exact .inl ⟨before, hb⟩

theorem Change.announced (hinv : Inv T p) (h : Change T n p q) (hp : Announced p) :
    Announced q := by
  obtain ⟨hq, ho⟩ := h.goAways hp.queue
  have hh : ∀ {i}, q.Pooled i → i ≤ p.manager.maxStreamID :=
    fun hi => (h.isPooled hi).elim hp.handlers fun hi => hp.streams hi.1
  have hw : p.goAwaySent = true → ∀ {i}, q.Pooled i → i ≤ p.goAwayLastID :=
    fun hsent _ hi => (h.isPooled hi).elim (hp.waiting hsent) fun hi => hi.2 hsent
  have hs : ∀ {i}, q.Live i → i ≤ q.manager.maxStreamID := by
    intro i hi
    rcases h.live (i := i) hinv with hsame | hb | ⟨hgone, -⟩
    · exact (hp.streams (hsame.mp hi)).trans h.maxStreamID
    · rw [hb.maxStreamID]
      exact le_max_right _ _
    · exact absurd hi hgone
  rcases ho with ⟨hsame, hsent, hl⟩ | ⟨last, code, text, hl, rfl⟩
  · refine ⟨hq, hsame ▸ hp.sorted, ?_, hs, fun hi => (hh hi).trans h.maxStreamID, ?_⟩
    · rw [hsame, hsent, hl]
      exact hp.last
    · rw [hsent, hl]
      exact hw
  · have hg := goAways_sendGoAway hp.queue last code text
    obtain ⟨hd, hn⟩ := goAwayLastID_sendGoAway (p := p)
    refine ⟨hq, ?_, ?_, hs, hh, fun _ {i} hi => ?_⟩
    · rw [hg, pairwise_append]
      refine ⟨hp.sorted, pairwise_singleton _ _, fun x hx y hy => ?_⟩
      rw [mem_singleton.mp hy]
      exact (hd (hp.last x hx).1).trans (hp.last x hx).2
    · rw [hg]
      refine forall_mem_append.mpr ⟨fun x hx => ?_, forall_mem_singleton.mpr ⟨rfl, le_rfl⟩⟩
      exact ⟨rfl, (hd (hp.last x hx).1).trans (hp.last x hx).2⟩
    · rcases hn with hn | ⟨hsent, hn⟩
      · rw [hn]
        rcases hl with rfl | rfl
        · exact hh hi
        · obtain ⟨stage, hmem⟩ := hi
          exact (hinv.valid.handlers hmem).known
      · rw [hn]
        exact hw hsent hi

theorem Resizes.announced (h : Resizes p q) (hp : Announced p) : Announced q := by
  have hf := h.manager.writes.filterMap (f := goAwayID) fun o ⟨_, ho⟩ => ho.goAwayID
  have hg : q.manager.goAways = p.manager.goAways := hf.1
  have hpo : ∀ {i}, q.Pooled i ↔ p.Pooled i := by
    intro i
    rw [Pooled, Pooled, h.pool]
  have hs : q.goAwaySent = p.goAwaySent := by rw [h.rest]
  have hl : q.goAwayLastID = p.goAwayLastID := by rw [h.rest]
  have hm : q.manager.maxStreamID = p.manager.maxStreamID := (h.passes (T := .all)).maxStreamID
  refine ⟨hf.2.trans hp.queue, hg ▸ hp.sorted, ?_, fun hi => ?_, fun hi => ?_, fun hq {i} hi => ?_⟩
  · rw [hg, hs, hl]
    exact hp.last
  · rw [hm]
    exact hp.streams (h.live.mp hi)
  · rw [hm]
    exact hp.handlers (hpo.mp hi)
  · rw [hl]
    exact hp.waiting (hs ▸ hq) (hpo.mp hi)

theorem kept_announced : Kept T Announced where
  resizes := Resizes.announced
  change hi h hp := h.announced hi hp
  counts h := { h with }

theorem announced_newProcessor {cfg : Config} : Announced (newProcessor cfg) :=
  ⟨rfl, List.Pairwise.nil, nofun, fun hi => absurd hi.1 not_mem_nil,
    fun ⟨_, hi⟩ => absurd hi not_mem_nil,
    nofun⟩

/-! ## Handlers -/

/-- After a `GOAWAY` handlers are started only on streams at or below its last stream. -/
structure Bounded (before : List Request) (last : Nat) (p : Processor) : Prop where
  announced : Announced p
  sent : p.goAwaySent = true
  le : p.goAwayLastID ≤ last
  served : ∃ later, p.served = before ++ later ∧ ∀ r ∈ later, r.id ≤ last

theorem kept_bounded {before : List Request} {last : Nat} : Kept T (Bounded before last) where
  resizes h hp := by
    refine ⟨h.announced hp.announced, ?_, ?_, ?_⟩
    all_goals rw [h.rest]
    · exact hp.sent
    · exact hp.le
    · exact hp.served
  change {n p q} hinv h hp := by
    obtain ⟨hsent, hd⟩ := h.goAwayLastID hp.announced.queue hp.sent
    refine ⟨h.announced hinv hp.announced, hsent, hd.trans hp.le, ?_⟩
    obtain ⟨later, hs, hl⟩ := hp.served
    rcases h.served with hsame | ⟨i, hi, -, -, rfl⟩
    · exact ⟨later, hsame.trans hs, hl⟩
    · have hle : i ≤ last := by
        rcases hi with ⟨-, -, hlast⟩ | hpool
        · exact (hlast hp.sent).trans hp.le
        · exact (hp.announced.waiting hp.sent ⟨_, hpool⟩).trans hp.le
      let s := p.manager.stream i
      refine ⟨later ++ [⟨i, s.headers, s.data, s.receivedDataLen⟩], ?_,
        forall_mem_append.mpr ⟨hl, forall_mem_singleton.mpr hle⟩⟩
      rw [serve, hs, append_assoc]
  counts h := { h with announced := { h.announced with } }

/-! ## Streams that were opened -/

theorem Begins.live (h : Begins T i p q) : q.Live i := ⟨h.mem, h.opened ▸ nofun⟩

/-- A stream that was opened is alive, or was given to a handler or reset. -/
def Accounted (i : Nat) (p : Processor) : Prop :=
  i ∈ p.manager.opens → p.Live i ∨ p.Served i ∨ Manager.Reset i p.manager

theorem kept_accounted (hk : ¬T.dismissed i) : Kept T (Accounted i) where
  resizes h hp hi := by
    rcases hp ((h.passes (T := T)).opens ▸ hi) with hl | hs | ⟨code, hsent⟩
    · exact .inl (h.live.mpr hl)
    · exact .inr (.inl (h.isServed.mpr hs))
    · exact .inr (.inr ⟨code, h.manager.writes.mem_sent hsent⟩)
  change {n p q} hinv h hp hi := by
    have hold : i ∈ p.manager.opens → q.Live i ∨ q.Served i ∨ Manager.Reset i q.manager := by
      intro hi
      rcases hp hi with hl | hs | ⟨code, hsent⟩
      · rcases h.live (i := i) hinv with hsame | hb | ⟨-, hs | hr | hd⟩
        · exact .inl (hsame.mpr hl)
        · exact .inl hb.live
        · exact .inr (.inl hs)
        · exact .inr (.inr hr)
        · exact absurd hd hk
      · exact .inr (.inl (hs.change h))
      · exact .inr (.inr ⟨code, h.sent hsent⟩)
    rcases h.numbers with hpa | ⟨j, hb⟩
    · exact hold (hpa.opens ▸ hi)
    · rw [hb.opens] at hi
      rcases mem_append.mp hi with hi | hi
      · exact hold hi
      · rw [mem_singleton.mp hi]
        exact .inl hb.live
  counts h := h

/-- The client gives a stream up. -/
def Dismisses (i : Nat) : Event → Prop
  | .frame _ (.rstStream id) => id = i
  | .frame _ (.goAway last) => last < i
  | _ => False

end Processor

def Scope.keeping (i : Nat) : Scope := { Scope.all with dismissed := (· ≠ i) }

namespace Processor

variable {p q : Processor} {i : Nat}

theorem eventOk_keeping {e : Event} (h : ¬Dismisses i e) : EventOk (.keeping i) p e := by
  cases e with
  | frame env f =>
    refine ⟨fun _ => ⟨fun _ => trivial, fun _ => trivial, fun _ _ _ _ _ _ => trivial⟩,
      fun _ _ => trivial, ?_, ?_⟩
    · rintro id rfl
      exact h
    · rintro last rfl j hj rfl
      exact h hj
  | _ => trivial

/-- Whatever the frames, those that the framer refuses too, the sweeps, the handlers and the
shutdowns: the last streams of the `GOAWAY`s that were sent do not go up, and after one that names
`L` no handler is started on a stream above `L`. A stream that was opened and that the client has
not given up is, as long as the connection goes on, still receiving its request or waiting
for a worker, or a handler was started on it or it was reset. -/
theorem goAway_disciplined {cfg : Config} {p : Processor}
    (h : Transition.Runs step (fun _ _ => True) (newProcessor cfg) p) :
    (p.manager.wire.filterMap goAwayID).Pairwise (· ≥ ·) ∧
    (∀ last ∈ p.manager.wire.filterMap goAwayID, ∀ {q}, Transition.Runs step (fun _ _ => True) p q →
      ∃ later, q.served = p.served ++ later ∧ ∀ r ∈ later, r.id ≤ last) ∧
    ∀ {i}, Transition.Runs step (fun _ e => ¬Dismisses i e) (newProcessor cfg) p → p.ended = false →
      i ∈ p.manager.opens → i ∈ p.manager.ids ∧ (p.manager.stream i).endStream = false ∨
        (i, .submitted) ∈ p.pool ∨ p.Served i ∨ Manager.Reset i p.manager := by
  obtain ⟨hinv, ha⟩ :=
    kept_announced.runs (T := .all) (fun _ => eventOk_all _ _) (inv_newProcessor cfg)
    announced_newProcessor h
  have hw : p.manager.goAways = p.manager.wire.filterMap goAwayID ++
      p.manager.outBuf.filterMap goAwayID ++ p.manager.queue.filterMap goAwayID := by
    rw [goAways, sent, filterMap_append, filterMap_append]
  refine ⟨?_, fun last hlast {q} hr => ?_, fun {i} hkept ho hi => ?_⟩
  · have hso := ha.sorted
    rw [hw] at hso
    exact (pairwise_append.mp (pairwise_append.mp hso).1).1
  · have hmem : last ∈ p.manager.goAways := by
      rw [hw]
      exact mem_append_left _ (mem_append_left _ hlast)
    obtain ⟨hsent, hle⟩ := ha.last last hmem
    obtain ⟨-, hb⟩ := kept_bounded.runs (T := .all) (fun _ => eventOk_all _ _) hinv
      (⟨ha, hsent, hle, [], (append_nil _).symm, forall_mem_nil _⟩ : Bounded p.served last p) hr
    exact hb.served
  · have hk : Kept (.keeping i) (Accounted i) := kept_accounted fun h => h rfl
    obtain ⟨-, hac⟩ := hk.runs eventOk_keeping (inv_newProcessor cfg) (fun hn => by cases hn) hkept
    rcases hac hi with hl | hs
    · cases he : (p.manager.stream i).endStream with
      | false => exact .inl ⟨hl.1, rfl⟩
      | true =>
        rcases (settled_of_runs h ho).ended hl.1 he with hs | ⟨stage, hmem⟩
        · exact .inr (.inr (.inl hs))
        · rcases hinv.answers.handlers hmem with rfl | hs
          · exact .inr (.inl hmem)
          · exact .inr (.inr (.inl hs))
    · exact .inr (.inr hs)

/-- A request is still open when the server shuts down. It is served when it ends, and the
one that comes after the `GOAWAY` is not. -/
theorem shutdown_disciplined : let get : List Field :=
      [(ascii ":method", ascii "GET"), (ascii ":scheme", ascii "http"), (ascii ":path", ascii "/")]
    let headers (id : Nat) (endStream : Bool) : Frame := .headers ⟨id, endStream, true, none, [], 0⟩
    let before : List Event := [.frame { decoded := .fields get } (headers 1 false), .shutdown]
    let after : List Event :=
      [.frame { decoded := .fields get } (headers 3 true),
        .frame {} (.data ⟨1, true, [], 0, by decide, by decide⟩)]
    ∃ p q, exec step (fun _ _ => True) (newProcessor {}) before = some p ∧
      exec step (fun _ _ => True) p after = some q ∧ q.manager.opens = [1, 3] ∧
      p.manager.wire.filterMap goAwayID = [1] ∧
      ∃ later, q.served = p.served ++ later ∧ later ≠ [] ∧ ∀ r ∈ later, r.id ≤ 1 := by
  intro get headers before after
  obtain ⟨p, hb, q, ha, ho, hw, hp, hq⟩ : ∃ p ∈ exec step (fun _ _ => True)
    (newProcessor {}) before, ∃ q ∈ exec step (fun _ _ => True) p after, q.manager.opens = [1, 3] ∧
      p.manager.wire.filterMap goAwayID = [1] ∧ p.served.length = 0 ∧
        q.served.length = 1 := by decide +kernel
  obtain ⟨later, hs, hl⟩ := (goAway_disciplined (runs_of_exec hb)).2.1 1
    (by rw [hw]; exact mem_singleton_self _) (runs_of_exec ha)
  refine ⟨p, q, hb, ha, ho, hw, later, hs, ?_, hl⟩
  rintro rfl
  rw [hs, append_nil, hp] at hq
  cases hq

/-- Nothing happens on a connection that has ended and has no handlers. -/
theorem eq_of_ended (he : p.ended = true) (hp : p.pool = [])
    (h : Transition.Runs step (fun _ _ => True) p q) : q = p := by
  refine h.invariant (P := (· = p)) (fun {t u e} ht _ hs => ?_) rfl
  subst ht
  rcases step_cases hs with ⟨k, action, -, hs⟩ | ⟨ho, -⟩
  · unfold stepPool at hs
    rw [hp] at hs
    cases hs
  · cases he.symm.trans ho

theorem not_settled (hs : p.served.length = 0)
    (hsent : p.manager.sent.all (fun o => (goAwayID o).isSome) = true) :
    ¬p.Served i ∧ ¬Manager.Reset i p.manager := by
  refine ⟨fun ⟨r, hr, _⟩ => ?_, fun ⟨code, hre⟩ => ?_⟩
  · rw [length_eq_zero_iff.mp hs] at hr
    cases hr
  · cases all_eq_true.mp hsent _ hre

/-- An error of the connection while a request is open: the `GOAWAY` names its stream, and
the request is neither served nor reset. Nor is one that the client gives up with
`RST_STREAM` or `GOAWAY` while the connection goes on. -/
theorem connectionError_not_settled : let get : List Field :=
      [(ascii ":method", ascii "GET"), (ascii ":scheme", ascii "http"), (ascii ":path", ascii "/")]
    let opened : Event := .frame { decoded := .fields get } (.headers ⟨1, false, true, none, [], 0⟩)
    (∃ p, exec step (fun _ _ => True) (newProcessor {})
        [opened, .frame {} (.data ⟨3, true, [], 0, by decide, by decide⟩)] = some p ∧
      p.manager.wire.filterMap goAwayID = [1] ∧ p.manager.opens = [1] ∧
      ∀ q, Transition.Runs step (fun _ _ => True) p q → ¬q.Served 1 ∧ ¬Manager.Reset 1 q.manager) ∧
    ∀ f ∈ [Frame.rstStream 1, .goAway 0],
      ∃ p, exec step (fun _ _ => True) (newProcessor {}) [opened, .frame {} f, .shutdown] = some p ∧
        p.manager.wire.filterMap goAwayID = [1] ∧ p.manager.opens = [1] ∧ p.ended = false ∧
        p.manager.ids = [] ∧ p.pool.length = 0 ∧ ¬p.Served 1 ∧ ¬Manager.Reset 1 p.manager := by
  intro get opened
  refine ⟨?_, fun f hf => ?_⟩
  · obtain ⟨p, hexec, hw, hop, he, hpool, hs, hsent⟩ : ∃ p ∈ exec step (fun _ _ => True)
        (newProcessor {}) [opened, .frame {} (.data ⟨3, true, [], 0, by decide, by decide⟩)],
      p.manager.wire.filterMap goAwayID = [1] ∧ p.manager.opens = [1] ∧ p.ended = true ∧
        p.pool.length = 0 ∧ p.served.length = 0 ∧
        p.manager.sent.all (fun o => (goAwayID o).isSome) = true := by decide +kernel
    refine ⟨p, hexec, hw, hop, fun q hruns => ?_⟩
    rw [eq_of_ended he (length_eq_zero_iff.mp hpool) hruns]
    exact not_settled hs hsent
  · obtain ⟨p, hexec, hw, hop, he, hi, hpool, hs, hsent⟩ :
      ∃ p ∈ exec step (fun _ _ => True) (newProcessor {}) [opened, .frame {} f, .shutdown],
        p.manager.wire.filterMap goAwayID = [1] ∧ p.manager.opens = [1] ∧ p.ended = false ∧
        p.manager.ids = [] ∧ p.pool.length = 0 ∧ p.served.length = 0 ∧
        p.manager.sent.all (fun o => (goAwayID o).isSome) = true := by
      rcases mem_pair.mp hf with rfl | rfl <;> decide +kernel
    exact ⟨p, hexec, hw, hop, he, hi, hpool, not_settled hs hsent⟩

end Processor

end Celeris.H2
