import Celeris.H2.Requests

/-!
# Stream identifiers

Closed streams are forgotten, and yet no identifier starts two requests: a stream is
opened only above `lastClientStream`, which never goes down. What a change does to the
identifiers used (`Change.numbers`), to the streams that are alive (`Change.live`) and
to the marks of streams the server has reset (`Change.marked`) gives the facts about
whole runs; `Verdict` lists what becomes of a header block.
-/

namespace Celeris.H2

open Manager List Nat Function Transition

namespace Processor

variable {T : Scope} {p q : Processor} {i n : Nat}

/-! ## What a change does to identifiers -/

/-- A stream is opened with an identifier above those the client has used. -/
structure Begins (T : Scope) (j : Nat) (p q : Processor) : Prop where
  above : p.manager.lastClientStream < j
  odd : j % 2 = 1
  fresh : T.fresh j
  opens : q.manager.opens = p.manager.opens ++ [j]
  maxStreamID : q.manager.maxStreamID = max p.manager.maxStreamID j
  lastClientStream : q.manager.lastClientStream = j
  mem : j ∈ q.manager.ids
  opened : (q.manager.stream j).state = .opened
  others : ∀ {i}, i ≠ j → q.manager.stream i = p.manager.stream i

/-- No stream is opened; an identifier above those the client has used may be used up. -/
structure Passes (T : Scope) (p q : Processor) : Prop where
  opens : q.manager.opens = p.manager.opens
  maxStreamID : q.manager.maxStreamID = p.manager.maxStreamID
  lastClientStream : q.manager.lastClientStream = p.manager.lastClientStream ∨
    p.manager.lastClientStream < q.manager.lastClientStream ∧ T.fresh q.manager.lastClientStream

theorem begins_opened {t : Manager} (hi : p.manager.lastClientStream < i) (hodd : i % 2 = 1)
    (hf : T.fresh i) (hopen : { p.manager with lastClientStream := i }.tryOpenStream i = some t)
    (hfree : i ∈ p.manager.ids → (p.manager.stream i).state = .idle) :
    Begins T i p { p with manager := t } := by
  have ho := opens_of_tryOpenStream hopen hfree
  refine ⟨hi, hodd, hf, ho.opens, ho.maxStreamID, ho.lastClientStream.trans (if_pos hodd), ho.mem,
    ?_, fun hij => ?_⟩
  · exact congrArg Stream.state ((congrFun ho.stream i).trans (update_self i _ _))
  · exact (congrFun ho.stream _).trans (update_of_ne hij _ _)

/-- Identifiers are used up, and streams opened, in increasing order. -/
theorem Change.numbers (h : Change T n p q) : Passes T p q ∨ ∃ j, Begins T j p q := by
  cases h with
  | books hb =>
    refine .inl ⟨?_, ?_, .inl ?_⟩
    all_goals rw [hb.manager]
  | respond hr =>
    exact .inl ⟨(congrArg opens hr.core :), (congrArg maxStreamID hr.core :),
      .inl hr.lastClientStream⟩
  | leave hl =>
    exact .inl ⟨(congrArg opens hl.frame :), (congrArg maxStreamID hl.frame :),
      .inl hl.lastClientStream⟩
  | pass hi hf => exact .inl ⟨rfl, rfl, .inr ⟨hi, hf⟩⟩
  | opened hi hodd hf ho hfree => exact .inr ⟨_, begins_opened hi hodd hf ho hfree⟩
  | credit hc =>
    exact .inl ⟨(congrArg opens hc.core :), (congrArg maxStreamID hc.core :),
      .inl hc.lastClientStream⟩
  | _ => exact .inl ⟨rfl, rfl, .inl rfl⟩

/-- A stream of the map that is more than a placeholder. -/
def Live (p : Processor) (i : Nat) : Prop := i ∈ p.manager.ids ∧ (p.manager.stream i).state ≠ .idle

theorem live_iff (hi : i ∈ q.manager.ids ↔ i ∈ p.manager.ids)
    (hs : (q.manager.stream i).state = (p.manager.stream i).state) : q.Live i ↔ p.Live i := by
  rw [Live, Live, hi, hs]

variable {j last : Nat} {known : Nat → Prop}

theorem live_apart (ha : Apart j p.manager q.manager) (hij : i ≠ j) : q.Live i ↔ p.Live i :=
  live_iff (ha.ids hij) (by rw [ha.stream hij])

theorem live_update {s : Stream} (hi : q.manager.ids = p.manager.ids)
    (hs : q.manager.stream = Function.update p.manager.stream j s)
    (hst : s.state = .idle ↔ (p.manager.stream j).state = .idle) : q.Live i ↔ p.Live i := by
  rw [Live, Live, hi, hs]
  by_cases hij : i = j
  · rw [hij, update_self, Ne, hst]
  · rw [update_of_ne hij]

/-- A stream comes alive when it is opened, and is alive until a handler has had its request,
it is reset or the client gives it up. -/
theorem Change.live (hinv : Inv T p) (h : Change T n p q) : (q.Live i ↔ p.Live i) ∨ Begins T i p q ∨
    ¬q.Live i ∧ (q.Served i ∨ Manager.Reset i q.manager ∨ T.dismissed i) := by
  cases h with
  | books hb => exact .inl (live_iff (by rw [hb.manager]) (by rw [hb.manager]))
  | respond hr => exact .inl (live_iff (by rw [hr.ids]) (hr.state i))
  | @setState _ j next hj hst hn =>
    refine .inl (live_update rfl rfl (iff_of_false ?_ hst))
    rcases hn with rfl | rfl
    · exact nofun
    · exact State.ended_ne_idle hst
  | @leave _ t j resetOpen expiredReq hl hwhy hm =>
    by_cases hij : i = j
    · subst hij
      have hg : i ∉ t.ids := hl.ids ▸ hinv.valid.nodup.not_mem_erase
      rcases hwhy with hs | hi | hre
      · exact .inr (.inr ⟨(hg ·.1), .inl hs⟩)
      · exact .inl (iff_of_false (hg ·.1) fun hlive => hlive.2 hi)
      · exact .inr (.inr ⟨(hg ·.1), .inr hre⟩)
    · exact .inl (live_apart (apart_erase hl.ids hl.others) hij)
  | @opened _ t j hj hodd hf hopen hfree =>
    have hbe := begins_opened hj hodd hf hopen hfree
    by_cases hij : i = j
    · exact .inr (.inl (hij ▸ hbe))
    · have ho := opens_of_tryOpenStream hopen hfree
      exact .inl (live_apart (apart_enter ho.ids ho.stream) hij)
  | @placeholder _ j hfree hj hodd ids =>
    by_cases hij : i = j
    · subst hij
      refine .inl (iff_of_false (fun hlive => hlive.2 ?_) fun hlive => hfree hlive.1)
      exact congrArg Stream.state insert_stream_self
    · exact .inl (live_apart (apart_enter rfl rfl) hij)
  | @endRequest _ j hj hopen he =>
    by_cases hij : i = j
    · subst hij
      refine .inl (iff_of_true ⟨hj, ?_⟩ ⟨hj, (Requesting.mk hj hopen).ne_idle⟩)
      rw [endRequest_stream_self]
      exact nofun
    · exact .inl (live_apart apart_endRequest hij)
  | @retire _ k j stage hk hst hs =>
    by_cases hij : i = j
    · subst hij
      exact .inr (.inr ⟨fun hlive => hinv.valid.nodup.not_mem_erase hlive.1, .inl hs⟩)
    · exact .inl (live_apart apart_retire hij)
  | credit hc =>
    exact .inl (live_iff (by rw [hc.ids])
      (congrArg (fun s : Nat → Stream => (s i).state) hc.stream))
  | request | window | dropData | submit | handOff => exact .inl (live_update rfl rfl Iff.rfl)
  | _ => exact .inl Iff.rfl

/-- What was sent stays sent. -/
theorem Change.sent {o : Output} (h : Change T n p q) (ho : o ∈ p.manager.sent) :
    o ∈ q.manager.sent := by
  cases h with
  | books hb => rwa [hb.manager]
  | respond hr => exact hr.writes.mem_sent ho
  | leave hl => exact hl.writes.mem_sent ho
  | opened hi hodd hf hopen hfree => exact (opens_of_tryOpenStream hopen hfree).sent ▸ ho
  | credit hc => exact hc.writes.mem_sent ho
  | write | goAway =>
    exact (Manager.Writes.write (P := fun _ => True) fun _ _ => trivial).mem_sent ho
  | flushOut =>
    simp only [Manager.sent, Manager.flushOut, List.append_nil]
    exact ho
  | drain =>
    simp only [sent, drainWriteQueue, append_nil, mem_append] at ho ⊢
    tauto
  | _ => exact ho

/-- A stream is marked where the server resets it. -/
theorem Change.marked (h : Change T n p q) (hm : q.Marked i) : p.Marked i ∨
    Manager.Reset i q.manager ∧ (T.fresh i ∨ p.Live i) := by
  cases h with
  | books hb =>
    refine (hb.marks hm).imp_right fun ⟨hf, hr⟩ => ⟨?_, .inl hf⟩
    rwa [hb.manager]
  | leave hl hw hma =>
    refine (hma hm).imp_right ?_
    rintro ⟨rfl, hs, hr⟩
    exact ⟨hr, .inr ⟨hl.mem, hs⟩⟩
  | _ => exact .inl hm

theorem Resizes.passes (h : Resizes p q) : Passes T p q :=
  ⟨(congrArg opens h.manager.core :), (congrArg maxStreamID h.manager.core :),
    .inl h.manager.lastClientStream⟩

theorem Resizes.live (h : Resizes p q) : q.Live i ↔ p.Live i :=
  live_iff (by rw [h.manager.ids]) (Stream.state_of_core (h.manager.stream i))

theorem Resizes.marked (h : Resizes p q) : q.Marked i ↔ p.Marked i := by
  rw [h.rest]
  rfl

/-! ## What runs keep -/

/-- The identifiers the client has used do not go down. -/
theorem Passes.le (h : Passes T p q) : p.manager.lastClientStream ≤ q.manager.lastClientStream := by
  rcases h.lastClientStream with hs | ⟨hlt, -⟩
  · exact hs.ge
  · exact hlt.le

/-- The streams opened have odd identifiers in increasing order, up to the highest used. -/
structure Ordered (p : Processor) : Prop where
  increasing : p.manager.opens.Pairwise (· < ·)
  odd : ∀ i ∈ p.manager.opens, i % 2 = 1
  known : ∀ i ∈ p.manager.opens, i ≤ p.manager.lastClientStream

theorem Ordered.passes (h : Ordered p) (hp : Passes T p q) : Ordered q :=
  ⟨hp.opens ▸ h.increasing, hp.opens ▸ h.odd, fun i hi =>
    (h.known i (hp.opens ▸ hi)).trans hp.le⟩

theorem Ordered.begins (h : Ordered p) (hb : Begins T j p q) : Ordered q := by
  have hkn : ∀ i ∈ p.manager.opens, i < j := fun i hi => (h.known i hi).trans_lt hb.above
  refine ⟨?_, ?_, ?_⟩
  · rw [hb.opens, pairwise_append]
    refine ⟨h.increasing, pairwise_singleton _ _, fun i hi k hk => ?_⟩
    rw [mem_singleton.mp hk]
    exact hkn i hi
  · rw [hb.opens]
    exact forall_mem_append.mpr ⟨h.odd, forall_mem_singleton.mpr hb.odd⟩
  · rw [hb.opens, hb.lastClientStream]
    exact forall_mem_append.mpr ⟨fun i hi => (hkn i hi).le, forall_mem_singleton.mpr le_rfl⟩

theorem kept_ordered : Kept T Ordered where
  resizes h hp := hp.passes (T := T) h.passes
  change _ h hp := h.numbers.elim hp.passes fun ⟨_, hb⟩ => hp.begins hb
  counts h := { h with }

/-- The streams that are opened later have higher identifiers than those used. -/
structure Opened (known : Nat → Prop) (last : Nat) (p : Processor) : Prop where
  used : last ≤ p.manager.lastClientStream
  old : ∀ i ∈ p.manager.opens, i ≤ last → known i

theorem Opened.passes (h : Opened known last p) (hp : Passes T p q) : Opened known last q :=
  ⟨h.used.trans hp.le, fun i hi => h.old i (hp.opens ▸ hi)⟩

theorem kept_opened : Kept T (Opened known last) where
  resizes h hp := hp.passes (T := T) h.passes
  change _ h hp := by
    rcases h.numbers with hpa | ⟨j, hb⟩
    · exact hp.passes hpa
    · refine ⟨?_, fun i hi hle => ?_⟩
      · rw [hb.lastClientStream]
        exact hp.used.trans hb.above.le
      · rw [hb.opens] at hi
        rcases mem_append.mp hi with hi | hi
        · exact hp.old i hi hle
        · rw [mem_singleton.mp hi] at hle
          exact absurd hle (not_le.mpr (hp.used.trans_lt hb.above))
  counts h := ⟨h.used, h.old⟩

/-- Only streams the server has reset are marked. -/
def MarksReset (p : Processor) : Prop := ∀ i, p.Marked i → Manager.Reset i p.manager

theorem marksReset_newProcessor {cfg : Config} : MarksReset (newProcessor cfg) := by
  rintro i (hm | hm)
  · exact absurd (ServerResets.has_iff.mp hm).2.1 (not_lt_zero _)
  · cases hm

theorem kept_marksReset : Kept T MarksReset where
  resizes h hp i hm := by
    obtain ⟨code, hs⟩ := hp i (h.marked.mp hm)
    exact ⟨code, h.manager.writes.mem_sent hs⟩
  change _ h hp i hm := by
    rcases h.marked hm with hm | ⟨hr, -⟩
    · obtain ⟨code, hs⟩ := hp i hm
      exact ⟨code, h.sent hs⟩
    · exact hr
  counts h := h

/-- A block of headers on a stream is not taken. -/
structure Spent (i : Nat) (p : Processor) : Prop where
  known : i ≤ p.manager.lastClientStream
  gone : ¬p.Live i
  unmarked : ¬p.Marked i

theorem kept_spent (hf : ¬T.fresh i) : Kept T (Spent i) where
  resizes h hp := ⟨hp.known.trans (h.passes (T := T)).le, fun hl => hp.gone (h.live.mp hl),
    fun hm => hp.unmarked (h.marked.mp hm)⟩
  change hi h hp := by
    refine ⟨(h.passed hi.valid.nodup hp.known).1, fun hl => ?_, fun hm => ?_⟩
    · rcases h.live (i := i) hi with hs | hb | ⟨hg, -⟩
      · exact hp.gone (hs.mp hl)
      · exact hf hb.fresh
      · exact hg hl
    · rcases h.marked hm with hm | ⟨-, hf' | hl⟩
      · exact hp.unmarked hm
      · exact hf hf'
      · exact hp.gone hl
  counts h := { h with }

end Processor

def Scope.above (last : Nat) : Scope := { Scope.all with fresh := (last < ·) }

def Scope.used : Scope := { Scope.all with fresh := fun _ => False }

namespace Processor

variable {p q : Processor} {i : Nat} {last id : Nat} {f : Frame} {env : Env} {endStream : Bool}

theorem frameOk_above (h : last ≤ p.manager.lastClientStream) : FrameOk (.above last) p env f where
  block _ := ⟨h.trans_lt, fun _ => trivial, fun _ _ _ _ _ _ => trivial⟩
  ends _ _ := trivial
  reset _ := trivial
  goAway _ _ _ := trivial

theorem frameOk_used (h : ∀ {id endStream}, p.headerBlock f = some (id, endStream) →
    id ≤ p.manager.lastClientStream) : FrameOk .used p env f where
  block hb := ⟨fun hlt => not_le.mpr hlt (h hb), fun _ => trivial, fun _ _ _ _ _ _ => trivial⟩
  ends _ _ := trivial
  reset _ := trivial
  goAway _ _ _ := trivial

theorem spent_of_runs (hi : Inv .all p) (hp : Spent i p)
    (h : Transition.Runs step (fun _ _ => True) p q) :
    Spent i q := by
  refine (h.invariant (P := fun q => Inv .all q ∧ Spent i q) (fun {q r e} ⟨hi, hq⟩ _ hs => ?_)
    ⟨hi, hp⟩).2
  have hk : Kept (.above i) (Spent i) := kept_spent (lt_irrefl i)
  refine ⟨hi.step (eventOk_all q e) hs, hk.step (hi.scope rfl) ?_ hs hq⟩
  cases e with
  | frame env f => exact frameOk_above hq.known
  | _ => trivial

/-- The streams opened, and the highest identifier used. -/
def Numbered (opens : List Nat) (last : Nat) (p : Processor) : Prop :=
  p.manager.opens = opens ∧ p.manager.lastClientStream = last

variable {opens : List Nat} {priority : Option Priority} {block : Bytes}

theorem kept_numbered : Kept .used (Numbered opens last) where
  resizes h hp := ⟨(h.passes (T := .used)).opens.trans hp.1, h.manager.lastClientStream.trans hp.2⟩
  change _ h hp := by
    rcases h.numbers with hpa | ⟨j, hb⟩
    · exact ⟨hpa.opens.trans hp.1, (hpa.lastClientStream.resolve_right fun h => h.2).trans hp.2⟩
    · exact hb.fresh.elim
  counts h := h

theorem numbered_of_known (hi : Inv .all p) (hb : p.headerBlock f = some (id, endStream))
    (hid : id ≤ p.manager.lastClientStream) (h : step p (.frame env f) = some q) :
    Numbered p.manager.opens p.manager.lastClientStream q := by
  refine kept_numbered.step (e := .frame env f) (hi.scope rfl) (frameOk_used (fun hb' => ?_)) h
    ⟨rfl, rfl⟩
  cases hb.symm.trans hb'
  exact hid

/-! ## Header blocks -/

theorem numbered_completeHeaderBlock {trailers : Bool}
    (hi : Inv .all p) (ho : Requesting p i) (hp : Numbered opens last p)
    (h : p.completeHeaderBlock env trailers i endStream = (q, none)) : Numbered opens last q := by
  have hi : Inv .used p := hi.scope rfl
  obtain ⟨k, hc, -⟩ := yields_completeHeaderBlock hi ho env trailers endStream (fun _ => trivial)
    fun _ _ _ _ => trivial
  rw [h] at hc
  exact kept_numbered.changes hi hc hp

theorem numbered_sendRSTStreamAndMarkClosed (p : Processor) (id : Nat) (code : ErrCode) :
    Numbered p.manager.opens p.manager.lastClientStream (p.sendRSTStreamAndMarkClosed id code) := by
  by_cases hm : id ∈ p.manager.ids
  · have hl := leaves_sendRSTStreamAndMarkClosed hm code
    exact ⟨(congrArg opens hl.frame :), hl.lastClientStream⟩
  · rw [Numbered, sendRSTStreamAndMarkClosed_of_not_mem hm]
    exact ⟨rfl, rfl⟩

theorem refuseStream_none (h : p.refuseStream env id endStream = (q, none)) :
    Numbered p.manager.opens p.manager.lastClientStream q ∧ q.manager.wire = p.manager.wire ∧
      .rstStream id .refusedStream ∈ q.manager.outBuf := by
  obtain ⟨u, hc, h⟩ := andThen_eq_none h
  obtain ⟨v, hd, h⟩ := andThen_eq_none h
  cases h
  cases decodeRefused_none hd
  cases countRefusal_none hc
  have hm := markResetOpen_manager { p with refusals := p.refusals.count .streamLimit env.now } id
    endStream
  generalize { p with refusals := p.refusals.count .streamLimit env.now }.markResetOpen id
    endStream = u at hm ⊢
  have hn := numbered_sendRSTStreamAndMarkClosed u id .refusedStream
  have hw := sendRSTStreamAndMarkClosed_wire u id .refusedStream
  rw [hm] at hn hw
  refine ⟨hn, hw.1, ?_⟩
  rw [hw.2]
  exact mem_append_right _ (mem_singleton_self _)

theorem armRequest_manager (p : Processor) (id : Nat) (endStream : Bool) :
    (p.armRequest id endStream).manager.opens = p.manager.opens ∧
      (p.armRequest id endStream).manager.lastClientStream = p.manager.lastClientStream := by
  unfold armRequest
  split_ifs <;> exact ⟨rfl, rfl⟩

theorem numbers_prioritize (p : Processor) (id : Nat) (priority : Option Priority) :
    Numbered p.manager.opens p.manager.lastClientStream (p.prioritize id priority) := by
  cases priority with
  | none | some priority => exact ⟨rfl, rfl⟩

/-- A header block on a new stream starts a request, or the stream is refused. -/
theorem serveHeaderBlock_new (hinv : Inv .all p) (hid : p.manager.lastClientStream < id)
    (h : p.serveHeaderBlock env id endStream priority block = (q, none)) : id % 2 = 1 ∧
      (Numbered (p.manager.opens ++ [id]) id q ∨ Numbered p.manager.opens id q ∧
        q.manager.wire = p.manager.wire ∧ .rstStream id .refusedStream ∈ q.manager.outBuf) := by
  have hf : id ∈ p.manager.ids → (p.manager.stream id).state = .idle := fun hmem =>
    of_not_not fun hs => not_le.mpr hid ((hinv.valid.streams hmem).known hs)
  have ha : Admits .all p id (p.admitHeaders env id endStream) :=
    admits_admitHeaders env endStream fun _ => trivial
  have had : p.admitHeaders env id endStream = p.admitNew env id endStream :=
    if_pos (imp_iff_not_or.mp hf)
  unfold serveHeaderBlock at h
  split at h
  · cases h
  · rw [had] at h ha
    unfold admitNew at h ha
    rw [if_neg fun hle => not_le.mpr hid hle.1, if_neg (not_le.mpr hid)] at h ha
    cases hv : validateStreamID id p.manager.lastClientStream with
    | some text =>
      rw [hv] at h
      cases h
    | none =>
      rw [hv] at h ha
      refine ⟨(validateStreamID_none hv).2, ?_⟩
      unfold openStream at h ha
      cases htry : (p.manage fun m => { m with lastClientStream := id }).manager.tryOpenStream
        id with
      | none =>
        rw [htry] at h
        right
        obtain ⟨u, hr, h⟩ := andThen_eq_none h
        cases h
        exact refuseStream_none hr
      | some t =>
        rw [htry] at h ha
        left
        have ho := opens_of_tryOpenStream htry hf
        obtain ⟨u, hu, h⟩ := andThen_eq_none h
        have hopen := ha.opened hu nofun
        have hinv := hinv.yields ha.yields hu
        split_ifs at h
        · cases h
        · obtain ⟨hc, hopen⟩ := changes_prioritize hopen priority
          refine numbered_completeHeaderBlock (hinv.changes hc) hopen ?_ h
          cases hu
          have hn := numbers_prioritize (armRequest { p with manager := t } id endStream) id
            priority
          have harm := armRequest_manager { p with manager := t } id endStream
          exact ⟨hn.1.trans (harm.1.trans ho.opens), hn.2.trans
            (harm.2.trans (ho.lastClientStream.trans (if_pos (validateStreamID_none hv).2)))⟩

/-- What `admitHeaders` makes of an identifier that was used. -/
theorem admitHeaders_known (hp : Settled id p)
    (hid : id ≤ p.manager.lastClientStream) (h : (p.admitHeaders env id endStream).1 = (q, none)) :
    (p.admitHeaders env id endStream).2 = .trailers ∨
      ¬p.Live id ∧ p.Marked id ∧ q = (p.clearResetOpen id).forgetExpired id ∧
        (p.admitHeaders env id endStream).2 = .refused := by
  unfold admitHeaders admitNew at h ⊢
  dsimp only at h ⊢
  split_ifs at h ⊢ with hn hm he hc hr hb he
  any_goals cases h
  · exact .inr ⟨fun hl => hn.elim (· hl.1) hl.2, hm.2, decodeRefused_none h, rfl⟩
  · exact .inl rfl
  · obtain ⟨hmem, hi⟩ := not_or.mp hn
    refine absurd (hp.begun (not_not.mp hmem) ?_) hb
    exact requesting_of_ne hi hc hr

/-- A header block on an identifier that was used is the trailer block of a request that has
not ended, or is ignored. -/
theorem serveHeaderBlock_known (hp : Settled id p) (hid : id ≤ p.manager.lastClientStream)
    (h : p.serveHeaderBlock env id endStream priority block = (q, none)) :
    (Requesting p id ∧ (p.manager.stream id).receivedInitialHeaders = true) ∨
      ¬p.Live id ∧ p.Marked id ∧ q = (p.clearResetOpen id).forgetExpired id := by
  unfold serveHeaderBlock at h
  split at h
  · cases h
  · have ha : Admits .all p id (p.admitHeaders env id endStream) :=
      admits_admitHeaders env endStream fun _ => trivial
    have hk := fun (u : Processor) (hu : (p.admitHeaders env id endStream).1 = (u, none)) =>
      admitHeaders_known hp hid hu
    generalize p.admitHeaders env id endStream = x at h ha hk
    rcases x with ⟨r, admission⟩
    obtain ⟨u, hu, h⟩ := andThen_eq_none h
    rcases hk u hu with ht | ⟨hg, hm, hs, hr⟩
    · exact .inl (ha.trailers ht).2
    · cases hr
      cases h
      exact .inr ⟨hg, hm, hs⟩

/-- The frame that ends a header block serves it, unless the connection ends. -/
theorem processFrame_headerBlock (hb : p.headerBlock f = some (id, endStream))
    (h : p.processFrame env f = (q, none)) :
    ∃ priority block, serveHeaderBlock { p with continuationState := none } env id endStream
      priority block = (q, none) := by
  rcases headerBlock_cases hb with ⟨g, rfl, hcs, he, rfl, rfl⟩ | ⟨cs, fragment, rfl, hcs, rfl, rfl⟩
  · have hs : { p with continuationState := none } = p := by rw [← hcs]
    have hh : p.processFrame env (.headers g) = p.handleFrame env
      (.headers g) := by rw [processFrame, hcs]
    rw [hh, handleFrame] at h
    unfold handleHeaders at h
    rw [hs]
    split_ifs at h
    · cases h
    · exact ⟨_, _, h⟩
  · have hh : p.processFrame env (.continuation cs.streamID true fragment) =
        p.handleContinuation env cs.streamID true fragment := by
      rw [processFrame, hcs]
      exact if_pos (decide_eq_true rfl)
    rw [hh] at h
    unfold handleContinuation at h
    rw [hcs] at h
    dsimp only at h
    split_ifs at h with _ _ _ hm
    · cases h
    · cases h
    · cases h
    · cases hm
    · exact ⟨_, _, h⟩

/-- What the server does with a header block if the connection goes on. -/
inductive Verdict (p : Processor) (id : Nat) (q : Processor) : Prop
  /-- The trailers of a request that has begun and not ended. -/
  | trailers (hid : id ≤ p.manager.lastClientStream) (hopen : Requesting p id)
      (hbegun : (p.manager.stream id).receivedInitialHeaders = true)
      (hsame : Numbered p.manager.opens p.manager.lastClientStream q)
  /-- Ignored, on a stream that the server has reset, and not again. -/
  | ignored (hid : id ≤ p.manager.lastClientStream) (hreset : Manager.Reset id p.manager)
      (hmarked : p.Marked id)
      (hspent : Spent id q) (hsame : q.manager = p.manager.flushOut.drainWriteQueue)
        (hserved : q.served = p.served)
  /-- A request starts. -/
  | started (hid : p.manager.lastClientStream < id) (hodd : id % 2 = 1)
      (hopens : Numbered (p.manager.opens ++ [id]) id q)
  /-- The stream is refused. -/
  | refused (hid : p.manager.lastClientStream < id) (hodd : id % 2 = 1)
      (hopens : Numbered p.manager.opens id q)
      (hreset : ∃ before after, q.manager.wire = p.manager.wire ++ before ++
        .rstStream id .refusedStream :: after)

theorem verdict_of_step (hi : Inv .all p) (hp : Settled id p)
    (hma : MarksReset p) (hb : p.headerBlock f = some (id, endStream))
    (h : step p (.frame env f) = some q)
    (ho : q.ended = false) : Verdict p id q := by
  obtain ⟨r, hpr, rfl⟩ := step_frame h ho
  obtain ⟨priority, block, hs⟩ :=
    processFrame_headerBlock (p := p.setHasMoreFrames env.hasMoreFrames) hb hpr
  have hmore : Inv .all (p.setHasMoreFrames env.hasMoreFrames) := hi.resizes ⟨.refl _, rfl⟩
  have hi' : Inv .all { p.setHasMoreFrames env.hasMoreFrames with continuationState := none } :=
    hmore.changes (changes_block nofun)
  have hp' : Settled id { p.setHasMoreFrames env.hasMoreFrames with continuationState := none } :=
    ⟨hp.begun, hp.ended⟩
  by_cases hid : id ≤ p.manager.lastClientStream
  · rcases serveHeaderBlock_known hp' hid hs with ⟨ho, hbe⟩ | ⟨hg, hm, rfl⟩
    · exact .trailers hid ⟨ho.mem, ho.opened⟩ hbe (numbered_of_known hi hb hid h)
    · refine .ignored hid (hma id hm) hm ⟨hid, hg, fun hm => ?_⟩ rfl rfl
      exact (marked_forget (p := p) hm).2 rfl
  · obtain ⟨hodd, hn | ⟨hn, hw, hr⟩⟩ := serveHeaderBlock_new hi' (not_le.mp hid) hs
    · exact .started (not_le.mp hid) hodd hn
    · exact .refused (not_le.mp hid) hodd hn (wire_flushed hw hr)

/-- Whatever the frames, the sweeps and the handlers: the streams that were opened have odd
identifiers in increasing order. The highest identifier used does not go down, and no
stream is opened later at or below it. A frame that ends a header block ends the
connection, or has one of the verdicts: at or below the highest identifier used it is
the trailer block of a request that has not ended, or is ignored, which happens only on
a stream that the server has reset and once; above, it starts a request or is refused.
Nothing else starts a request or uses an identifier. -/
theorem identifiers_disciplined {cfg : Config} {p : Processor}
    (h : Transition.Runs step (fun _ _ => True) (newProcessor cfg) p) :
    p.manager.opens.Pairwise (· < ·) ∧
    (∀ i ∈ p.manager.opens, i % 2 = 1 ∧ i ≤ p.manager.lastClientStream) ∧
    (∀ {q}, Transition.Runs step (fun _ _ => True) p q →
      p.manager.lastClientStream ≤ q.manager.lastClientStream ∧
      (∀ i ∈ q.manager.opens, i ≤ p.manager.lastClientStream → i ∈ p.manager.opens) ∧
        ∀ i, Spent i p → Spent i q) ∧
    (∀ {env f q id endStream}, step p (.frame env f) = some q →
      p.headerBlock f = some (id, endStream) →
      q.ended = true ∧ (id ≤ p.manager.lastClientStream →
        Numbered p.manager.opens p.manager.lastClientStream q) ∨
      Verdict p id q) ∧ ∀ {e q}, step p e = some q →
        (∀ env f, e = .frame env f → p.headerBlock f = none) →
      Numbered p.manager.opens p.manager.lastClientStream q := by
  have hinv : Inv .all p := inv_of_runs (fun _ => eventOk_all _ _) h
  obtain ⟨-, ho⟩ := kept_ordered.runs (T := .all) (fun _ => eventOk_all _ _) (inv_newProcessor cfg)
    ⟨List.Pairwise.nil, nofun, nofun⟩ h
  obtain ⟨-, hm⟩ :=
    kept_marksReset.runs (T := .all) (fun _ => eventOk_all _ _) (inv_newProcessor cfg)
    marksReset_newProcessor h
  refine ⟨ho.increasing, fun i hi => ⟨ho.odd i hi, ho.known i hi⟩, fun {q} hr => ?_,
    fun {env f q id endStream} hstep hb => ?_, fun {e q} hstep hn => ?_⟩
  · obtain ⟨-, hop⟩ := kept_opened.runs (T := .all) (fun _ => eventOk_all _ _) hinv
      (⟨le_rfl, fun i hi _ => hi⟩ : Opened (· ∈ p.manager.opens) p.manager.lastClientStream p) hr
    exact ⟨hop.used, hop.old, fun i hs => spent_of_runs hinv hs hr⟩
  · cases he : q.ended with
    | true => exact .inl ⟨rfl, fun hid => numbered_of_known hinv hb hid hstep⟩
    | false =>
      have hopen := not_ended_of_step hstep he
      exact .inr (verdict_of_step hinv (settled_of_runs h hopen) hm hb hstep he)
  · refine kept_numbered.step (hinv.scope rfl) ?_ hstep ⟨rfl, rfl⟩
    cases e with
    | frame env f =>
      refine frameOk_used (fun hb => ?_)
      rw [hn env f rfl] at hb
      cases hb
    | _ => trivial

/-- A request on stream 1 is served; one on stream 3 is malformed and reset before it ends,
so that its trailers are ignored. -/
theorem resetThenTrailers_disciplined : let get : List Field :=
      [(ascii ":method", ascii "GET"), (ascii ":scheme", ascii "http"), (ascii ":path", ascii "/")]
    let headers (id : Nat) (endStream : Bool) : Frame := .headers ⟨id, endStream, true, none, [], 0⟩
    let events : List Event :=
      [.frame { decoded := .fields get } (headers 1 true),
        .frame { decoded := .fields [] } (headers 3 false)]
    ∃ p q, exec step (fun _ _ => True) (newProcessor {}) events = some p ∧
      step p (.frame {} (headers 3 true)) = some q ∧ q.ended = false ∧ p.manager.opens = [1, 3] ∧
      p.manager.opens.Pairwise (· < ·) ∧ Verdict p 3 q := by
  intro get headers events
  obtain ⟨p, hexec, q, hs, he, ho, hb⟩ : ∃ p ∈ exec step (fun _ _ => True) (newProcessor {}) events,
    ∃ q ∈ step p (.frame {} (headers 3 true)), q.ended = false ∧ p.manager.opens = [1, 3] ∧
      p.headerBlock (headers 3 true) = some (3, true) := by decide +kernel
  obtain ⟨hi, -, -, hv, -⟩ := identifiers_disciplined (runs_of_exec hexec)
  refine ⟨p, q, hexec, hs, he, ho, hi, (hv hs hb).resolve_left fun h => ?_⟩
  cases he.symm.trans h.1

end Processor

end Celeris.H2
