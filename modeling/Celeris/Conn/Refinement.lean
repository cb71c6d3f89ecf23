import Celeris.Conn.Decoder

/-!
# `ProcessH1` reads the stream

`Represents` says which position of the stream the buffers of a connection stand
for. `processH1` takes a connection that represents a position to one that
represents where the machine of `Celeris.Conn.Decoder` settles with the new bytes:
on fresh data, on the buffer, in a fixed-length body and in a chunked one.
-/

namespace Celeris.Conn

open H1 Incremental Machine Position List Nat Connection

/-- The position of the stream that a connection stands for. -/
inductive Represents (cfg : Config) (c : Connection) : Position → Prop
  | head : c.ended = none → c.state.bodyNeeded = 0 → c.state.chunkedInProgress = false →
      c.state.chunkBuf = [] → Represents cfg c ⟨c.log, .head c.state.buffer⟩
  | body {n : Nat} {req : Request} : c.ended = none → c.state.chunkedInProgress = false →
      c.state.chunkBuf = [] → parseRequest cfg.options c.state.buffer = .done n req →
      c.state.bodyBuf.length < c.state.bodyNeeded →
      Represents cfg c ⟨c.log, .body req c.state.bodyNeeded c.state.bodyBuf⟩
  | chunked {head pending : Bytes} {req : Request} : c.ended = none → c.state.bodyNeeded = 0 →
      c.state.chunkedInProgress = true → c.state.buffer = head ++ pending →
      head.length = c.state.chunkHeadLen →
      parseRequest cfg.options head = .done head.length req →
      Represents cfg c ⟨c.log, .chunked req c.state.chunkBuf c.state.chunkExcess pending⟩
  | ended {e : End} : c.ended = some e → Represents cfg c ⟨c.log, .ended e.kind⟩

/-- The position of a connection that waits for a head, and is not in a body. -/
structure Idle (c : Connection) : Prop where
  ended : c.ended = none
  bodyNeeded : c.state.bodyNeeded = 0
  chunkedInProgress : c.state.chunkedInProgress = false
  chunkBuf : c.state.chunkBuf = []

variable {cfg : Config} {c c' : Connection} {req : Request} {fuel now : Nat} {data : Bytes}

theorem Idle.represents (h : Idle c) : Represents cfg c ⟨c.log, .head c.state.buffer⟩ :=
  .head h.ended h.bodyNeeded h.chunkedInProgress h.chunkBuf

theorem Idle.of_state (h : Idle c) (he : c'.ended = none) (hs : c'.state = c.state) : Idle c' :=
  ⟨he, hs ▸ h.bodyNeeded, hs ▸ h.chunkedInProgress, hs ▸ h.chunkBuf⟩

theorem Idle.clearHeaderDeadline (h : Idle c) : Idle c.clearHeaderDeadline :=
  { h with }

theorem Idle.withBuffer (h : Idle c) {buffer : Bytes} : Idle (c.withBuffer buffer) :=
  { h with }

variable {log : List Event} {decoded rest : Bytes} {excess : Nat}

theorem settle_ended {e : Ending} : (decoder cfg).settle ⟨log, .ended e⟩ = ⟨log, .ended e⟩ :=
  settle_of_none rfl

/-! ## Answers -/

variable {body : Bytes} {n : Nat} {b : Prop}

theorem serve_eq (h : c.ended = none) : serve cfg req body c = { c with
        log := (served cfg c.log req body).1
        ended := (served cfg c.log req body).2 } := by
  obtain ⟨state, log, ended⟩ := c
  subst h
  unfold serve served
  by_cases hup : upgrades cfg req = true
  · simp [if_pos hup]
  · simp only [if_neg hup]
    cases cfg.handler log ⟨req.method, req.path, req.rawHeaders, body⟩ with
    | fail | close => rfl
    | keep => cases req.keepAlive <;> rfl

theorem expectContinue_eq (h : c.ended = none) : expectContinue cfg req c = { c with
        log := (expected cfg c.log req).1
        ended := (expected cfg c.log req).2 } := by
  obtain ⟨state, log, ended⟩ := c
  subst h
  unfold expectContinue expected
  split_ifs <;> rfl

theorem refuse_represents {code : Nat} {text : String} :
    Represents cfg (c.refuse code text) ⟨c.log, .ended .refused⟩ :=
  Represents.ended (c := c.refuse code text) rfl

/-- Behind an answer, which may end the connection and leaves its buffers. -/
theorem represents_goOn {next : Connection} {r : List Event × Option End}
    {phase : Phase} (hc' : c' = { c with log := r.1, ended := r.2 })
    (hn : c'.ended = none → c'.state = c.state →
      Represents cfg next ((decoder cfg).settle ⟨c'.log, phase⟩)) :
    Represents cfg (if c'.ended.isSome then c' else next)
      ((decoder cfg).settle (.goOn r phase)) := by
  obtain ⟨log, ended⟩ := r
  subst hc'
  cases ended with
  | none =>
    exact hn rfl rfl
  | some e =>
    simp only [goOn, settle_ended]
    exact Represents.ended (c := { c with log := log, ended := some e }) rfl

/-! ## Chunks -/

/-- The position that `scanChunked` comes to. -/
def Scan.settled (cfg : Config) (log : List Event) (req : Request) : Scan → Position
  | .refused _ _ => ⟨log, .ended .refused⟩
  | .more decoded excess rest => ⟨log, .chunked req decoded excess rest⟩
  | .done body rest => (decoder cfg).settle (.goOn (served cfg log req body) (.head rest))

theorem settle_scanChunked (hf : rest.length < fuel) :
    (decoder cfg).settle ⟨log, .chunked req decoded excess rest⟩ =
      (scanChunked cfg fuel decoded excess rest).settled cfg log req := by
  induction fuel generalizing decoded excess rest with
  | zero => exact absurd hf (not_lt_zero _)
  | succ fuel ih =>
    rw [scanChunked]
    cases hp : parseChunkedBody rest with
    | error e =>
      rw [settle_of_some (step_chunked_error log hp), settle_ended]
      rfl
    | ok chunk =>
      cases chunk with
      | needMore =>
        have hs : step cfg ⟨log, .chunked req decoded excess rest⟩ =
            if (checkPartialChunk cfg decoded rest).isSome then
              some ⟨log, .ended .refused⟩ else none := by
          simp [Position.step, hp]
        cases hpart : checkPartialChunk cfg decoded rest with rw [hpart] at hs
        | none => exact settle_of_none hs
        | some answer =>
          rw [settle_of_some hs, settle_ended]
          rfl
      | last n =>
        exact settle_of_some (step_chunked_last log hp)
      | data chunk n =>
        obtain ⟨hpos, hle⟩ := parseChunkedBody_consumed (.inr ⟨chunk, hp⟩)
        rw [settle_of_some (step_chunked_data log hp)]
        simp only [chunkStep]
        split_ifs with h1 h2
        · exact settle_ended
        · exact settle_ended
        · exact ih (by rw [length_drop]; omega)

theorem settle_scan : (decoder cfg).settle ⟨log, .chunked req decoded excess rest⟩ =
      (scan cfg decoded excess rest).settled cfg log req :=
  settle_scanChunked (lt_succ_self _)

theorem length_of_scan_done {rest' : Bytes}
    (h : scan cfg decoded excess rest = .done body rest') : rest'.length ≤ rest.length := by
  unfold scan at h
  generalize rest.length + 1 = fuel at h
  induction fuel generalizing decoded excess rest with
  | zero => cases h
  | succ fuel ih =>
    rw [scanChunked] at h
    split at h
    · cases h
    · split at h <;> cases h
    · cases h
      rw [length_drop]
      omega
    · simp only at h
      split_ifs at h
      refine (ih h).trans ?_
      rw [length_drop]
      omega

/-! ## The buffered loop -/

/-- The bytes of a head, and what follows it. -/
theorem parseRequest_take {o : Options} {U : Bytes} (h : parseRequest o U = .done n req) :
    0 < n ∧ n ≤ U.length ∧ parseRequest o (U.take n) = .done n req := by
  obtain ⟨W, R, rfl, rfl, hne, hW⟩ := parseRequest_done h
  refine ⟨length_pos_of_ne_nil hne, by simp, ?_⟩
  rw [take_left, ← hW [], append_nil]

theorem bufferedLoop_represents (hfuel : c.state.buffer.length < fuel) (hidle : Idle c) :
    Represents cfg (bufferedLoop cfg fuel c)
      ((decoder cfg).settle ⟨c.log, .head c.state.buffer⟩) := by
  induction fuel generalizing c with
  | zero => exact absurd hfuel (not_lt_zero _)
  | succ fuel ih =>
    rw [bufferedLoop]
    by_cases hem : c.state.buffer = []
    · rw [if_pos (by simp [hem]), settle_of_none (by rw [hem]; rfl)]
      exact hidle.represents
    rw [if_neg (by simpa using hem)]
    cases hp : parseRequest cfg.options c.state.buffer with
    | error e =>
      rw [settle_of_some (step_head_error c.log hem hp), settle_ended]
      exact refuse_represents
    | needMore =>
      rw [settle_of_none (step_head_needMore c.log hp)]
      exact hidle.represents
    | done n req =>
      rw [settle_of_some (step_head_done c.log hp)]
      obtain ⟨hpos, hle, htake⟩ := parseRequest_take hp
      have hcl : Idle c.clearHeaderDeadline := hidle.clearHeaderDeadline
      -- The loop goes on with fewer bytes in the buffer.
      have ha {c' : Connection} {body : Bytes} (hc' : Idle c')
        (hbuf : c'.state.buffer.length < c.state.buffer.length) :
          Represents cfg (if (serve cfg req body c').ended.isSome then serve cfg req body c'
              else bufferedLoop cfg fuel (serve cfg req body c'))
            ((decoder cfg).settle (.goOn (served cfg c'.log req body)
              (.head c'.state.buffer))) := by
        refine represents_goOn (serve_eq hc'.ended) fun he hs => ?_
        rw [← hs]
        exact ih (by rw [hs]; omega) (hc'.of_state he hs)
      simp only [headStep]
      cases hkind : bodyKind req with
      | absent =>
        refine ha hcl.withBuffer ?_
        simp only [withBuffer_buffer, length_drop]
        omega
      | fixed k =>
        simp only
        by_cases hover : cfg.overLimit k = true
        · rw [if_pos hover, if_pos hover, settle_ended]
          exact refuse_represents
        rw [if_neg hover, if_neg hover]
        refine represents_goOn (expectContinue_eq hcl.ended) fun he hs => ?_
        have hc' := hcl.of_state he hs
        by_cases hk : k ≤ (c.state.buffer.drop n).length
        · rw [settle_of_some (step_body_done _ hk), if_pos hk]
          refine ha hc'.withBuffer ?_
          simp only [withBuffer_buffer, length_drop]
          omega
        · rw [settle_of_none (step_body_needMore _ (Nat.lt_of_not_le hk)), if_neg hk]
          exact Represents.body hc'.ended hc'.chunkedInProgress hc'.chunkBuf htake
            (Nat.lt_of_not_le hk)
      | chunked =>
        refine represents_goOn (expectContinue_eq hcl.ended) fun he hs => ?_
        have hc' := hcl.of_state he hs
        rw [settle_scan, hc'.chunkBuf]
        cases hscan : scan cfg [] 0 (c.state.buffer.drop n) with
        | refused code text => exact refuse_represents
        | more decoded excess rest =>
          have hlen : (c.state.buffer.take n).length = n := length_take_of_le hle
          exact Represents.chunked hc'.ended hc'.bodyNeeded rfl rfl hlen (by rw [htake, hlen])
        | done body rest =>
          have hrest := length_of_scan_done hscan
          rw [length_drop] at hrest
          exact ha ⟨hc'.ended, hc'.bodyNeeded, hc'.chunkedInProgress, rfl⟩
            (lt_of_le_of_lt hrest (by omega))

/-! ## The loop over fresh data -/

theorem finishLoop_ite [Decidable b] {r : Connection × Bool} :
    finishLoop cfg (if b then (c, false) else r) = if b then c else finishLoop cfg r := by
  split_ifs <;> rfl

theorem freshLoop_represents (hfuel : data.length < fuel) (hidle : Idle c)
    (hbuf : c.state.buffer = []) :
    Represents cfg (finishLoop cfg (freshLoop cfg fuel data c))
      ((decoder cfg).settle ⟨c.log, .head data⟩) := by
  induction fuel generalizing c data with
  | zero => exact absurd hfuel (not_lt_zero _)
  | succ fuel ih =>
    rw [freshLoop]
    by_cases he : data = []
    · rw [if_pos (by simp [he]), he, ← hbuf]
      exact bufferedLoop_represents (lt_succ_self _) hidle
    rw [if_neg (by simpa using he)]
    cases hp : parseRequest cfg.options data with
    | error e =>
      rw [settle_of_some (step_head_error c.log he hp), settle_ended]
      exact refuse_represents
    | needMore =>
      rw [settle_of_none (step_head_needMore c.log hp), hbuf]
      exact hidle.withBuffer.represents
    | done n req =>
      obtain ⟨hpos, hle, htake⟩ := parseRequest_take hp
      have hcl : Idle c.clearHeaderDeadline := hidle.clearHeaderDeadline
      -- The loop goes on with less data.
      have ha {c' : Connection} {body rest : Bytes} (hc' : Idle c')
          (hbuf' : c'.state.buffer = []) (hrest : rest.length < data.length) :
          Represents cfg (finishLoop cfg (if (serve cfg req body c').ended.isSome then
            (serve cfg req body c', false)
                else freshLoop cfg fuel rest (serve cfg req body c')))
            ((decoder cfg).settle (.goOn (served cfg c'.log req body) (.head rest))) := by
        rw [finishLoop_ite]
        refine represents_goOn (serve_eq hc'.ended) fun hen hs => ?_
        exact ih (by omega) (hc'.of_state hen hs) (by rw [hs, hbuf'])
      simp only
      cases hkind : bodyKind req with
      | absent =>
        rw [settle_of_some (step_head_done c.log hp)]
        simp only [headStep, hkind]
        exact ha hcl hbuf (by rw [length_drop]; omega)
      | fixed k =>
        rw [settle_of_some (step_head_done c.log hp)]
        simp only [headStep, hkind]
        by_cases hover : cfg.overLimit k = true
        · rw [if_pos hover, if_pos hover, settle_ended]
          exact refuse_represents
        rw [if_neg hover, if_neg hover, finishLoop_ite]
        refine represents_goOn (expectContinue_eq hcl.ended) fun hen hs => ?_
        have hc' := hcl.of_state hen hs
        by_cases hk : k ≤ (data.drop n).length
        · rw [settle_of_some (step_body_done _ hk), if_pos hk]
          refine ha hc' (by rw [hs]; exact hbuf) ?_
          simp only [length_drop]
          omega
        · rw [settle_of_none (step_body_needMore _ (Nat.lt_of_not_le hk)), if_neg hk]
          exact Represents.body hc'.ended hc'.chunkedInProgress hc'.chunkBuf htake
            (Nat.lt_of_not_le hk)
      | chunked =>
        -- The head is parsed again in the buffer.
        rw [show (c.clearHeaderDeadline).state.buffer = [] from hbuf, nil_append]
        exact bufferedLoop_represents (lt_succ_self _) hcl.withBuffer

theorem runLoops_represents (cfg : Config) (data : Bytes) (hi : Idle c) :
    Represents cfg (runLoops cfg data c)
      ((decoder cfg).settle ⟨c.log, .head (c.state.buffer ++ data)⟩) := by
  unfold runLoops
  split_ifs with he
  · have hb : c.state.buffer = [] := by simpa using he
    rw [hb, nil_append]
    exact freshLoop_represents (lt_succ_self _) hi hb
  · exact bufferedLoop_represents (lt_succ_self _) hi.withBuffer

/-! ## One read -/

/-- Only the deadline of a connection changes. -/
structure SameButDeadline (c c' : Connection) : Prop where
  log : c'.log = c.log
  ended : c'.ended = c.ended
  state : { c'.state with headerDeadlineNs := 0 } = { c.state with headerDeadlineNs := 0 }

theorem SameButDeadline.idle (h : SameButDeadline c c') (hi : Idle c) : Idle c' where
  ended := h.ended.trans hi.ended
  bodyNeeded := (congrArg (·.bodyNeeded) h.state :).trans hi.bodyNeeded
  chunkedInProgress := (congrArg (·.chunkedInProgress) h.state :).trans hi.chunkedInProgress
  chunkBuf := (congrArg (·.chunkBuf) h.state :).trans hi.chunkBuf

theorem SameButDeadline.buffer (h : SameButDeadline c c') :
    c'.state.buffer = c.state.buffer := congrArg (·.buffer) h.state

theorem armHeaderDeadline_same : SameButDeadline c (c.armHeaderDeadline cfg now) := by
  unfold armHeaderDeadline
  split_ifs <;> exact ⟨rfl, rfl, rfl⟩

theorem enter_same (cfg : Config) (now : Nat) (c : Connection) :
    SameButDeadline c (enter cfg now c) := by
  unfold enter
  split_ifs
  · exact armHeaderDeadline_same
  · exact ⟨rfl, rfl, rfl⟩

/-- Between two requests, or in a head. -/
theorem processH1_of_idle (h : Idle c) :
    processH1 cfg now data c = runLoops cfg data (enter cfg now c) := by
  have he := (enter_same cfg now c).idle h
  unfold processH1
  simp only [h.ended, he.bodyNeeded, he.chunkedInProgress]
  rfl

/-- In a body, whose bytes start no deadline. -/
theorem processH1_of_body (he : c.ended = none) (h : 0 < c.state.bodyNeeded) :
    processH1 cfg now data c = resume cfg (continueBody cfg data c) := by
  have hen : enter cfg now c = c := if_neg (by omega)
  unfold processH1
  simp only [he, hen, h, if_true]
  rfl

theorem processH1_of_chunked (he : c.ended = none) (hn : c.state.bodyNeeded = 0)
    (h : c.state.chunkedInProgress = true) :
    processH1 cfg now data c = resume cfg (continueChunked cfg now data c) := by
  have hen : enter cfg now c = c := if_neg (by simp [h])
  unfold processH1
  simp only [he, hen, hn, h]
  rfl

theorem resume_ite [Decidable b] {r : Connection × Option Bytes} :
    resume cfg (if b then (c, none) else r) = if b then c else resume cfg r := by
  split_ifs <;> rfl

/-- In a body of which not all bytes have arrived. -/
theorem continueBody_represents (he : c.ended = none) (hch : c.state.chunkedInProgress = false)
    (hbuf : c.state.chunkBuf = []) (hp : parseRequest cfg.options c.state.buffer = .done n req)
    (hlt : c.state.bodyBuf.length < c.state.bodyNeeded) :
    Represents cfg (resume cfg (continueBody cfg data c))
      ((decoder cfg).settle ⟨c.log, .body req c.state.bodyNeeded (c.state.bodyBuf ++ data)⟩) := by
  unfold continueBody
  by_cases hm : data.length < c.state.bodyNeeded - c.state.bodyBuf.length
  · have hlen : (c.state.bodyBuf ++ data).length < c.state.bodyNeeded := by
      rw [length_append]
      omega
    rw [if_pos hm, settle_of_none (step_body_needMore c.log hlen)]
    exact Represents.body he hch hbuf hp hlen
  · have hlen : c.state.bodyNeeded ≤ (c.state.bodyBuf ++ data).length := by
      rw [length_append]
      omega
    rw [if_neg hm, hp, settle_of_some (step_body_done c.log hlen), take_append, drop_append,
      take_of_length_le hlt.le, drop_eq_nil_of_le hlt.le, nil_append]
    simp only [resume_ite]
    refine represents_goOn (serve_eq he) fun he' hs => ?_
    generalize hc' : serve cfg req _ _ = c' at he' hs ⊢
    have hi : Idle { c' with state := { c'.state with bodyBuf := [], bodyNeeded := 0 } } :=
      ⟨he', rfl, by rw [hs]; exact hch, by rw [hs]; exact hbuf⟩
    have hem : c'.state.buffer = [] := by rw [hs]; rfl
    generalize data.drop (c.state.bodyNeeded - c.state.bodyBuf.length) = rest
    cases rest with
    | nil =>
      have hh : Represents cfg _ _ := hi.represents
      simp only [hem] at hh
      rw [settle_of_none (step_head_nil cfg c'.log)]
      simp only [hem]
      exact hh
    | cons b rest =>
      have hl := runLoops_represents cfg (b :: rest) hi
      simp only [hem, nil_append] at hl
      simp only [hem]
      exact hl

/-- In a chunked body. -/
theorem continueChunked_represents {head pending : Bytes} (he : c.ended = none)
    (hn : c.state.bodyNeeded = 0) (hch : c.state.chunkedInProgress = true)
    (hb : c.state.buffer = head ++ pending) (hh : head.length = c.state.chunkHeadLen)
    (hp : parseRequest cfg.options head = .done head.length req) :
    Represents cfg (resume cfg (continueChunked cfg now data c))
      ((decoder cfg).settle ⟨c.log, .chunked req c.state.chunkBuf c.state.chunkExcess (pending ++
        data)⟩) := by
  unfold continueChunked
  rw [settle_scan, hb, ← hh, take_left, drop_left]
  cases hscan : scan cfg c.state.chunkBuf c.state.chunkExcess (pending ++ data) with
  | refused code text => exact refuse_represents
  | more decoded excess rest =>
    exact Represents.chunked he hn hch rfl hh hp
  | done body rest =>
    simp only [hp, ne_eq, not_true_eq_false, if_false, resume_ite]
    refine represents_goOn (serve_eq he) fun he' hs => ?_
    generalize hc' : serve cfg req _ _ = c' at he' hs ⊢
    have hi : Idle c' := ⟨he', by rw [hs]; exact hn, by rw [hs], by rw [hs]⟩
    have hr : c'.state.buffer = rest := by rw [hs]
    have hl {c'' : Connection} (hsame : SameButDeadline c' c'') :
        Represents cfg (runLoops cfg [] c'') ((decoder cfg).settle ⟨c'.log, .head rest⟩) := by
      have := runLoops_represents cfg [] (hsame.idle hi)
      rwa [hsame.log, hsame.buffer, hr, append_nil] at this
    split_ifs
    · exact hl ⟨rfl, rfl, rfl⟩
    · exact hl armHeaderDeadline_same

/-- `processH1` makes every step that the stream allows. -/
theorem processH1_represents {p : Position} (h : Represents cfg c p) :
    Represents cfg (processH1 cfg now data c) ((decoder cfg).settle (p.feed data)) := by
  cases h with
  | head he hn hc hb =>
    have hi : Idle c := ⟨he, hn, hc, hb⟩
    have hs := enter_same cfg now c
    have hl := runLoops_represents cfg data (hs.idle hi)
    rw [hs.log, hs.buffer] at hl
    rw [processH1_of_idle hi]
    exact hl
  | body he hc hb hp hlt =>
    rw [processH1_of_body he (by omega)]
    exact continueBody_represents he hc hb hp hlt
  | chunked he hn hc hb hh hp =>
    rw [processH1_of_chunked he hn hc]
    exact continueChunked_represents he hn hc hb hh hp
  | ended he =>
    rw [processH1, if_pos (by simp [he])]
    simp only [Position.feed, Phase.feed, settle_ended]
    exact .ended he

end Celeris.Conn
