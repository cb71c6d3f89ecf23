import Celeris.Conn.HeadBound

/-!
# The deadline of a head

`processH1` arms the deadline when bytes arrive for a head, and clears it when a
head is complete. A read may bring the end of one request and the start of the
next head. Then the deadline of the first head is cleared, and none is armed for
the second: it has none until more of it arrives. Only behind a chunked body that
spans reads is the deadline armed again.

`headDeadline_iff` says exactly when the deadline is there: when the read that left
a head incomplete brought the end of no head, and of no fixed-length body, before
it. A deadline that is armed is kept.
-/

namespace Celeris.H1

def Parsed.isDone : Parsed → Bool
  | .done _ _ => true
  | _ => false

end Celeris.H1

namespace Celeris.Conn

open H1 Incremental List Connection

/-! ## What a call does to the deadline -/

variable {fuel : Nat} {reads : List Read} {r : Read}

/-- The buffered loop clears the deadline when the head in the buffer is complete. -/
theorem bufferedLoop_deadline {cfg : Config} {c : Connection} :
    (bufferedLoop cfg fuel c).state.headerDeadlineNs =
      if 0 < fuel ∧ (parseRequest cfg.options c.state.buffer).isDone then 0
      else c.state.headerDeadlineNs := by
  induction fuel generalizing c with
  | zero => rfl
  | succ fuel ih =>
    rw [bufferedLoop]
    split
    · rw [if_neg (by simp_all [parseRequest, Parsed.isDone])]
    · split <;> rename_i hp <;> rw [hp]
      · rfl
      · rfl
      · rw [if_pos ⟨Nat.succ_pos _, rfl⟩]
        dsimp only
        repeat' split
        all_goals simp [ih, serve_state, expectContinue_state, refuse, stashBody,
          clearHeaderDeadline, withBuffer]

variable {data : Bytes} {c : Connection} {cfg : Config} {now : Nat}

/-- The loop over fresh data, with what follows it, does the same. -/
theorem freshLoop_deadline (hb : c.state.buffer = []) :
    (finishLoop cfg (freshLoop cfg fuel data c)).state.headerDeadlineNs =
      if 0 < fuel ∧ (parseRequest cfg.options data).isDone then 0
      else c.state.headerDeadlineNs := by
  have hl {c : Connection} : finishLoop cfg (c, false) = c := rfl
  have hg {c : Connection} : (finishLoop cfg (c, true)).state.headerDeadlineNs =
      if (parseRequest cfg.options c.state.buffer).isDone then 0 else c.state.headerDeadlineNs := by
    simp [finishLoop, bufferedLoop_deadline]
  have hn : (parseRequest cfg.options []).isDone = false := rfl
  induction fuel generalizing data c with
  | zero => simp [freshLoop, hg, hb, hn]
  | succ fuel ih =>
    rw [freshLoop]
    split
    · simp_all
    · split <;> rename_i hp <;> rw [hp]
      · rfl
      · rfl
      · rw [if_pos ⟨Nat.succ_pos _, rfl⟩]
        dsimp only
        repeat' split
        all_goals simp [hl, hg, ih, hb, serve_state, expectContinue_state, refuse,
          stashBody, clearHeaderDeadline, withBuffer]

theorem runLoops_deadline : (runLoops cfg data c).state.headerDeadlineNs =
      if (parseRequest cfg.options (c.state.buffer ++ data)).isDone then 0
      else c.state.headerDeadlineNs := by
  unfold runLoops
  by_cases he : c.state.buffer.isEmpty = true
  · have hb : c.state.buffer = [] := by simpa using he
    rw [if_pos he, freshLoop_deadline hb, hb, nil_append]
    simp
  · rw [if_neg he]
    simp only [bufferedLoop_deadline, Nat.succ_pos, true_and]
    rfl

theorem runLoops_nil (h : c.state.buffer = []) : runLoops cfg [] c = c := by
  simp [runLoops, finishLoop, freshLoop, bufferedLoop, h]

/-! ## The invariant -/

/-- A connection keeps a head that is not empty and not complete. -/
structure LeavesHead (c : Connection) : Prop where
  ended : c.ended = none
  bodyNeeded : c.state.bodyNeeded = 0
  chunkedInProgress : c.state.chunkedInProgress = false
  buffer : c.state.buffer ≠ []

/-- Whether a read, before the bytes that it brings for a head, brings the end of no head and
of no fixed-length body. -/
def oneHead (cfg : Config) (c : Connection) (data : Bytes) : Bool :=
  if 0 < c.state.bodyNeeded then data.length ≤ c.state.bodyNeeded - c.state.bodyBuf.length
  else if c.state.chunkedInProgress then
    match scan cfg c.state.chunkBuf c.state.chunkExcess
        (c.state.buffer.drop c.state.chunkHeadLen ++ data) with
    | .done _ rest => !(parseRequest cfg.options rest).isDone
    | _ => true
  else !(parseRequest cfg.options (c.state.buffer ++ data)).isDone

theorem armHeaderDeadline_ne_zero (hc : 0 < cfg.readHeaderTimeoutNs) :
    (c.armHeaderDeadline cfg now).state.headerDeadlineNs ≠ 0 := by
  unfold armHeaderDeadline
  split_ifs with h
  · omega
  · simp only
    omega

theorem enter_deadline (hc : 0 < cfg.readHeaderTimeoutNs) (h : Idle c) :
    (enter cfg now c).state.headerDeadlineNs ≠ 0 ∧
      (c.state.headerDeadlineNs ≠ 0 →
        (enter cfg now c).state.headerDeadlineNs = c.state.headerDeadlineNs) := by
  unfold enter
  split_ifs with h1
  · exact ⟨armHeaderDeadline_ne_zero hc, fun h0 => absurd h1.1 h0⟩
  · exact ⟨fun h0 => h1 ⟨h0, h.bodyNeeded, h.chunkedInProgress⟩, fun _ => rfl⟩

/-- One read in a head. -/
theorem deadline_idle (hc : 0 < cfg.readHeaderTimeoutNs) (h : Idle c) :
    (processH1 cfg now data c).state.headerDeadlineNs ≠ 0 ↔ oneHead cfg c data := by
  have ho : oneHead cfg c data = !(parseRequest cfg.options (c.state.buffer ++ data)).isDone := by
    unfold oneHead
    rw [if_neg (by rw [h.bodyNeeded]; simp), if_neg (by rw [h.chunkedInProgress]; simp)]
  rw [processH1_of_idle h, runLoops_deadline, (enter_same cfg now c).buffer, ho]
  cases (parseRequest cfg.options (c.state.buffer ++ data)).isDone with
  | true => simp
  | false => simpa using (enter_deadline hc h).1

/-- The end of a fixed-length body ends the connection, or the read, or leaves bytes
behind a deadline that was cleared. -/
theorem continueBody_end (h : c.state.bodyNeeded - c.state.bodyBuf.length ≤ data.length) :
    ((continueBody cfg data c).2 = none ∧
      ((continueBody cfg data c).1.ended ≠ none ∨ (continueBody cfg data c).1.state.buffer = [])) ∨
    ((continueBody cfg data c).1.state.headerDeadlineNs = 0 ∧
      ∃ b rest, data.drop (c.state.bodyNeeded - c.state.bodyBuf.length) = b :: rest ∧
        (continueBody cfg data c).2 = some (b :: rest)) := by
  unfold continueBody
  rw [if_neg (Nat.not_lt.mpr h)]
  cases hp : parseRequest cfg.options c.state.buffer with
  | error e | needMore => exact .inl ⟨rfl, .inl (by simp [refuse])⟩
  | done n req =>
    simp only
    have hs := serve_state cfg req (c.state.bodyBuf ++ data.take
      (c.state.bodyNeeded - c.state.bodyBuf.length)) (c.clearHeaderDeadline.withBuffer [])
    generalize serve cfg req _ (c.clearHeaderDeadline.withBuffer []) = c' at hs ⊢
    cases he : c'.ended with
    | some e => exact .inl ⟨rfl, .inl (by simp [he])⟩
    | none =>
      cases data.drop (c.state.bodyNeeded - c.state.bodyBuf.length) with
      | nil => exact .inl ⟨rfl, .inr (by rw [hs]; rfl)⟩
      | cons b rest => exact .inr ⟨by rw [hs]; rfl, b, rest, rfl, rfl⟩

/-- One read in a fixed-length body: a head behind it has no deadline. -/
theorem deadline_body (he : c.ended = none) (hlt : c.state.bodyBuf.length < c.state.bodyNeeded)
    (hl : LeavesHead (processH1 cfg now data c)) :
    (processH1 cfg now data c).state.headerDeadlineNs ≠ 0 ↔ oneHead cfg c data := by
  have hp : 0 < c.state.bodyNeeded := by omega
  have ho : oneHead cfg c data ↔ data.length ≤ c.state.bodyNeeded - c.state.bodyBuf.length := by
    unfold oneHead
    rw [if_pos hp, decide_eq_true_eq]
  rw [processH1_of_body he hp] at hl ⊢
  by_cases hm : data.length < c.state.bodyNeeded - c.state.bodyBuf.length
  · rw [continueBody, if_pos hm] at hl
    exact absurd hl.bodyNeeded (Nat.ne_of_gt hp)
  rcases continueBody_end (Nat.le_of_not_lt hm) with
    ⟨hn, hend | hem⟩ | ⟨hz, b, rest, hr, hs⟩
  · rw [resume, hn] at hl
    exact absurd hl.ended hend
  · rw [resume, hn] at hl
    exact absurd hem hl.buffer
  · have hlen := congrArg length hr
    rw [length_drop, length_cons] at hlen
    rw [ho, resume, hs]
    simp only [runLoops_deadline, hz, ite_self]
    omega

section

variable (hcfg : 0 < cfg.readHeaderTimeoutNs)

include hcfg

/-- The end of a chunked body ends the connection, or arms a deadline for the bytes
behind it. -/
theorem continueChunked_end {decoded rest : Bytes}
    (h : scan cfg c.state.chunkBuf c.state.chunkExcess
      (c.state.buffer.drop c.state.chunkHeadLen ++ data) = .done decoded rest) :
    ((continueChunked cfg now data c).2 = none ∧ (continueChunked cfg now data c).1.ended ≠ none) ∨
    ((continueChunked cfg now data c).2 = some [] ∧
      (continueChunked cfg now data c).1.state.buffer = rest ∧
      (rest = [] ∨ (continueChunked cfg now data c).1.state.headerDeadlineNs ≠ 0)) := by
  unfold continueChunked
  simp only [h]
  cases hp : parseRequest cfg.options (c.state.buffer.take c.state.chunkHeadLen) with
  | error e | needMore => exact .inl ⟨rfl, by simp [refuse]⟩
  | done n req =>
    simp only
    split
    · exact .inl ⟨rfl, by simp [refuse]⟩
    generalize hc' : serve cfg req decoded _ = c'
    have hb : c'.state.buffer = rest := by rw [← hc', serve_state]
    cases he : c'.ended with
    | some e => exact .inl ⟨rfl, by simp [he]⟩
    | none =>
      cases rest with
      | nil => exact .inr ⟨rfl, hb, .inl rfl⟩
      | cons b rest =>
        exact .inr ⟨rfl, armHeaderDeadline_same.buffer.trans hb,
          .inr (armHeaderDeadline_ne_zero hcfg)⟩

/-- One read in a chunked body: a head behind it has a deadline. -/
theorem deadline_chunked (he : c.ended = none) (hn : c.state.bodyNeeded = 0)
    (hc : c.state.chunkedInProgress = true) (hl : LeavesHead (processH1 cfg now data c)) :
    (processH1 cfg now data c).state.headerDeadlineNs ≠ 0 ↔ oneHead cfg c data := by
  unfold oneHead
  rw [if_neg (by rw [hn]; simp), if_pos hc]
  rw [processH1_of_chunked he hn hc] at hl ⊢
  cases hs : scan cfg c.state.chunkBuf c.state.chunkExcess
    (c.state.buffer.drop c.state.chunkHeadLen ++ data) with
  | refused code text =>
    simp only [continueChunked, hs] at hl
    exact absurd hl.ended (by simp [resume, refuse])
  | more decoded excess rest =>
    simp only [continueChunked, hs] at hl
    exact absurd hl.chunkedInProgress (by simp [resume, hc])
  | done decoded rest =>
    rcases continueChunked_end hcfg hs with ⟨hnone, hend⟩ | ⟨hsome, hb, hd⟩
    · rw [resume, hnone] at hl
      exact absurd hl.ended hend
    · rw [resume, hsome] at hl ⊢
      simp only at hl ⊢
      rcases hd with rfl | hne
      · rw [runLoops_nil hb] at hl
        exact absurd hb hl.buffer
      · rw [runLoops_deadline, hb, append_nil]
        cases (parseRequest cfg.options rest).isDone with
        | true => simp
        | false => simpa using hne

/-- One read: the deadline of the head it leaves. -/
theorem deadline_read {p : Position} (hr : Represents cfg c p)
    (hl : LeavesHead (processH1 cfg now data c)) :
    (processH1 cfg now data c).state.headerDeadlineNs ≠ 0 ↔ oneHead cfg c data := by
  cases hr with
  | head h1 h2 h3 h4 => exact deadline_idle hcfg ⟨h1, h2, h3, h4⟩
  | body he _ _ _ hlt => exact deadline_body he hlt hl
  | chunked he hn hc => exact deadline_chunked hcfg he hn hc hl
  | ended he =>
    rw [processH1, if_pos (by simp [he])] at hl
    exact absurd hl.ended (by simp [he])

end

/-! ## Whole runs -/

/-- The reads `B` bring more of the head that is incomplete behind the reads `A`. -/
def SameHead (cfg : Config) (A B : List Read) : Prop :=
  ∀ B', B' <+: B → LeavesHead (run cfg (A ++ B')) ∧
    (run cfg (A ++ B')).state.buffer = (run cfg A).state.buffer ++ stream B'

/-- An incomplete head has a deadline, which stays the same until it is complete. -/
structure HeadDeadline (cfg : Config) (reads : List Read) : Prop where
  armed : ∀ A, A <+: reads → LeavesHead (run cfg A) → (run cfg A).state.headerDeadlineNs ≠ 0
  kept : ∀ A B, A ++ B <+: reads → SameHead cfg A B → (run cfg A).state.headerDeadlineNs ≠ 0 →
    (run cfg (A ++ B)).state.headerDeadlineNs = (run cfg A).state.headerDeadlineNs

/-- A head that a read does not complete keeps its deadline. -/
theorem deadline_kept (hcfg : 0 < cfg.readHeaderTimeoutNs) (hl : LeavesHead (run cfg reads))
    (hl' : LeavesHead (run cfg (reads ++ [r])))
    (hbuf : (run cfg (reads ++ [r])).state.buffer = (run cfg reads).state.buffer ++ r.data)
    (hne : (run cfg reads).state.headerDeadlineNs ≠ 0) :
    (run cfg (reads ++ [r])).state.headerDeadlineNs = (run cfg reads).state.headerDeadlineNs := by
  obtain ⟨p, hp, hrep, hrep'⟩ := exists_settled
  have hph' := hrep'.phase_eq_head hl'.ended hl'.bodyNeeded hl'.chunkedInProgress
  cases hrep with
  | head h1 h2 h3 h4 =>
    have hi : Idle (run cfg reads) := ⟨h1, h2, h3, h4⟩
    -- A head that was complete would leave only new bytes.
    have hm : (parseRequest cfg.options ((run cfg reads).state.buffer ++ r.data)).isDone =
        false := by
      cases hpa : parseRequest cfg.options ((run cfg reads).state.buffer ++ r.data) with
      | error e | needMore => rfl
      | done n req =>
        have hs := Position.step_head_done (run cfg reads).log hpa
        rcases settle_feed_cases hp with ⟨hn, -⟩ | hnew
        · exact absurd (hs.symm.trans hn) (by simp)
        · rw [hph', Phase.unread, hbuf, length_append] at hnew
          have := length_pos_of_ne_nil hl.buffer
          omega
    rw [run_concat, processH1_of_idle hi, runLoops_deadline, (enter_same ..).buffer, hm]
    exact (enter_deadline hcfg hi).2 hne
  | body _ _ _ _ hlt => exact absurd hl.bodyNeeded (by omega)
  | chunked _ _ h => exact absurd hl.chunkedInProgress (by simp [h])
  | ended h => exact absurd hl.ended (by simp [h])

theorem stream_concat : stream (reads ++ [r]) = stream reads ++ r.data := by
  simp [stream]

theorem deadline_sameHead (hc : 0 < cfg.readHeaderTimeoutNs) {A B : List Read}
    (h : SameHead cfg A B) (hne : (run cfg A).state.headerDeadlineNs ≠ 0) :
    (run cfg (A ++ B)).state.headerDeadlineNs = (run cfg A).state.headerDeadlineNs := by
  induction B using reverseRecOn with
  | nil => rw [append_nil]
  | append_singleton B r ih =>
    have hB := ih fun B' hB' => h B' (hB'.trans (prefix_append B [r]))
    obtain ⟨hl, hb⟩ := h B (prefix_append B [r])
    obtain ⟨hl', hb'⟩ := h (B ++ [r]) (prefix_refl _)
    rw [← append_assoc] at hl' hb' ⊢
    rw [stream_concat, ← append_assoc, ← hb] at hb'
    rw [deadline_kept hc hl hl' hb' (hB ▸ hne), hB]

/-- Every incomplete head has a deadline that is kept, exactly if no read that leaves
one brings the end of a head or of a fixed-length body before it. -/
theorem headDeadline_iff {cfg : Config} (hcfg : 0 < cfg.readHeaderTimeoutNs) (reads : List Read) :
    HeadDeadline cfg reads ↔ ∀ A r, A ++ [r] <+: reads → LeavesHead (run cfg (A ++ [r])) →
        oneHead cfg (run cfg A) r.data := by
  have hr (A : List Read) (r : Read) (hl : LeavesHead (run cfg (A ++ [r]))) :
      (run cfg (A ++ [r])).state.headerDeadlineNs ≠ 0 ↔ oneHead cfg (run cfg A) r.data := by
    rw [run_concat] at hl ⊢
    exact deadline_read hcfg (run_represents cfg A) hl
  constructor
  · intro h A r hA hl
    exact (hr A r hl).mp (h.armed _ hA hl)
  · intro h
    refine ⟨fun A hA hl => ?_, fun A B _ hs hne => deadline_sameHead hcfg hs hne⟩
    rcases eq_nil_or_concat' A with rfl | ⟨A, r, rfl⟩
    · exact absurd rfl hl.buffer
    · exact (hr A r hl).mpr (h A r hA hl)

/-- A head in two reads. -/
theorem twoReads_headDeadline : HeadDeadline { readHeaderTimeoutNs := 10 }
      [⟨1, ascii "GET / HT"⟩, ⟨2, ascii "TP/1.1\r\nHost: a\r\n\r\n"⟩] := by
  refine (headDeadline_iff (by decide) _).mpr ?_
  rintro A r ⟨B, hB⟩ hl
  rcases A with _ | ⟨a, _ | ⟨a', A⟩⟩
  · cases hB
    decide +kernel
  · cases hB
    exact absurd hl.buffer (by decide +kernel)
  · simp at hB

/-- The end of a request and the start of the next head in one read: the head that is
left has no deadline. -/
theorem pipelined_not_headDeadline : ¬ HeadDeadline { readHeaderTimeoutNs := 10 }
      [⟨1, ascii "GET / HTTP/1.1\r\nHost: a\r\n\r\nGET /x"⟩] := by
  intro h
  have hl : LeavesHead (run { readHeaderTimeoutNs := 10 }
      [⟨1, ascii "GET / HTTP/1.1\r\nHost: a\r\n\r\nGET /x"⟩]) :=
    ⟨by decide +kernel, by decide +kernel, by decide +kernel, by decide +kernel⟩
  exact h.armed _ (prefix_refl _) hl (by decide +kernel)

end Celeris.Conn
