import Celeris.Conn.Process
import Celeris.Data.Incremental
import Celeris.H1.Stable

/-!
# Reading a stream of requests

What an HTTP/1 connection is for, without its buffers: a machine that reads heads
and bodies off a stream. A `Position` is how far it has come, with the bytes that
are not read yet; a step reads one head, one fixed-length body or one chunk.

The machine is stable except between the CR and the LF of a request line of the
largest size, where `Position.Cut` holds.
-/

namespace Celeris.Conn

open H1 List Nat

/-- How a connection ends, without the text of a refusal. -/
inductive Ending where
  | refused
  | expectationFailed
  | closed
  | failed
  | upgraded
deriving DecidableEq, Repr

def End.kind : End → Ending
  | .refused _ _ => .refused
  | .expectationFailed => .expectationFailed
  | .closed => .closed
  | .failed => .failed
  | .upgraded => .upgraded

/-- Where in the stream a connection is, with the bytes that are not read yet. -/
inductive Phase where
  | head (pending : Bytes)
  | body (req : Request) (need : Nat) (pending : Bytes)
  | chunked (req : Request) (decoded : Bytes) (excess : Nat) (pending : Bytes)
  | ended (ending : Ending)

/-- What happened on a connection, and where it is. -/
structure Position where
  log : List Event := []
  phase : Phase := .head []

/-! ## Steps -/

open Position

/-- More bytes arrive; a connection that has ended does not read them. -/
def Phase.feed : Phase → Bytes → Phase
  | .head pending, d => .head (pending ++ d)
  | .body req need pending, d => .body req need (pending ++ d)
  | .chunked req decoded excess pending, d => .chunked req decoded excess (pending ++ d)
  | .ended ending, _ => .ended ending

def Position.feed (p : Position) (d : Bytes) : Position := ⟨p.log, p.phase.feed d⟩

/-- The log and the end after a complete request. -/
def served (cfg : Config) (log : List Event) (req : Request) (body : Bytes) :
    List Event × Option End :=
  if upgrades cfg req then (log, some .upgraded)
  else
    let request : Served := ⟨req.method, req.path, req.rawHeaders, body⟩
    (log ++ [.served request], match cfg.handler log request with
      | .fail => some .failed
      | .close => some .closed
      | .keep => if req.keepAlive then none else some .closed)

/-- The log and the end after the answer to `Expect: 100-continue`. -/
def expected (cfg : Config) (log : List Event) (req : Request) : List Event × Option End :=
  if !req.expectContinue then (log, none)
  else if cfg.onExpectContinue.any fun ask => !ask req.method req.path req.rawHeaders then
    (log, some .expectationFailed)
  else (log ++ [.continue100], none)

/-- Go on in a phase, unless the connection ends. -/
def Position.goOn (r : List Event × Option End) (phase : Phase) : Position :=
  match r.2 with
  | some e => ⟨r.1, .ended e.kind⟩
  | none => ⟨r.1, phase⟩

/-- The step behind a head, which `rest` follows. -/
def headStep (cfg : Config) (log : List Event) (req : Request) (rest : Bytes) : Position :=
  match bodyKind req with
  | .fixed n =>
    if cfg.overLimit n then ⟨log, .ended .refused⟩
    else .goOn (expected cfg log req) (.body req n rest)
  | .chunked => .goOn (expected cfg log req) (.chunked req [] 0 rest)
  | .absent => .goOn (served cfg log req []) (.head rest)

/-- The step behind a chunk, which `rest` follows. -/
def chunkStep (cfg : Config) (log : List Event) (req : Request) (decoded : Bytes) (excess : Nat)
    (chunk : Bytes) (n : Nat) (rest : Bytes) : Position :=
  if 0 < cfg.maxRequestBodySize && cfg.maxRequestBodySize - decoded.length < chunk.length then
    ⟨log, .ended .refused⟩
  else if nextExcess excess n chunk.length > maxChunkExcess then ⟨log, .ended .refused⟩
  else ⟨log, .chunked req (decoded ++ chunk) (nextExcess excess n chunk.length) rest⟩

/-- One step; `none` if more bytes are needed or the connection has ended. -/
def Position.step (cfg : Config) (p : Position) : Option Position :=
  match p.phase with
  | .head pending =>
    if pending.isEmpty then none
    else
      match parseRequest cfg.options pending with
      | .error _ => some ⟨p.log, .ended .refused⟩
      | .needMore => none
      | .done n req => some (headStep cfg p.log req (pending.drop n))
  | .body req need pending =>
    if pending.length < need then none
    else some (.goOn (served cfg p.log req (pending.take need)) (.head (pending.drop need)))
  | .chunked req decoded excess pending =>
    match parseChunkedBody pending with
    | .error _ => some ⟨p.log, .ended .refused⟩
    | .ok .needMore =>
      if (checkPartialChunk cfg decoded pending).isSome then some ⟨p.log, .ended .refused⟩ else none
    | .ok (.last n) => some (.goOn (served cfg p.log req decoded) (.head (pending.drop n)))
    | .ok (.data chunk n) =>
      some (chunkStep cfg p.log req decoded excess chunk n (pending.drop n))
  | .ended _ => none

theorem Position.step_head_nil (cfg : Config) (log : List Event) :
    step cfg ⟨log, .head []⟩ = none := rfl

section Step

variable {cfg : Config} (log : List Event) {req : Request} {decoded : Bytes} {excess n : Nat}
  {pending : Bytes}

theorem Position.step_head_error {e : ParseError} (hne : pending ≠ [])
    (h : parseRequest cfg.options pending = .error e) :
    step cfg ⟨log, .head pending⟩ = some ⟨log, .ended .refused⟩ := by
  have hne' : ¬ pending.isEmpty := by simpa using hne
  simp only [step, if_neg hne', h]

theorem Position.step_head_needMore (h : parseRequest cfg.options pending = .needMore) :
    step cfg ⟨log, .head pending⟩ = none := by
  simp [step, h]

theorem Position.step_head_done (h : parseRequest cfg.options pending = .done n req) :
    step cfg ⟨log, .head pending⟩ = some (headStep cfg log req (pending.drop n)) := by
  have hne : ¬ pending.isEmpty := fun he => by simp [parseRequest, he] at h
  simp only [step, if_neg hne, h]

theorem Position.step_body_needMore (h : pending.length < n) :
    step cfg ⟨log, .body req n pending⟩ = none := if_pos h

theorem Position.step_body_done (h : n ≤ pending.length) : step cfg ⟨log, .body req n pending⟩ =
      some (.goOn (served cfg log req (pending.take n)) (.head (pending.drop n))) :=
  if_neg (not_lt.mpr h)

theorem Position.step_chunked_error {e : ChunkError} (h : parseChunkedBody pending = .error e) :
    step cfg ⟨log, .chunked req decoded excess pending⟩ = some ⟨log, .ended .refused⟩ := by
  simp [step, h]

theorem Position.step_chunked_last (h : parseChunkedBody pending = .ok (.last n)) :
    step cfg ⟨log, .chunked req decoded excess pending⟩ =
      some (.goOn (served cfg log req decoded) (.head (pending.drop n))) := by
  simp [step, h]

theorem Position.step_chunked_data {chunk : Bytes}
    (h : parseChunkedBody pending = .ok (.data chunk n)) :
    step cfg ⟨log, .chunked req decoded excess pending⟩ =
      some (chunkStep cfg log req decoded excess chunk n (pending.drop n)) := by
  simp [step, h]

end Step

/-- The bytes that are not read yet count twice, so that the end of a body, which
may read none, makes a position smaller. -/
def Phase.size : Phase → Nat
  | .head pending => 2 * pending.length
  | .body _ _ pending | .chunked _ _ _ pending => 2 * pending.length + 1
  | .ended _ => 0

variable {rest D : Bytes} {size : Nat} {r : List Event × Option End} {phase : Phase}

theorem Position.size_goOn : (goOn r phase).phase.size ≤ phase.size := by
  unfold goOn
  split
  · exact zero_le _
  · exact le_refl _

variable {log : List Event} {req : Request} {d : Bytes}

theorem size_headStep {cfg : Config} :
    (headStep cfg log req rest).phase.size ≤ 2 * rest.length + 1 := by
  unfold headStep
  split
  · split_ifs
    · exact zero_le _
    · exact size_goOn
  · exact size_goOn
  · exact size_goOn.trans (le_succ _)

section Chunk

variable (cfg : Config) (log : List Event) (req : Request) (decoded : Bytes) (excess : Nat)
  (chunk : Bytes) (n : Nat) (rest : Bytes)

theorem size_chunkStep :
    (chunkStep cfg log req decoded excess chunk n rest).phase.size ≤ 2 * rest.length + 1 := by
  unfold chunkStep
  split_ifs
  · exact zero_le _
  · exact zero_le _
  · exact le_refl _

theorem feed_chunkStep (d : Bytes) : (chunkStep cfg log req decoded excess chunk n rest).feed d =
      chunkStep cfg log req decoded excess chunk n (rest ++ d) := by
  unfold chunkStep
  split_ifs <;> rfl

end Chunk

variable {cfg : Config} {p q : Position} {rest decoded U l : Bytes}

/-- A step reads some of the bytes, or ends the connection. -/
theorem Position.step_lt (h : p.step cfg = some q) : q.phase.size < p.phase.size := by
  obtain ⟨log, phase⟩ := p
  cases phase with simp only [step] at h
  | head pending =>
    split_ifs at h with he
    have hpos : 0 < pending.length := length_pos_of_ne_nil (by simpa using he)
    split at h
    · cases h
      exact Nat.mul_pos Nat.two_pos hpos
    · cases h
    · rename_i n req hd
      cases h
      refine size_headStep.trans_lt ?_
      obtain ⟨W, R, rfl, rfl, hW, -⟩ := parseRequest_done hd
      have hlen := length_pos_of_ne_nil hW
      simp only [Phase.size, drop_left, length_append]
      omega
  | body req need pending =>
    split_ifs at h with hneed
    cases h
    refine size_goOn.trans_lt ?_
    simp only [Phase.size, length_drop]
    omega
  | chunked req decoded excess pending =>
    split at h
    · cases h
      exact succ_pos _
    · split_ifs at h
      cases h
      exact succ_pos _
    · rename_i n hl
      cases h
      refine size_goOn.trans_lt ?_
      simp only [Phase.size, length_drop]
      omega
    · rename_i chunk n hdata
      cases h
      have hn := parseChunkedBody_consumed (.inr ⟨chunk, hdata⟩)
      refine (size_chunkStep cfg log req decoded excess chunk n _).trans_lt ?_
      simp only [Phase.size, length_drop]
      omega
  | ended ending => cases h

@[simp] theorem Position.feed_nil (p : Position) : p.feed [] = p := by
  obtain ⟨log, phase⟩ := p
  cases phase <;> simp [feed, Phase.feed]

theorem Position.feed_feed (p : Position) {a b : Bytes} : (p.feed a).feed b = p.feed (a ++ b) := by
  obtain ⟨log, phase⟩ := p
  cases phase <;> simp [feed, Phase.feed]

/-- The machine that reads a stream of requests. -/
def decoder (cfg : Config) : Incremental.Machine UInt8 Position where
  step := step cfg
  feed := feed
  size p := p.phase.size
  feed_nil := feed_nil
  feed_feed := feed_feed
  step_lt := step_lt

/-! ## Stability -/

theorem Position.feed_goOn : (goOn r phase).feed d = .goOn r (phase.feed d) := by
  unfold goOn
  split <;> rfl

theorem feed_headStep : (headStep cfg log req rest).feed d = headStep cfg log req (rest ++ d) := by
  unfold headStep
  split
  · split_ifs
    · rfl
    · exact feed_goOn
  · exact feed_goOn
  · exact feed_goOn

/-- The chunk at the front of the bytes is refused: it is not valid, or what it
starts with is refused, or it is over the limit. -/
def RefusesChunk (cfg : Config) (decoded U : Bytes) : Prop :=
  match parseChunkedBody U with
  | .error _ => True
  | .ok .needMore => (checkPartialChunk cfg decoded U).isSome
  | .ok (.last _) => False
  | .ok (.data chunk _) =>
    0 < cfg.maxRequestBodySize && cfg.maxRequestBodySize - decoded.length < chunk.length

theorem Position.step_of_refusesChunk (h : RefusesChunk cfg decoded U) {excess : Nat} :
    step cfg ⟨log, .chunked req decoded excess U⟩ = some ⟨log, .ended .refused⟩ := by
  simp only [step]
  unfold RefusesChunk at h
  split at h
  · rfl
  · exact if_pos h
  · cases h
  · simp only [chunkStep]
    rw [if_pos h]

/-- A size line that is too long already can only get longer. -/
theorem refusesChunk_of_line (hs : splitLine U = none)
    (h : (checkPartialChunk cfg decoded U).isSome) : RefusesChunk cfg decoded (U ++ D) := by
  have hlong : U.length > maxChunkLineSize + 1 ∨
      (U.length = maxChunkLineSize + 1 ∧ U.getLast? ≠ some cr) := by
    by_contra hn
    unfold checkPartialChunk peekChunk at h
    rw [hs] at h
    simp only [if_neg hn] at h
    cases h
  unfold RefusesChunk parseChunkedBody
  cases hs' : splitLine (U ++ D) with
  | none =>
    unfold checkPartialChunk peekChunk
    rw [hs']
    rw [if_pos]
    · rfl
    · rcases D with _ | ⟨b, D⟩
      · rwa [append_nil]
      · rw [length_append, length_cons]
        omega
  | some p =>
    obtain ⟨l, r⟩ := p
    obtain ⟨hle, hcr⟩ := splitLine_new hs hs'
    have hl : l.length > maxChunkLineSize := by
      rcases hlong with hlong | ⟨hlen, hlast⟩
      · omega
      · by_contra hle'
        exact hlast (hcr (by omega))
    simp [readChunk, if_pos hl]

section

variable (hs : splitLine U = some (l, rest)) (hl : l.length ≤ maxChunkLineSize)

include hs hl

/-- What `checkPartialChunk` says behind a valid size line. -/
theorem checkPartialChunk_of_size (hsize : chunkSize l = some size) :
    (checkPartialChunk cfg decoded U).isSome ↔
      if size = 0 then maxHeaderSize + 4 < rest.length
      else 0 < cfg.maxRequestBodySize && cfg.maxRequestBodySize - decoded.length < size := by
  have hU := length_of_splitLine hs
  unfold checkPartialChunk peekChunk
  rw [hs]
  simp only [if_neg (not_lt.mpr hl), hsize]
  cases size with
  | zero =>
    simp only [if_true]
    rw [show U.length - (l.length + 2) = rest.length by omega]
    split_ifs with h <;> simpa using h
  | succ size =>
    simp only [succ_ne_zero, if_false]
    split_ifs with h <;> simpa using h

/-- A trailer that is too large already can only get larger. -/
theorem refusesChunk_of_trailer (hsize : chunkSize l = some 0)
    (hp : [cr, lf].isPrefixOf rest = false)
    (hb : findBlank rest = none) (h : (checkPartialChunk cfg decoded U).isSome) :
    RefusesChunk cfg decoded (U ++ D) := by
  have hs' := splitLine_append hs D
  have hlong : maxHeaderSize + 4 < rest.length := by
    simpa using (checkPartialChunk_of_size hs hl hsize).mp h
  have hpre : [cr, lf].isPrefixOf (rest ++ D) = false := by
    rw [isPrefixOf_crlf_append (by omega), hp]
  simp only [RefusesChunk, parseChunkedBody, hs', readChunk, if_neg (not_lt.mpr hl), hsize]
  unfold parseTrailer
  rw [hpre]
  cases hb' : findBlank (rest ++ D) with
  | none =>
    refine (checkPartialChunk_of_size hs' hl hsize).mpr ?_
    rw [if_pos rfl, length_append]
    omega
  | some stop =>
    have := findBlank_new hb hb'
    simp [show stop > maxHeaderSize by omega]

/-- A chunk over the limit stays over it. -/
theorem refusesChunk_of_data (hsize : chunkSize l = some (size + 1))
    (h : (checkPartialChunk cfg decoded U).isSome) : RefusesChunk cfg decoded (U ++ D) := by
  have hs' := splitLine_append hs D
  have ho := (checkPartialChunk_of_size hs hl hsize).mp h
  simp only [RefusesChunk, parseChunkedBody, hs', readChunk, if_neg (not_lt.mpr hl), hsize]
  unfold parseData
  split_ifs with h1 h2
  · exact (checkPartialChunk_of_size hs' hl hsize).mpr ho
  · trivial
  · rw [if_neg (succ_ne_zero size)] at ho
    simp only
    rwa [length_take_of_le (by omega)]

end

/-- A chunk that is refused stays refused. -/
theorem RefusesChunk.append (hU : parseChunkedBody U = .ok .needMore)
    (h : (checkPartialChunk cfg decoded U).isSome) : RefusesChunk cfg decoded (U ++ D) := by
  cases partial_of_needMore hU with
  | line hs => exact refusesChunk_of_line hs h
  | trailer hs hl hsize hp hb => exact refusesChunk_of_trailer hs hl hsize hp hb h
  | data hs hl hsize _ => exact refusesChunk_of_data hs hl hsize h

theorem Position.step_feed (hp : ∀ pending, p.phase = .head pending → ¬ CutLine pending)
    (h : p.step cfg = some q) : (p.feed d).step cfg = some (q.feed d) := by
  obtain ⟨log, phase⟩ := p
  cases phase with
  | head pending =>
    change step cfg ⟨log, .head (pending ++ d)⟩ = _
    by_cases hne : pending = []
    · subst hne
      cases h
    cases hpa : parseRequest cfg.options pending with
    | error e =>
      rw [step_head_error log hne hpa] at h
      cases h
      obtain ⟨e', he'⟩ := parseRequest_error hpa hne (hp pending rfl)
      rw [step_head_error log (by simp [hne]) he']
      rfl
    | needMore =>
      rw [step_head_needMore log hpa] at h
      cases h
    | done n req =>
      rw [step_head_done log hpa] at h
      cases h
      obtain ⟨W, R, rfl, rfl, -, hW⟩ := parseRequest_done hpa
      rw [append_assoc, step_head_done log (hW (R ++ d)), drop_left, drop_left, feed_headStep]
  | body req need pending =>
    change step cfg ⟨log, .body req need (pending ++ d)⟩ = _
    simp only [step] at h
    split_ifs at h with hneed
    cases h
    rw [step_body_done log (by rw [length_append]; omega),
      take_append_of_le_length (by omega), drop_append_of_le_length (by omega),
      feed_goOn]
    rfl
  | chunked req decoded excess pending =>
    change step cfg ⟨log, .chunked req decoded excess (pending ++ d)⟩ = _
    have happ (hne : parseChunkedBody pending ≠ .ok .needMore) := parseChunkedBody_append hne d
    cases hpa : parseChunkedBody pending with
    | error e =>
      rw [step_chunked_error log hpa] at h
      cases h
      rw [hpa] at happ
      rw [step_chunked_error log (happ (by simp))]
      rfl
    | ok c =>
      rw [hpa] at happ
      cases c with
      | needMore =>
        simp only [step, hpa] at h
        split_ifs at h with hpart
        cases h
        exact step_of_refusesChunk (RefusesChunk.append hpa hpart)
      | last n =>
        rw [step_chunked_last log hpa] at h
        cases h
        have hn := (parseChunkedBody_consumed (.inl hpa)).2
        rw [step_chunked_last log (happ (by simp)), feed_goOn, drop_append_of_le_length hn]
        rfl
      | data chunk n =>
        rw [step_chunked_data log hpa] at h
        cases h
        have hn := (parseChunkedBody_consumed (.inr ⟨chunk, hpa⟩)).2
        rw [step_chunked_data log (happ (by simp)), feed_chunkStep, drop_append_of_le_length hn]
  | ended ending => cases h

/-- Where the bytes at hand end, a request line of the largest size is cut between its CR and
its LF: what is left of them behind whole requests, for the next head, ends with that CR. -/
def Position.Cut (cfg : Config) (p : Position) : Prop :=
  ∃ log pending, (decoder cfg).Steps p ⟨log, .head pending⟩ ∧ CutLine pending

theorem decoder_stable : (decoder cfg).Stable fun p => ¬ p.Cut cfg where
  step_feed {p _} hp h _ := by
    refine step_feed (fun pending hph hc => hp ⟨p.log, pending, ?_, hc⟩) h
    rw [← hph]
  clean_step hp h := by
    rintro ⟨log, pending, hs, hc⟩
    exact hp ⟨log, pending, .head h hs, hc⟩

end Celeris.Conn
