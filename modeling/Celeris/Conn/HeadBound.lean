import Celeris.Conn.Segmentation
import Celeris.H1.NeedMore

/-!
# The memory of an incomplete head

`parseRequestLine` bounds a request line that is not complete, and `parseHeaders`
the header lines that are. Nothing bounds a header line that is not complete: the
parser asks for more however long it is, and `processH1` keeps it all. What a
connection keeps of a head is therefore bounded by the two limits and the line
that has not ended.
-/

namespace Celeris.Conn

open H1 Incremental Position List Nat

/-! ## Bytes that are not read yet -/

/-- The number of bytes that are not read yet. -/
def Phase.unread : Phase → Nat
  | .head pending | .body _ _ pending | .chunked _ _ _ pending => pending.length
  | .ended _ => 0

theorem Phase.size_unread (phase : Phase) :
    2 * phase.unread ≤ phase.size ∧ phase.size ≤ 2 * phase.unread + 1 := by
  cases phase <;> simp only [Phase.unread, Phase.size] <;> omega

variable {cfg : Config} {p : Position} {q : Position} {d pending : Bytes} {reads : List Read}
  {r : Read} {c : Connection} {log : List Event} {m n : Nat}

theorem unread_steps (h : (decoder cfg).Steps p q) : q.phase.unread ≤ p.phase.unread := by
  induction h with
  | refl => exact le_refl _
  | @tail q r _ hs ih =>
    have hlt : r.phase.size < q.phase.size := step_lt hs
    have hq := q.phase.size_unread
    have hr := r.phase.size_unread
    omega

/-- A settled head asks for more, or is empty. -/
theorem needMore_of_settled (h : Position.step cfg ⟨log, .head pending⟩ = none) :
    pending = [] ∨ parseRequest cfg.options pending = .needMore := by
  by_cases hne : pending = []
  · exact .inl hne
  cases hp : parseRequest cfg.options pending with
  | error e => rw [step_head_error log hne hp] at h; cases h
  | needMore => exact .inr rfl
  | done n req => rw [step_head_done log hp] at h; cases h

/-- A step that the new bytes make possible leaves only new bytes. -/
theorem unread_new (hp : p.step cfg = none)
    (h : (p.feed d).step cfg = some q) : q.phase.unread ≤ d.length := by
  have hdrop {U : Bytes} {n : Nat} (hn : U.length ≤ n) : ((U ++ d).drop n).length ≤ d.length := by
    rw [length_drop, length_append]
    omega
  suffices q.phase.size ≤ 2 * d.length + 1 by
    have := q.phase.size_unread
    omega
  obtain ⟨log, phase⟩ := p
  cases phase with
  | head pending =>
    change step cfg ⟨log, .head (pending ++ d)⟩ = some q at h
    by_cases hne : pending = []
    · subst hne
      have hlt := step_lt h
      simp only [Phase.size, nil_append] at hlt ⊢
      omega
    cases hpa : parseRequest cfg.options (pending ++ d) with
    | error e =>
      rw [step_head_error log (by simp [hne]) hpa] at h
      cases h
      exact zero_le _
    | needMore =>
      rw [step_head_needMore log hpa] at h
      cases h
    | done n req =>
      rw [step_head_done log hpa] at h
      cases h
      have hle := hdrop (parseRequest_new ((needMore_of_settled hp).resolve_left hne) hpa)
      exact size_headStep.trans (by omega)
  | body req need pending =>
    change step cfg ⟨log, .body req need (pending ++ d)⟩ = some q at h
    simp only [step] at h hp
    split_ifs at h hp with hlt hle
    cases h
    refine size_goOn.trans ?_
    have := hdrop hle.le
    simp only [Phase.size]
    omega
  | chunked req decoded excess pending =>
    change step cfg ⟨log, .chunked req decoded excess (pending ++ d)⟩ = some q at h
    have hold : parseChunkedBody pending = .ok .needMore := by
      simp only [step] at hp
      split at hp
      · cases hp
      · assumption
      · cases hp
      · cases hp
    simp only [step] at h
    split at h
    · cases h
      exact zero_le _
    · split_ifs at h
      cases h
      exact zero_le _
    · rename_i n hlast
      cases h
      refine size_goOn.trans ?_
      have := hdrop (parseChunkedBody_new hold (.inl hlast))
      simp only [Phase.size]
      omega
    · rename_i chunk n hdata
      cases h
      have := hdrop (parseChunkedBody_new hold (.inr ⟨chunk, hdata⟩))
      exact (size_chunkStep cfg log req decoded excess chunk n _).trans (by omega)
  | ended ending => cases h

/-- Behind new bytes, either nothing was read or only new bytes are left. -/
theorem settle_feed_cases (hp : p.step cfg = none) :
    ((p.feed d).step cfg = none ∧ (decoder cfg).settle (p.feed d) = p.feed d) ∨
      ((decoder cfg).settle (p.feed d)).phase.unread ≤ d.length := by
  cases h : (p.feed d).step cfg with
  | none => exact .inl ⟨rfl, Machine.settle_of_none h⟩
  | some q =>
    right
    rw [Machine.settle_of_some h]
    exact (unread_steps (Machine.steps_settle q).1).trans (unread_new hp h)

/-! ## What a connection keeps -/

/-- A connection that waits for the rest of a head keeps at most `bound` bytes. -/
def HeadBounded (bound : Nat) (c : Connection) : Prop :=
  c.ended = none → c.state.bodyNeeded = 0 → c.state.chunkedInProgress = false →
    c.state.buffer.length ≤ bound

/-- The bytes of a read do not make a header line longer than `L`, if the connection
waits for the rest of a head. -/
def ShortHead (L : Nat) (c : Connection) (data : Bytes) : Prop :=
  c.state.bodyNeeded = 0 → c.state.chunkedInProgress = false →
    ShortLine L (c.state.buffer ++ data)

/-- The two limits, and one more `MaxHeaderSize` for a line without end. -/
def headBound : Nat := completeBound + maxHeaderSize

/-- Before a read the machine has settled, and behind it settles with the new bytes. -/
theorem exists_settled : ∃ p, p.step cfg = none ∧ Represents cfg (run cfg reads) p ∧
      Represents cfg (run cfg (reads ++ [r])) ((decoder cfg).settle (p.feed r.data)) := by
  have hr := run_represents cfg reads
  refine ⟨_, ?_, hr, by rw [run_concat]; exact processH1_represents hr⟩
  induction reads using reverseRecOn with
  | nil => exact step_head_nil cfg []
  | append_singleton reads r _ =>
    rw [map_append, Machine.run, map_singleton, foldl_concat]
    exact (Machine.steps_settle (M := decoder cfg) _).2

/-- A connection that waits for the rest of a head is in front of it. -/
theorem Represents.phase_eq_head (h : Represents cfg c p) (he : c.ended = none)
    (hn : c.state.bodyNeeded = 0)
    (hc : c.state.chunkedInProgress = false) : p.phase = .head c.state.buffer := by
  cases h with
  | head => rfl
  | body _ _ _ _ hlt => omega
  | chunked _ _ h => rw [h] at hc; cases hc
  | ended h => rw [h] at he; cases he

/-- One read: a bounded head, if no header line gets longer than `L`. -/
theorem headBounded_read {L : Nat} (hd : r.data.length ≤ L)
    (hs : ShortHead L (run cfg reads) r.data) :
    HeadBounded (completeBound + L) (run cfg (reads ++ [r])) := by
  intro he hn hc
  obtain ⟨p, hp, hr, hr'⟩ := exists_settled
  have hph := hr'.phase_eq_head he hn hc
  rcases settle_feed_cases hp with ⟨hnone, hsame⟩ | hnew
  · -- Nothing was read: the head is what was kept with the new bytes.
    rw [hsame] at hph
    cases hr with
    | head _ hn hc _ =>
      have hb : (run cfg reads).state.buffer ++ r.data = (run cfg (reads ++ [r])).state.buffer :=
        Phase.head.inj hph
      rw [← hb]
      rcases needMore_of_settled hnone with hnil | hm
      · rw [hnil]
        exact zero_le _
      · exact (hs hn hc).length_le hm
    | body | chunked | ended => cases hph
  · rw [hph] at hnew
    exact hnew.trans (hd.trans (le_add_left _ _))

/-- What a connection keeps of an incomplete head is bounded by the limits and the
size of a read, as long as no header line gets longer than one limit and one
read. -/
theorem headBounded_of_shortHead (cfg : Config) {k : Nat} {reads : List Read}
    (hk : ∀ r ∈ reads, r.data.length ≤ k)
    (hshort : ∀ A r, A ++ [r] <+: reads → ShortHead (maxHeaderSize + k) (run cfg A) r.data) :
    ∀ A, A <+: reads → HeadBounded (headBound + k) (run cfg A) := by
  intro A hA
  rcases eq_nil_or_concat' A with rfl | ⟨B, r, rfl⟩
  · exact fun _ _ _ => zero_le _
  · have hr : r.data.length ≤ maxHeaderSize + k :=
      (hk r (hA.subset (by simp))).trans (le_add_left _ _)
    have := headBounded_read hr (hshort B r hA)
    rwa [← add_assoc] at this

/-- The first read of a head. -/
theorem firstRead_headBounded :
    HeadBounded (headBound + 64) (run {} [⟨0, ascii "GET / HTTP/1.1\r\nAccept: text/h"⟩]) :=
  headBounded_of_shortHead {} (by decide)
    (by
      rintro A r ⟨B, hB⟩ - - hlong
      cases A with
      | nil =>
        cases hB
        exact absurd hlong (by decide)
      | cons a A => simp at hB)
    _ (prefix_refl _)

/-! ## A header line without end -/

/-- A head whose first field goes on for `m` bytes. -/
def endlessHead (m : Nat) : Bytes :=
  ascii "GET / HTTP/1.1" ++ cr :: lf :: List.replicate m 0x61

theorem length_endlessHead : (endlessHead m).length = m + 16 := by
  simp [endlessHead, ascii]

theorem endlessHead_append : endlessHead m ++ List.replicate n 0x61 = endlessHead (m + n) := by
  simp [endlessHead]

/-- The parser asks for more, however long the field is. -/
theorem parseRequest_endlessHead {o : Options} : parseRequest o (endlessHead m) = .needMore := by
  have hl : readRequestLine (ascii "GET / HTTP/1.1") =
      .ok { method := ascii "GET", path := ascii "/", version := ascii "HTTP/1.1" } := rfl
  have hlf : lf ∉ replicate m 0x61 := by
    rw [mem_replicate]
    rintro ⟨-, h⟩
    exact absurd h (by decide)
  unfold parseRequest endlessHead
  rw [if_neg (by simp), parseRequestLine_line hl (by decide)]
  simp only
  cases hm : (replicate m (0x61 : UInt8)).length with
  | zero => rfl
  | succ fuel => rw [parseHeaders, splitLine_of_not_mem hlf]

theorem Represents.of_head
    (h : Represents cfg c ⟨log, .head pending⟩) : Idle c ∧ c.state.buffer = pending := by
  generalize hp : (⟨log, .head pending⟩ : Position) = p at h
  cases h with
  | head h1 h2 h3 h4 =>
    cases hp
    exact ⟨⟨h1, h2, h3, h4⟩, rfl⟩
  | body | chunked | ended => cases hp

/-- It keeps it all. -/
theorem buffer_endlessHead : Idle (run cfg [⟨0, endlessHead m⟩, ⟨1, List.replicate n 0x61⟩]) ∧
      (run cfg [⟨0, endlessHead m⟩, ⟨1, List.replicate n 0x61⟩]).state.buffer =
        endlessHead (m + n) := by
  have hstep (k : Nat) : (decoder cfg).settle ⟨[], .head (endlessHead k)⟩ =
      ⟨[], .head (endlessHead k)⟩ :=
    Machine.settle_of_none (step_head_needMore [] parseRequest_endlessHead)
  have hr := run_represents cfg [⟨0, endlessHead m⟩, ⟨1, replicate n 0x61⟩]
  have hrun : (decoder cfg).run {} [endlessHead m, replicate n 0x61] =
      ⟨[], .head (endlessHead (m + n))⟩ := by
    have hf : (decoder cfg).settle (feed {} (endlessHead m)) = _ := hstep m
    have hs := hstep (m + n)
    rw [← endlessHead_append] at hs ⊢
    simp only [Machine.run, foldl_cons, foldl_nil]
    rw [show (decoder cfg).feed = feed from rfl, hf]
    exact hs
  exact (hrun ▸ hr).of_head

/-- No bound holds for every stream: a peer that never ends a header line is never
refused. -/
theorem endlessHead_not_headBounded : ¬ ∃ bound, ∀ (cfg : Config) (k : Nat) (reads : List Read),
      (∀ r ∈ reads, r.data.length ≤ k) → HeadBounded (bound + k) (run cfg reads) := by
  rintro ⟨bound, h⟩
  have hb := h {} (bound + 17) [⟨0, endlessHead (bound + 1)⟩, ⟨1, replicate (bound + 17) 0x61⟩]
    (by
      intro r hr
      simp only [mem_cons, not_mem_nil, or_false] at hr
      rcases hr with rfl | rfl
      · exact length_endlessHead.le
      · exact (length_replicate ..).le)
  obtain ⟨hi, hbuf⟩ := buffer_endlessHead
  have hl := hb hi.ended hi.bodyNeeded hi.chunkedInProgress
  rw [hbuf, length_endlessHead] at hl
  omega

end Celeris.Conn
