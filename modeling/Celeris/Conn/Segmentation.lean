import Celeris.Conn.Refinement
import Celeris.H1.Fields

/-!
# Segmentation

A connection is a sequence of calls of `processH1`, one for each read. Two ways of
cutting one stream into reads serve the same requests and end alike, as long as
they do not cut between the CR and the LF of a line of the largest size.

At that cut they differ: `parseRequestLine` counts the CR that has arrived, refuses
the line, and the LF comes too late. `peekChunk` meets the same case on a
chunk-size line and lets it pass.
-/

namespace Celeris.Conn

open H1 Incremental List Position

/-- One read: when it is made, and what it brings. -/
structure Read where
  now : Nat
  data : Bytes
deriving DecidableEq, Repr

def stream (reads : List Read) : Bytes := (reads.map Read.data).flatten

def run (cfg : Config) (reads : List Read) : Connection :=
  reads.foldl (fun c r => processH1 cfg r.now r.data c) {}

variable {reads : List Read} {r : Read}

theorem run_concat {cfg : Config} :
    run cfg (reads ++ [r]) = processH1 cfg r.now r.data (run cfg reads) := foldl_concat ..

/-- The calls of `processH1` refine the machine that reads the stream. -/
theorem run_represents (cfg : Config) (reads : List Read) :
    Represents cfg (run cfg reads) ((decoder cfg).run {} (reads.map Read.data)) := by
  induction reads using reverseRecOn with
  | nil => exact Represents.head (c := {}) rfl rfl rfl rfl
  | append_singleton reads r ih =>
    rw [run_concat, map_append, Machine.run, map_singleton, foldl_concat]
    exact processH1_represents ih

/-- No two reads meet between the CR and the LF of a request line of the largest size. -/
def CleanReads (cfg : Config) (reads : List Read) : Prop :=
  Machine.CleanCuts (fun U => ¬ Cut cfg ⟨[], .head U⟩) (reads.map Read.data)

theorem run_represents_stream (cfg : Config) (h : CleanReads cfg reads) :
    Represents cfg (run cfg reads) ((decoder cfg).settle ⟨[], .head (stream reads)⟩) := by
  have hs : (decoder cfg).step {} = none := step_head_nil cfg []
  have hr := run_represents cfg reads
  rw [Machine.run_eq decoder_stable hs h] at hr
  exact hr

/-! ## What a client sees -/

/-- The requests that the handler saw. -/
def Connection.requests (c : Connection) : List Served :=
  c.log.filterMap fun
    | .served request => some request
    | .continue100 => none

/-- The handler sees the same requests, and the connections end in the same way:
refused, closed by an answer, failed, upgraded, or not at all. -/
structure SameService (c c' : Connection) : Prop where
  requests : c.requests = c'.requests
  ending : c.ended.map End.kind = c'.ended.map End.kind

variable {cfg : Config} {c : Connection} {p : Position} {n : Nat}

theorem Represents.log (h : Represents cfg c p) : c.log = p.log := by
  cases h <;> rfl

theorem Represents.ending (h : Represents cfg c p) : c.ended.map End.kind =
      match p.phase with
      | .ended e => some e
      | _ => none := by
  cases h with
  | head he | body he | chunked he | ended he => rw [he]; rfl

theorem Represents.sameService {c' : Connection}
    (h : Represents cfg c p) (h' : Represents cfg c' p) : SameService c c' where
  requests := by rw [Connection.requests, Connection.requests, h.log, h'.log]
  ending := h.ending.trans h'.ending.symm

/-- Two ways of cutting a stream into reads come to the same, as long as neither
cuts a line of the largest size between its CR and its LF. -/
theorem sameService_of_cleanReads (cfg : Config) {reads reads' : List Read}
    (hstream : stream reads = stream reads') (h : CleanReads cfg reads)
    (h' : CleanReads cfg reads') : SameService (run cfg reads) (run cfg reads') := by
  have hr' := run_represents_stream cfg h'
  rw [← hstream] at hr'
  exact (run_represents_stream cfg h).sameService hr'

theorem CleanReads.of_length_le
    (h : (stream reads).length ≤ maxRequestLineSize) : CleanReads cfg reads := by
  rintro A ⟨B, hB⟩ - ⟨log, _, hs, lead, line, -, rfl, hl, -⟩
  have hle : A.flatten.length ≤ (stream reads).length := by
    rw [stream, ← hB, flatten_append, length_append]
    exact Nat.le_add_right _ _
  have hsize : 2 * (lead ++ (line ++ [cr])).length ≤ 2 * A.flatten.length := hs.size_le
  rw [length_append, length_append, length_singleton] at hsize
  omega

/-- A request in two reads. -/
theorem request_sameService :
    SameService (run {} [⟨0, ascii "GET / HTTP/1.1\r"⟩, ⟨1, ascii "\nHost: a\r\n\r\n"⟩])
      (run {} [⟨0, ascii "GET / HTTP/1.1\r\nHost: a\r\n\r\n"⟩]) :=
  sameService_of_cleanReads {} (by decide) (.of_length_le (by decide)) (.of_length_le (by decide))

/-! ## The cut that matters -/

/-- The target `/` with `n` bytes behind it. -/
def longTarget (n : Nat) : Bytes := slash :: List.replicate n 0x61

/-- A request line for it, of `n + 14` bytes. -/
def longLine (n : Nat) : Bytes :=
  ascii "GET" ++ space :: (longTarget n ++ space :: ascii "HTTP/1.1")

theorem length_longLine : (longLine n).length = n + 14 := by
  simp [longLine, longTarget, ascii]

theorem readRequestLine_longLine : readRequestLine (longLine n) =
      .ok { method := ascii "GET", path := longTarget n, version := ascii "HTTP/1.1" } := by
  have hs : space ∉ longTarget n := by
    rw [longTarget, mem_cons, mem_replicate]
    rintro (h | ⟨-, h⟩) <;> exact absurd h (by decide)
  have ht : isValidRequestTarget (longTarget n) = true := by
    rw [isValidRequestTarget, longTarget, all_cons, all_replicate]
    simp [isTargetBad, slash]
  unfold readRequestLine longLine
  rw [cut_append (by decide)]
  simp only
  rw [cut_append hs]
  simp only [ht]
  rfl

theorem parseRequest_cr {o : Options} (h : maxRequestLineSize < n + 15) :
    parseRequest o (longLine n ++ [cr]) = .error .requestLineTooLong := by
  have hlf : lf ∉ longLine n ++ [cr] := by
    simp only [longLine, longTarget, mem_append, mem_cons, mem_replicate]
    rintro ((h | h | (h | ⟨-, h⟩) | h | h) | h | h)
    all_goals exact absurd h (by decide)
  have hs := splitLine_of_not_mem hlf
  have hl : (longLine n ++ [cr]).length > maxRequestLineSize := by
    rw [length_append, length_longLine]
    exact h
  unfold parseRequest parseRequestLine
  rw [if_neg (by simp), hs]
  simp only [parseLine, hs, if_pos hl]

/-- The request that the line starts. -/
def longRequest (n : Nat) : Request :=
  { method := ascii "GET"
    path := longTarget n
    version := ascii "HTTP/1.1"
    rawHeaders := [(ascii "Host", ascii "a")]
    host := ascii "a"
    keepAlive := true }

theorem parseRequest_crlf (h : n + 14 ≤ maxRequestLineSize) :
    parseRequest { zeroCopy := true } (longLine n ++ cr :: lf :: ascii "Host: a\r\n\r\n") =
      .done (n + 27) (longRequest n) := by
  have hl : (longLine n).length ≤ maxRequestLineSize := by rwa [length_longLine]
  have hf (path : Bytes) :
      parseHeaders { zeroCopy := true } (ascii "Host: a\r\n\r\n").length 0
        ⟨{ method := ascii "GET", path := path, version := ascii "HTTP/1.1", keepAlive := true },
          {}⟩
        (ascii "Host: a\r\n\r\n") =
      .ok (some (⟨{ method := ascii "GET", path := path, version := ascii "HTTP/1.1"
                    rawHeaders := [(ascii "Host", ascii "a")], host := ascii "a"
                    keepAlive := true }, {}⟩, [])) := rfl
  unfold parseRequest
  rw [if_neg (by simp), parseRequestLine_line readRequestLine_longLine hl]
  simp only [decide_true]
  rw [hf]
  simp only [finishHead]
  rw [if_neg (by decide), length_append, length_longLine]
  rfl

/-- Cut between its CR and its LF, the line is refused. -/
theorem ending_cut (h : maxRequestLineSize < n + 15) :
    (run {} [⟨0, longLine n ++ [cr]⟩, r]).ended.map End.kind = some .refused := by
  have hs : (decoder {}).step ⟨[], .head (longLine n ++ [cr])⟩ = some ⟨[], .ended .refused⟩ :=
    step_head_error [] (by simp) (parseRequest_cr h)
  have hf : (decoder {}).settle (feed {} (longLine n ++ [cr])) =
      ⟨[], .ended .refused⟩ := (Machine.settle_of_some hs).trans settle_ended
  have hr := run_represents {} [⟨0, longLine n ++ [cr]⟩, r]
  simp only [Machine.run, map_cons, map_nil, foldl_cons, foldl_nil] at hr
  rw [show (decoder {}).feed = feed from rfl, hf, feed, Phase.feed, settle_ended] at hr
  exact hr.ending

/-- Uncut, it starts a request, which is served. -/
theorem ending_uncut (h : n + 14 ≤ maxRequestLineSize) :
    (run {} [⟨0, longLine n ++ cr :: lf :: ascii "Host: a\r\n\r\n"⟩]).ended.map End.kind =
      none := by
  have hp := parseRequest_crlf h
  set U := longLine n ++ cr :: lf :: ascii "Host: a\r\n\r\n" with hU
  have hd : U.drop (n + 27) = [] := by
    refine drop_eq_nil_of_le ?_
    rw [hU, length_append, length_longLine]
    rfl
  have hstep : (decoder {}).step ⟨[], .head U⟩ = some (headStep {} [] (longRequest n) []) := by
    have hdone : step {} ⟨[], .head _⟩ = some _ := step_head_done [] hp
    rwa [hd] at hdone
  have hl : (decoder {}).step (headStep {} [] (longRequest n) []) = none := rfl
  have hs := (Machine.settle_of_some hstep).trans (Machine.settle_of_none hl)
  have hr : Represents {} _ ((decoder {}).settle ⟨[], .head U⟩) := run_represents {} [⟨0, U⟩]
  rw [hs] at hr
  exact hr.ending

/-- A line of the largest size, cut between its CR and its LF, is refused; uncut, it
is the line of a request that is served. -/
theorem longLine_not_sameService : ¬ SameService
      (run {} [⟨0, longLine 8178 ++ [cr]⟩, ⟨1, lf :: ascii "Host: a\r\n\r\n"⟩])
      (run {} [⟨0, longLine 8178 ++ cr :: lf :: ascii "Host: a\r\n\r\n"⟩]) := by
  intro h
  have he := h.ending
  rw [ending_cut (by decide), ending_uncut (by decide)] at he
  cases he

end Celeris.Conn
