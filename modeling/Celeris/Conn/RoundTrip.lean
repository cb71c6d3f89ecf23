import Celeris.Conn.Framing
import Celeris.Conn.Process
import Celeris.H1.Stable

/-!
# The round trip of chunked bodies

What `Write` and `Close` send as a chunked body, `ParseChunkedBody` and `scanChunked`
decode to what was written, wherever the stream is cut.

A stream that is cut falls apart into whole chunks and a part of the next one, and on
such a part both decoders wait for more (`exists_cut`). So each of them needs two
facts only: what it does with whole chunks, and what it does with a part.
`scanChunked` keeps to the limit on the body of a request: it decodes a body that is
within the limit, and refuses any other.
-/

namespace Celeris.Conn

open H1 Client List Nat Config Bool Scan

/-! ## The size line -/

variable {n : Nat} {data decoded : Bytes} {chunks reads : List Bytes} {cfg : Config}

theorem chunkSize_appendInt (hn : n ≤ maxInt64) : chunkSize (appendInt 16 n) = some n := by
  rw [chunkSize, trimSpace_size]
  refine (parseNumber_iff (by decide) fun c d hd => ?_).mpr ⟨readHex_appendInt n, hn⟩
  have hlt := c.toNat_lt
  unfold maxInt64
  unfold hexDigit at hd
  split_ifs at hd <;> cases hd <;> omega

theorem length_appendInt_hex (hn : n ≤ maxChunkData) : (appendInt 16 n).length ≤ 8 := by
  unfold appendInt
  split_ifs
  · decide
  · rw [length_map, length_reverse, digits_length_le_iff (by decide)]
    exact lt_of_le_of_lt hn (by decide)

/-! ## One chunk -/

/-- What `Write` makes a chunk of. -/
structure IsChunk (data : Bytes) : Prop where
  ne_nil : data ≠ []
  length_le : data.length ≤ maxChunkData

theorem parseChunkedBody_frameChunk (hd : IsChunk data) (rest : Bytes) :
    parseChunkedBody (frameChunk data ++ rest) = .ok (.data data (frameChunk data).length) := by
  have hm : data.length ≤ maxInt64 := le_trans hd.length_le (by decide)
  have hl : ¬ (appendInt 16 data.length).length > maxChunkLineSize :=
    not_lt.mpr (le_trans (length_appendInt_hex hd.length_le) (by decide))
  obtain ⟨n, hn⟩ : ∃ n, data.length = n + 1 :=
    exists_eq_succ_of_ne_zero fun h => hd.ne_nil (eq_nil_of_length_eq_zero h)
  have hlen : (frameChunk data).length = (appendInt 16 data.length).length + 2 + data.length +
      2 := by
    simp only [frameChunk, crlf, length_append, length_cons, length_nil]
  rw [parseChunkedBody, splitLine_frameChunk]
  simp only [readChunk, if_neg hl, chunkSize_appendInt hm]
  rw [hn]
  simp only
  rw [← hn, parseData, if_neg (by simp [crlf]), if_neg, take_left, hlen]
  simp [crlf]

/-! ## Streams that are cut -/

def encodeChunks (chunks : List Bytes) : Bytes := chunks.flatMap frameChunk ++ ascii "0\r\n\r\n"

theorem encodeChunks_cons :
    encodeChunks (data :: chunks) = frameChunk data ++ encodeChunks chunks := by
  simp [encodeChunks]

def firstFrame : List Bytes → Bytes
  | [] => ascii "0\r\n\r\n"
  | data :: _ => frameChunk data

/-- A part of the first chunk of a stream. -/
structure IsPart (chunks : List Bytes) (part rest : Bytes) : Prop where
  append : part ++ rest = encodeChunks chunks
  length_lt : part.length < (firstFrame chunks).length

/-- Before a cut there are whole chunks and a part of the next one. -/
theorem exists_cut {U V : Bytes} (hV : V ≠ []) (h : U ++ V = encodeChunks chunks) :
    ∃ whole left part, chunks = whole ++ left ∧ U = whole.flatMap frameChunk ++ part ∧
      IsPart left part V := by
  induction chunks generalizing U with
  | nil =>
    refine ⟨[], [], U, rfl, rfl, h, ?_⟩
    have hl := congrArg length h
    have hpos := length_pos_iff.mpr hV
    rw [length_append] at hl
    change U.length < (encodeChunks []).length
    omega
  | cons data chunks ih =>
    by_cases hs : U.length < (frameChunk data).length
    · exact ⟨[], data :: chunks, U, rfl, rfl, h, hs⟩
    · obtain ⟨U', rfl⟩ : ∃ U', U = frameChunk data ++ U' := by
        rw [encodeChunks_cons] at h
        obtain ⟨U', hU, -⟩ | ⟨V', hU, -⟩ := append_eq_append_iff.mp h
        · rw [hU, length_append] at hs
          have hn : U' = [] := eq_nil_of_length_eq_zero (by omega)
          exact ⟨[], by rw [hU, hn, append_nil, append_nil]⟩
        · exact ⟨V', hU⟩
      rw [encodeChunks_cons, append_assoc, append_cancel_left_eq] at h
      obtain ⟨whole, left, part, rfl, rfl, hp⟩ := ih h
      exact ⟨data :: whole, left, part, rfl, by simp, hp⟩

theorem parseChunkedBody_last :
    parseChunkedBody (ascii "0\r\n\r\n") = .ok (.last 5) := by decide +kernel

variable {rest : Bytes} {fuel : Nat} {part : Bytes} {whole writes : List Bytes} {k : Nat}

/-- On a part of a chunk the parser waits for more. -/
theorem parseChunkedBody_part (hc : ∀ data ∈ chunks, IsChunk data) (hp : IsPart chunks part rest) :
    parseChunkedBody part = .ok .needMore := by
  by_contra hno
  have ha := parseChunkedBody_append hno rest
  rw [hp.append] at ha
  have hl := hp.length_lt
  cases chunks with
  | nil =>
    rw [encodeChunks, flatMap_nil, nil_append, parseChunkedBody_last] at ha
    have := (parseChunkedBody_consumed (.inl ha.symm)).2
    change part.length < 5 at hl
    omega
  | cons data chunks =>
    rw [encodeChunks_cons, parseChunkedBody_frameChunk (hc data (by simp))] at ha
    have := (parseChunkedBody_consumed (.inr ⟨data, ha.symm⟩)).2
    change part.length < (frameChunk data).length at hl
    omega

/-- A decoder that takes whole chunks off a stream and waits on a part comes to the same
end wherever the stream is cut. `more` is the decoder between two reads, with the chunks
it has taken and the part it waits on; it may come to its end early, and then it stays. -/
theorem foldl_reads {σ : Type} {feed : σ → Bytes → σ} {more : List Bytes → Bytes → σ} {last : σ}
    (hl : feed last [] = last)
    (hcut : ∀ {whole whole' left part part' d rest fuel}, chunks = whole ++ (whole' ++ left) →
      part ++ d = whole'.flatMap frameChunk ++ part' → IsPart left part' rest →
      (part ++ d).length + 1 = whole'.length + (fuel + 1) →
      feed (more whole part) d = more (whole ++ whole') part' ∨
        feed (more whole part) d = last ∧ ∀ d, feed last d = last)
    (hall : ∀ {whole left part d fuel}, chunks = whole ++ left → part ++ d = encodeChunks left →
      (part ++ d).length + 1 = left.length + (fuel + 1) → feed (more whole part) d = last)
    (hr : reads.flatten = encodeChunks chunks) : reads.foldl feed (more [] []) = last := by
  have hd (reads : List Bytes) (hnil : reads.flatten = []) : reads.foldl feed last = last := by
    induction reads with
    | nil => rfl
    | cons d reads ih =>
      rw [flatten_cons, append_eq_nil_iff] at hnil
      rw [foldl_cons, hnil.1, hl, ih hnil.2]
  suffices hrun : ∀ whole left part, chunks = whole ++ left →
      part ++ reads.flatten = encodeChunks left → reads.flatten ≠ [] →
      reads.foldl feed (more whole part) = last by
    refine hrun [] chunks [] rfl hr ?_
    rw [hr]
    simp [encodeChunks, ascii]
  have hf {whole : List Bytes} {U part : Bytes} (hU : U = whole.flatMap frameChunk ++ part) :
      U.length + 1 = whole.length + (U.length - whole.length + 1) := by
    have hlen := length_le_flatMap whole
    rw [hU, length_append]
    omega
  clear hr
  induction reads with
  | nil => exact fun _ _ _ _ _ hne => absurd rfl hne
  | cons d reads ih =>
    intro whole left part hc hs _
    rw [flatten_cons, ← append_assoc] at hs
    rw [foldl_cons]
    by_cases hrest : reads.flatten = []
    · rw [hrest, append_nil] at hs
      rw [hall hc hs (hf hs), hd reads hrest]
    · obtain ⟨whole', left', part', rfl, hU, hp⟩ := exists_cut hrest hs
      rcases hcut hc hU hp (hf hU) with hm | ⟨hm, hs⟩
      · rw [hm]
        exact ih _ left' part' (hc.trans (append_assoc ..).symm) hp.append hrest
      · rw [hm, foldl_fixed' hs]

/-! ## `ParseChunkedBody` -/

/-- What a caller of `ParseChunkedBody` has come to: it waits for more behind some
chunks, it has met the last chunk, or it was refused. -/
inductive Parse where
  | more (chunks : List Bytes) (pending : Bytes)
  | last (chunks : List Bytes) (rest : Bytes)
  | refused (error : ChunkError)
deriving DecidableEq

/-- Call `ParseChunkedBody` until it asks for more or the body ends. -/
def parseChunks : Nat → List Bytes → Bytes → Parse
  | 0, chunks, pending => .more chunks pending
  | fuel + 1, chunks, pending =>
    match parseChunkedBody pending with
    | .error e => .refused e
    | .ok .needMore => .more chunks pending
    | .ok (.last n) => .last chunks (pending.drop n)
    | .ok (.data chunk n) => parseChunks fuel (chunks ++ [chunk]) (pending.drop n)

/-- More bytes arrive. -/
def Parse.feed : Parse → Bytes → Parse
  | .more chunks pending, d => parseChunks ((pending ++ d).length + 1) chunks (pending ++ d)
  | .last chunks rest, d => .last chunks (rest ++ d)
  | .refused e, _ => .refused e

/-- What a caller of `ParseChunkedBody` comes to over some reads. -/
def parseReads (reads : List Bytes) : Parse := reads.foldl Parse.feed (.more [] [])

/-- Whole chunks are taken off. -/
theorem parseChunks_frames (hw : ∀ data ∈ whole, IsChunk data) {taken : List Bytes} :
    parseChunks (whole.length + fuel) taken (whole.flatMap frameChunk ++ rest) =
      parseChunks fuel (taken ++ whole) rest := by
  induction whole generalizing taken with
  | nil => simp
  | cons data whole ih =>
    have hp := parseChunkedBody_frameChunk (hw data (by simp)) (whole.flatMap frameChunk ++ rest)
    rw [length_cons, add_right_comm, parseChunks, flatMap_cons, append_assoc, hp]
    simp only
    rw [drop_left, ih fun d hd => hw d (by simp [hd])]
    simp

theorem parseReads_encodeChunks (hc : ∀ data ∈ chunks, IsChunk data)
    (hr : reads.flatten = encodeChunks chunks) : parseReads reads = .last chunks [] := by
  refine foldl_reads rfl ?_ ?_ hr
  · rintro whole whole' left' part part' d rest fuel rfl hU hp hf
    have hn := parseChunkedBody_part (fun data hd => hc data (by simp [hd])) hp
    left
    rw [Parse.feed, hf, hU, parseChunks_frames fun data hd => hc data (by simp [hd]), parseChunks,
      hn]
  · rintro whole left part d fuel rfl hs hf
    rw [Parse.feed, hf, hs, encodeChunks,
      parseChunks_frames fun data hd => hc data (by simp [hd]), parseChunks, parseChunkedBody_last]
    rfl

/-! ## `scanChunked` -/

/-- More bytes arrive for a chunked request. -/
def Scan.feed (cfg : Config) : Scan → Bytes → Scan
  | .more decoded excess rest, d => scan cfg decoded excess (rest ++ d)
  | .done decoded rest, d => .done decoded (rest ++ d)
  | .refused code text, _ => .refused code text

/-- What `scanChunked` comes to over some reads. -/
def scanReads (cfg : Config) (reads : List Bytes) : Scan :=
  reads.foldl (Scan.feed cfg) (.more [] 0 [])

/-- What is left of the limit, as the two checks of `scanChunked` ask for it. -/
theorem overLimit_add {m : Nat} (h : cfg.overLimit n = false) :
    (0 < cfg.maxRequestBodySize && cfg.maxRequestBodySize - n < m) = cfg.overLimit (n + m) := by
  rw [overLimit, and_eq_false_iff, decide_eq_false_iff_not, decide_eq_false_iff_not] at h
  rw [Config.overLimit, Bool.eq_iff_iff]
  simp only [and_eq_true, decide_eq_true_eq]
  omega

theorem overLimit_mono (h : cfg.overLimit n = true) (hn : n ≤ k) : cfg.overLimit k = true := by
  rw [overLimit, and_eq_true, decide_eq_true_eq, decide_eq_true_eq] at h ⊢
  omega

/-- A part of a chunk is refused only for a chunk that is over the limit. -/
theorem checkPartialChunk_part (hc : ∀ data ∈ chunks, IsChunk data)
    (hd : cfg.overLimit decoded.length = false) (hpart : IsPart chunks part rest) :
    checkPartialChunk cfg decoded part = none ∨
      checkPartialChunk cfg decoded part = some (413, "Request body too large") ∧
        cfg.overLimit (decoded ++ chunks.flatten).length = true := by
  have hlen := hpart.length_lt
  have ha := hpart.append
  cases chunks with
  | nil =>
    have ht : part = (ascii "0\r\n\r\n").take part.length := by
      rw [show ascii "0\r\n\r\n" = part ++ rest from ha.symm, take_left]
    change part.length < 5 at hlen
    generalize part.length = k at ht hlen
    subst ht
    left
    interval_cases k <;> rfl
  | cons data chunks =>
    have hdata := hc data (by simp)
    have hline : (appendInt 16 data.length).length ≤ 8 := length_appendInt_hex hdata.length_le
    have hsp : splitLine (part ++ rest) =
        some (appendInt 16 data.length, data ++ (crlf ++ encodeChunks chunks)) := by
      rw [ha, encodeChunks_cons, splitLine_frameChunk]
    cases hs : splitLine part with
    | none =>
      have hsh := (splitLine_new hs hsp).1
      have hp : peekChunk part = .ok none := by
        rw [peekChunk, hs]
        refine if_neg ?_
        rw [maxChunkLineSize]
        omega
      exact .inl (by rw [checkPartialChunk, hp])
    | some p =>
      obtain ⟨line, left⟩ := p
      have heq := (splitLine_append hs rest).symm.trans hsp
      obtain ⟨rfl, -⟩ : line = appendInt 16 data.length ∧ _ := by simpa using heq
      obtain ⟨n, hn⟩ : ∃ n, data.length = n + 1 :=
        exists_eq_succ_of_ne_zero fun h => hdata.ne_nil (eq_nil_of_length_eq_zero h)
      have hp : peekChunk part = .ok
          (some (data.length, (appendInt 16 data.length).length + 2)) := by
        rw [peekChunk, hs]
        simp only [chunkSize_appendInt (le_trans hdata.length_le (by decide))]
        refine if_neg ?_
        rw [maxChunkLineSize]
        omega
      rw [checkPartialChunk, hp, hn]
      simp only
      rw [← hn, overLimit_add hd]
      by_cases ho : cfg.overLimit (decoded.length + data.length) = true
      · exact .inr ⟨if_pos ho, overLimit_mono ho (by simp)⟩
      · exact .inl (if_neg ho)

/-- The line of a chunk is within what the chunk pays back. -/
theorem nextExcess_frameChunk (hd : IsChunk data) :
    nextExcess 0 (frameChunk data).length data.length = 0 := by
  have hl := length_appendInt_hex hd.length_le
  have hlen : (frameChunk data).length = (appendInt 16 data.length).length + 2 + data.length +
      2 := by
    simp only [frameChunk, crlf, length_append, length_cons, length_nil]
  rw [nextExcess]
  omega

/-- Whole chunks are decoded, or refused if they are over the limit. -/
theorem scanChunked_frames (hw : ∀ data ∈ whole, IsChunk data)
    (hd : cfg.overLimit decoded.length = false) :
    scanChunked cfg (whole.length + fuel) decoded 0 (whole.flatMap frameChunk ++ rest) =
      if cfg.overLimit (decoded ++ whole.flatten).length = true then
        .refused 413 "Request body too large"
      else scanChunked cfg fuel (decoded ++ whole.flatten) 0 rest := by
  induction whole generalizing decoded with
  | nil => simp [hd]
  | cons data whole ih =>
    have hdata := hw data (by simp)
    have hp := parseChunkedBody_frameChunk hdata (whole.flatMap frameChunk ++ rest)
    rw [length_cons, add_right_comm, scanChunked, flatMap_cons, append_assoc, hp, flatten_cons,
      ← append_assoc decoded]
    simp only [overLimit_add hd, nextExcess_frameChunk hdata, drop_left, ← length_append]
    by_cases ho : cfg.overLimit (decoded ++ data).length = true
    · rw [if_pos ho, if_pos (overLimit_mono ho (by simp))]
    · rw [if_neg ho, if_neg (by decide),
        ih (fun d hd => hw d (by simp [hd])) (eq_false_iff.mpr ho)]

/-- The scan between two reads, with the chunks it has taken and the part it waits on:
behind chunks that are over the limit it has ended. -/
def Scan.behind (cfg : Config) (whole : List Bytes) (part : Bytes) : Scan :=
  if cfg.overLimit whole.flatten.length = true then .refused 413 "Request body too large"
  else .more whole.flatten 0 part

/-- A body is decoded, or refused if it is over the limit. -/
theorem scanReads_encodeChunks (hc : ∀ data ∈ chunks, IsChunk data)
    (hr : reads.flatten = encodeChunks chunks) :
    scanReads cfg reads = if cfg.overLimit chunks.flatten.length = true then
      .refused 413 "Request body too large" else .done chunks.flatten [] := by
  have hover {whole left : List Bytes} (ho : cfg.overLimit whole.flatten.length = true) :
      cfg.overLimit (whole ++ left).flatten.length = true := overLimit_mono ho (by simp)
  have hstart : .more [] 0 [] = behind cfg [] [] := by simp [behind, overLimit]
  rw [scanReads, hstart]
  refine foldl_reads (by split_ifs <;> rfl) ?_ ?_ hr
  · rintro whole whole' left' part part' d rest fuel rfl hU hp hf
    have hleft : ∀ data ∈ left', IsChunk data := fun data hd => hc data (by simp [hd])
    by_cases ho : cfg.overLimit (whole ++ whole').flatten.length = true
    · right
      rw [← append_assoc, if_pos (hover ho)]
      refine ⟨?_, fun _ => rfl⟩
      by_cases hw : cfg.overLimit whole.flatten.length = true
      · rw [behind, if_pos hw]
        rfl
      · rw [behind, if_neg hw, feed, scan, hf, hU,
          scanChunked_frames (fun data hd => hc data (by simp [hd])) (eq_false_iff.mpr hw),
          ← flatten_append, if_pos ho]
    · have hw : ¬ cfg.overLimit whole.flatten.length = true := fun hw => ho (hover hw)
      rw [behind, behind, if_neg hw, if_neg ho, feed, scan, hf, hU,
        scanChunked_frames (fun data hd => hc data (by simp [hd])) (eq_false_iff.mpr hw),
        ← flatten_append, if_neg ho, scanChunked, parseChunkedBody_part hleft hp]
      rcases checkPartialChunk_part hleft (eq_false_iff.mpr ho) hp with hn | ⟨hs, hl⟩
      · exact .inl (by rw [hn])
      · right
        rw [← flatten_append] at hl
        rw [← append_assoc, if_pos hl, hs]
        exact ⟨rfl, fun _ => rfl⟩
  · rintro whole left part d fuel rfl hs hf
    by_cases hw : cfg.overLimit whole.flatten.length = true
    · rw [behind, if_pos hw, if_pos (hover hw)]
      rfl
    · rw [behind, if_neg hw, feed, scan, hf, hs, encodeChunks,
        scanChunked_frames (fun data hd => hc data (by simp [hd])) (eq_false_iff.mpr hw),
        scanChunked, parseChunkedBody_last, ← flatten_append]
      rfl

/-! ## The round trip -/

theorem splitWrite_length_le {chunk : Bytes} (hf : data.length ≤ fuel)
    (h : chunk ∈ splitWrite fuel data) : chunk.length ≤ maxChunkData := by
  induction fuel generalizing data with
  | zero => cases h
  | succ fuel ih =>
    rw [splitWrite] at h
    split_ifs at h with he hl
    · cases h
    · rcases mem_cons.mp h with rfl | h
      · rw [length_take]
        exact min_le_left _ _
      · have hm : 0 < maxChunkData := by decide
        exact ih (by rw [length_drop]; omega) h
    · rw [mem_singleton] at h
      subst h
      exact not_lt.mp hl

theorem chunksOf_isChunk (h : data ∈ chunksOf writes) : IsChunk data := by
  refine ⟨chunksOf_ne_nil h, ?_⟩
  obtain ⟨w, -, hd⟩ := mem_flatMap.mp h
  exact splitWrite_length_le (le_refl _) hd

/-- A chunked response that is under way. -/
structure Stream.Chunked (s : Stream) : Prop where
  streamBegun : s.streamBegun = true
  streamNoBody : s.streamNoBody = false
  streamOpen : s.streamOpen = true

/-- What the writes and the end of a response send. -/
def emitted (a : Adapter) (s : Stream) (writes : List Bytes) : Bytes :=
  (close a (writes.foldl (write a) s)).out.drop s.out.length

theorem emitted_eq {a : Adapter} {s : Stream} (hs : s.Chunked) :
    emitted a s writes = encodeChunks (chunksOf writes) := by
  rw [emitted, foldl_write_of_open hs.streamBegun hs.streamNoBody hs.streamOpen]
  have hc : (close a { s with out := s.out ++ (chunksOf writes).flatMap frameChunk }).out =
      s.out ++ (chunksOf writes).flatMap frameChunk ++ ascii "0\r\n\r\n" :=
    close_of_open hs.streamBegun hs.streamNoBody hs.streamOpen
  rw [hc, append_assoc, drop_left, encodeChunks]

/-- The body of a chunked response in any pieces: `ParseChunkedBody` takes chunks with
data off it, which make up what was written, and then the last chunk, with nothing
left over; and so does `scanChunked`, if what was written is within its limit, and it
refuses the body if not. -/
theorem chunked_roundTrip (cfg : Config) (a : Adapter) {s : Stream} (hs : s.Chunked)
    (writes : List Bytes) {reads : List Bytes} (hreads : reads.flatten = emitted a s writes) :
    (∃ chunks, (∀ data ∈ chunks, data ≠ []) ∧ chunks.flatten = writes.flatten ∧
      emitted a s writes = chunks.flatMap frameChunk ++ ascii "0\r\n\r\n" ∧
      parseReads reads = .last chunks []) ∧
    scanReads cfg reads = if cfg.overLimit writes.flatten.length = true then
      .refused 413 "Request body too large" else .done writes.flatten [] := by
  rw [emitted_eq hs] at hreads ⊢
  refine ⟨⟨chunksOf writes, fun data => chunksOf_ne_nil, chunksOf_flatten, rfl,
    parseReads_encodeChunks (fun data => chunksOf_isChunk) hreads⟩, ?_⟩
  rw [← chunksOf_flatten]
  exact scanReads_encodeChunks (fun data => chunksOf_isChunk) hreads

/-- A response that has begun, two writes with an empty one between them, and a body
that arrives in two reads. -/
theorem hello_roundTrip :
    scanReads {} [ascii "3\r\nhe", ascii "l\r\n2\r\nlo\r\n0\r\n\r\n"] = .done (ascii "hello") [] :=
  (chunked_roundTrip {} getAdapter (s := ⟨true, false, true, []⟩) ⟨rfl, rfl, rfl⟩
    [ascii "hel", [], ascii "lo"] (by decide +kernel)).2.trans (if_neg (by decide))

/-- A body over the limit is refused. -/
theorem overLimit_not_roundTrip : scanReads { maxRequestBodySize := 4 }
        [emitted getAdapter ⟨true, false, true, []⟩ [ascii "hello"]] =
      .refused 413 "Request body too large" := by
  decide +kernel

end Celeris.Conn
