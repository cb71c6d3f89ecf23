import Celeris.H1.Stable

/-!
# Bytes that are not enough

What the parsers have when they ask for more: a head that is not complete is a
bounded part and one line without end, and whatever completes a head or a chunk
ends behind the bytes that were not enough.
-/

namespace Celeris.H1

open List

/-! ## What the parser asks more for -/

theorem splitLine_eq_none_of_append {A V : Bytes} (h : splitLine (A ++ V) = none) :
    splitLine V = none := by
  induction A with
  | nil => exact h
  | cons a A ih =>
    refine ih ?_
    rw [cons_append] at h
    cases hAV : A ++ V with
    | nil => rfl
    | cons b bs =>
      rw [hAV, splitLine] at h
      split_ifs at h
      simpa using h

variable {U D : Bytes} {o : Options} {n : Nat}

theorem parseLine_needMore (h : parseLine U = .ok none) : U.length ≤ maxRequestLineSize := by
  unfold parseLine at h
  split at h
  · split_ifs at h with hl
    omega
  · split_ifs at h
    rename_i line _ _ _
    cases hr : readRequestLine line with
    | error e => rw [hr] at h; cases h
    | ok req => rw [hr] at h; cases h

/-- A request line that is not complete is at most an empty line and a line of the largest
size. -/
theorem parseRequestLine_needMore (h : parseRequestLine U = .ok none) :
    U.length ≤ maxRequestLineSize + 2 := by
  unfold parseRequestLine at h
  split at h
  · rename_i rest hs
    rw [(splitLine_eq hs).1, nil_append, length_cons, length_cons]
    exact Nat.add_le_add_right (parseLine_needMore h) 2
  · exact (parseLine_needMore h).trans (Nat.le_add_right _ 2)

/-- The lines that are complete are within the limit, and behind them there is no
complete line. -/
theorem parseHeaders_needMore {fuel total : Nat} {h : Head}
    (hp : parseHeaders o fuel total h U = .ok none) (hf : U.length ≤ fuel)
    (ht : total ≤ maxHeaderSize) :
    ∃ A V, U = A ++ V ∧ total + A.length ≤ maxHeaderSize ∧ splitLine V = none := by
  induction fuel generalizing total h U with
  | zero =>
    have hU : U = [] := eq_nil_of_length_eq_zero (by omega)
    exact ⟨[], [], by rw [hU]; rfl, ht, rfl⟩
  | succ fuel ih =>
    rw [parseHeaders] at hp
    split at hp
    · rename_i hs
      exact ⟨[], U, rfl, ht, hs⟩
    · rename_i line rest hs
      have hU := (splitLine_eq hs).1
      simp only at hp
      split_ifs at hp with hsize he
      · cases hp
      · cases hr : readField o h line with
        | error e => rw [hr] at hp; cases hp
        | ok h' =>
          rw [hr] at hp
          have hl := congrArg length hU
          simp only [length_append, length_cons] at hl
          obtain ⟨A, V, rfl, hA, hV⟩ := ih hp (by omega) (by omega)
          refine ⟨line ++ cr :: lf :: A, V, by rw [hU]; simp, ?_, hV⟩
          simp only [length_append, length_cons]
          omega

/-- What a head that is not complete holds before its last line. -/
def completeBound : Nat := 2 + (maxRequestLineSize + 2) + maxHeaderSize

/-- A head that is not complete is a bounded part and a line without end. -/
theorem parseRequest_needMore (h : parseRequest o U = .needMore) :
    ∃ A V, U = A ++ V ∧ A.length ≤ completeBound ∧ splitLine V = none := by
  have hne : U ≠ [] := by
    rintro rfl
    cases h
  rw [parseRequest_eq hne] at h
  rcases hl : parseRequestLine U with e | (_ | ⟨req, rest⟩) <;> rw [hl] at h
  · cases h
  · refine ⟨U, [], (append_nil U).symm, (parseRequestLine_needMore hl).trans ?_, rfl⟩
    rw [completeBound]
    omega
  · obtain ⟨lead, line, hlead, rfl, -, hlen⟩ := parseRequestLine_iff.mp hl
    have hf : lead.length ≤ 2 := by rcases hlead with rfl | rfl <;> decide
    dsimp only [readBehind] at h
    rcases hh : parseHeaders o rest.length 0 (startHead req) rest with e | (_ | p) <;> rw [hh] at h
    · cases h
    · obtain ⟨A, V, rfl, hA, hV⟩ := parseHeaders_needMore hh (le_refl _) (Nat.zero_le _)
      refine ⟨lead ++ (line ++ cr :: lf :: A), V, by simp, ?_, hV⟩
      simp only [length_append, length_cons, completeBound]
      omega
    · dsimp only at h
      split at h <;> cases h

/-- The last `L` bytes hold a CRLF, if there are so many. -/
def ShortLine (L : Nat) (U : Bytes) : Prop :=
  L < U.length → splitLine (U.drop (U.length - L)) ≠ none

/-- With a bound on the line that has not ended, the head is bounded. -/
theorem ShortLine.length_le {L : Nat} (hs : ShortLine L U)
    (h : parseRequest o U = .needMore) : U.length ≤ completeBound + L := by
  obtain ⟨A, V, rfl, hA, hV⟩ := parseRequest_needMore h
  rw [length_append]
  by_contra hl
  refine hs (by rw [length_append]; omega) ?_
  rw [length_append, drop_append, drop_eq_nil_of_le (by omega), nil_append]
  rw [← take_append_drop (A.length + V.length - L - A.length) V] at hV
  exact splitLine_eq_none_of_append hV

/-! ## What completes it -/

/-- A head that becomes complete ends behind the old bytes. -/
theorem parseRequest_new {req : Request}
    (hU : parseRequest o U = .needMore) (h : parseRequest o (U ++ D) = .done n req) :
    U.length ≤ n := by
  by_contra hlt
  obtain ⟨W, R, hWR, rfl, -, hW⟩ := parseRequest_done h
  have hb : W = U.take W.length := by
    have := congrArg (take W.length) hWR
    rw [take_left, take_append_of_le_length (by omega)] at this
    exact this.symm
  have hd := hW (U.drop W.length)
  nth_rewrite 1 [hb] at hd
  rw [take_append_drop, hU] at hd
  cases hd

theorem parseTrailer_new {hdr : Nat} {rest : Bytes} (hp : [cr, lf].isPrefixOf rest = false)
    (hb : findBlank rest = none) (h : parseTrailer hdr (rest ++ D) = .ok (.last n)) :
    hdr + rest.length ≤ n := by
  unfold parseTrailer at h
  split_ifs at h with hp'
  · cases h
    by_contra hl
    rw [isPrefixOf_crlf_append (by omega), hp] at hp'
    cases hp'
  · cases hb' : findBlank (rest ++ D) with
    | none => rw [hb'] at h; cases h
    | some stop =>
      rw [hb'] at h
      simp only at h
      split_ifs at h
      cases h
      have := findBlank_new hb hb'
      omega

/-- A chunk that becomes complete ends behind the old bytes. -/
theorem parseChunkedBody_new (hU : parseChunkedBody U = .ok .needMore)
    (h : parseChunkedBody (U ++ D) = .ok (.last n) ∨
      ∃ chunk, parseChunkedBody (U ++ D) = .ok (.data chunk n)) : U.length ≤ n := by
  unfold parseChunkedBody at h
  cases partial_of_needMore hU with
  | line hs =>
    cases hs' : splitLine (U ++ D) with
    | none =>
      rw [hs'] at h
      rcases h with h | ⟨_, h⟩ <;> cases h
    | some p =>
      obtain ⟨l, r⟩ := p
      rw [hs'] at h
      have hnew := (splitLine_new hs hs').1
      have hn := readChunk_consumed h
      omega
  | trailer hs hl hsize hp hb =>
    rw [splitLine_append hs D] at h
    simp only [readChunk, if_neg (Nat.not_lt.mpr hl), hsize] at h
    rcases h with h | ⟨_, h⟩
    · rw [length_of_splitLine hs]
      exact parseTrailer_new hp hb h
    · exact absurd h parseTrailer_ne_data
  | data hs hl hsize hsh =>
    rw [splitLine_append hs D] at h
    simp only [readChunk, if_neg (Nat.not_lt.mpr hl), hsize] at h
    have hd := parseData_consumed h
    rw [length_of_splitLine hs]
    omega

/-! ## Heads that are not complete -/

/-- A head of the grammar whose fields keep the rules on the host and the framing. -/
structure Acceptable (lead line : Bytes) (req : Request) (fields : List (Bytes × Bytes)) : Prop
    extends IsHead lead line req fields where
  framed : Framing.verdict (fields.foldlM frameField ⟨none, false, []⟩) ≠ .refused

/-- Where more bytes are not asked for: nothing has arrived, or a request line of the largest size
with its CR. -/
def CutEarly (P : Bytes) : Prop := P = [] ∨ CutLine P

section Incomplete

variable {lead line P : Bytes} {req : Request} {fields : List (Bytes × Bytes)}

/-- An acceptable head is accepted, whatever follows it, and its fields are kept in order. -/
theorem Acceptable.done (h : Acceptable lead line req fields) (o : Options) : ∃ r,
    r.rawHeaders = fields.map (fun f => (f.1, trimSpace f.2)) ∧
      ∀ R, parseRequest o (lead ++ writeHead line fields ++ R) =
        .done (lead ++ writeHead line fields).length r := by
  have hf := h.framed
  rw [verdict_readHead o h.reads] at hf
  cases hr : readHead o req fields with
  | error e =>
    rw [hr] at hf
    exact absurd rfl hf
  | ok r => exact ⟨r, (readHead_ok h.reads hr).2.1,
      fun R => by rw [parseRequest_head o h.toIsHead, hr]⟩

theorem CutLine.parseRequest (h : CutLine P) : parseRequest o P = .error .requestLineTooLong := by
  obtain ⟨lead, line, hlead, rfl, hlen, hn⟩ := h
  have hl : parseLine (line ++ [cr]) = .error .requestLineTooLong := by
    rw [parseLine, hn]
    exact if_pos (by simp [hlen])
  have he : parseRequestLine (lead ++ (line ++ [cr])) = .error .requestLineTooLong := by
    rcases hlead with rfl | rfl
    · rw [nil_append, parseRequestLine, hn, hl]
    · rw [parseRequestLine, cons_append, cons_append, nil_append, splitLine_crlf]
      exact hl
  rw [parseRequest_eq (by simp), he]

/-- A head of which bytes are missing is incomplete, unless it is cut early. -/
theorem Acceptable.needMore_iff (h : Acceptable lead line req fields)
    (hPD : lead ++ writeHead line fields = P ++ D) (hD : D ≠ []) :
    parseRequest o P = .needMore ↔ ¬CutEarly P := by
  obtain ⟨r, -, hd⟩ := h.done o
  have hf := hd []
  rw [append_nil, hPD] at hf
  constructor
  · rintro hm (rfl | hc)
    · cases hm
    · rw [hc.parseRequest] at hm
      cases hm
  · intro hc
    cases hP : parseRequest o P with
    | needMore => rfl
    | error e =>
      obtain ⟨e', he'⟩ :=
        parseRequest_error hP (fun hn => hc (.inl hn)) (fun hline => hc (.inr hline))
      rw [he'] at hf
      cases hf
    | done n r' =>
      obtain ⟨W, R, rfl, hlen, -, hW⟩ := parseRequest_done hP
      rw [append_assoc, hW] at hf
      have hl := (Parsed.done.inj hf).1
      have hp := length_pos_of_ne_nil hD
      rw [length_append, length_append] at hl
      omega

end Incomplete

/-- Whether bytes begin an acceptable head of which some are missing. -/
def Begins (P : Bytes) : Prop := ∃ lead line req fields D,
  Acceptable lead line req fields ∧ lead ++ writeHead line fields = P ++ D ∧ D ≠ []

/-- What is accepted is what begins with an acceptable head, which is consumed and whose fields are
kept in order; the beginning of such a head is incomplete, unless it is cut early. -/
theorem parseRequest_exact_iff (o : Options) (U : Bytes) :
    (((∃ n req, parseRequest o U = .done n req) ↔ ∃ lead line req fields R,
        Acceptable lead line req fields ∧ U = lead ++ writeHead line fields ++ R) ∧
      (∀ lead line req fields R, Acceptable lead line req fields →
        U = lead ++ writeHead line fields ++ R →
        ∃ r, parseRequest o U = .done (lead ++ writeHead line fields).length r ∧
          r.rawHeaders = fields.map fun f => (f.1, trimSpace f.2)) ∧
      (Begins U → parseRequest o U = .needMore)) ↔ (Begins U → ¬CutEarly U) := by
  constructor
  · rintro ⟨-, -, hm⟩ hU
    have hn := hm hU
    obtain ⟨lead, line, req, fields, D, h, hb, hD⟩ := hU
    exact (h.needMore_iff hb hD).mp hn
  · intro hc
    refine ⟨⟨?_, ?_⟩, ?_, fun hU => ?_⟩
    · rintro ⟨n, r, hd⟩
      obtain ⟨lead, line, req, fields, R, hh, rfl, -, hread⟩ := parseRequest_done_iff.mp hd
      refine ⟨lead, line, req, fields, R, ⟨hh, ?_⟩, rfl⟩
      rw [verdict_readHead o hh.reads, hread]
      dsimp only
      split_ifs <;> decide
    · rintro ⟨lead, line, req, fields, R, h, rfl⟩
      obtain ⟨r, -, hr⟩ := h.done o
      exact ⟨_, r, hr R⟩
    · rintro lead line req fields R h rfl
      obtain ⟨r, hraw, hr⟩ := h.done o
      exact ⟨r, hr R, hraw⟩
    · have he := hc hU
      obtain ⟨lead, line, req, fields, D, h, hb, hD⟩ := hU
      exact (h.needMore_iff hb hD).mpr he

/-- The longest request line is accepted, but not asked more for when its LF is missing. -/
theorem longestLine_refused :
    (∃ n req, parseRequest {} (writeHead (ascii "GET /" ++ replicate 8178 0x61 ++ ascii " HTTP/1.1")
      [(ascii "Host", ascii "a")]) = .done n req) ∧
    parseRequest {} (ascii "GET /" ++ replicate 8178 0x61 ++ ascii " HTTP/1.1" ++ [cr]) ≠
      .needMore := by
  obtain ⟨k, hk⟩ : ∃ k, k = 8178 := ⟨_, rfl⟩
  rw [← hk]
  set line := ascii "GET /" ++ replicate k 0x61 ++ ascii " HTTP/1.1" with hline
  have hl : line.length = k + 14 := by
    rw [hline, length_append, length_append, length_replicate,
      show (ascii "GET /").length = 5 from rfl,
      show (ascii " HTTP/1.1").length = 9 from rfl]
    omega
  have hre : IsRequestLine line (ascii "GET") (slash :: replicate k 0x61) (ascii "HTTP/1.1") := by
    refine ⟨?_, by decide, nofun, ?_, ?_, by decide⟩
    · rw [hline, cons_append, append_assoc]
      rfl
    · rw [mem_cons, mem_replicate]
      rintro (h | ⟨-, h⟩) <;> exact absurd h (by decide)
    · rw [isValidRequestTarget, all_cons, all_replicate]
      split_ifs <;> rfl
  have hmax : line.length = maxRequestLineSize := by rw [hl, hk]; rfl
  have h : Acceptable [] line _ [(ascii "Host", ascii "a")] :=
    ⟨⟨.inl rfl, ⟨_, _, _, hre, rfl⟩, hmax.le, by decide, by decide⟩, by decide⟩
  obtain ⟨r, -, hr⟩ := h.done {}
  have hd := hr []
  rw [append_nil] at hd
  refine ⟨⟨_, r, hd⟩, ?_⟩
  have hcut : CutLine (line ++ [cr]) := by
    refine ⟨[], line, .inl rfl, rfl, hmax, splitLine_of_not_mem ?_⟩
    simp only [hline, mem_append, mem_replicate, not_or]
    exact ⟨⟨⟨by decide, fun h => absurd h.2 (by decide)⟩, by decide⟩, by decide⟩
  rw [hcut.parseRequest]
  nofun

end Celeris.H1
