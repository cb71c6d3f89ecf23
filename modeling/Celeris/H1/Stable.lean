import Celeris.H1.Chunked
import Celeris.H1.Grammar

/-!
# More bytes

What the parsers decided on some bytes they decide on these bytes with more
behind them. There is one exception. The request-line limit counts the CR of a
line whose LF has not arrived, so a line of exactly the largest size is refused
when the bytes end between the two, and accepted otherwise. `CutLine` says that
bytes end there.
-/

namespace Celeris.H1

open List

/-! ## Lines -/

variable {U l r R rest : Bytes} {req : Request} {e : ParseError} {o : Options} {n hdr : Nat}

theorem splitLine_append (h : splitLine U = some (l, r)) (D : Bytes) :
    splitLine (U ++ D) = some (l, r ++ D) := by
  obtain ⟨rfl, hs⟩ := splitLine_eq h
  rw [append_assoc]
  exact hs (r ++ D)

theorem length_of_splitLine (h : splitLine U = some (l, r)) :
    U.length = l.length + 2 + r.length := by
  rw [(splitLine_eq h).1, length_append, length_cons, length_cons]
  omega

theorem splitLine_of_not_mem (h : lf ∉ U) : splitLine U = none := by
  cases hs : splitLine U with
  | none => rfl
  | some p =>
    rw [(splitLine_eq hs).1] at h
    exact absurd (by simp) h

variable {D : Bytes}

/-- A CRLF that was not there before starts at the last byte or later. -/
theorem splitLine_new (hU : splitLine U = none) (h : splitLine (U ++ D) = some (l, r)) :
    U.length ≤ l.length + 1 ∧ (U.length = l.length + 1 → U.getLast? = some cr) := by
  induction U generalizing l with
  | nil => exact ⟨Nat.zero_le _, fun e => absurd e (by simp)⟩
  | cons a U ih =>
    cases U with
    | nil =>
      refine ⟨by simp, fun e => ?_⟩
      have hl : l = [] := by simpa using e
      subst hl
      obtain ⟨heq, -⟩ := splitLine_eq h
      simp only [cons_append, nil_append, cons.injEq] at heq
      rw [heq.1]
      rfl
    | cons b U =>
      rw [splitLine] at hU
      rw [cons_append, cons_append, splitLine] at h
      split_ifs at hU h with hab
      obtain ⟨⟨l', r'⟩, h', he⟩ := Option.map_eq_some_iff.mp h
      obtain ⟨rfl, rfl⟩ := he
      obtain ⟨hle, hcr⟩ := ih (by simpa using hU) h'
      simp only [length_cons] at hle hcr ⊢
      refine ⟨by omega, fun e => ?_⟩
      rw [getLast?_cons_cons]
      exact hcr (by omega)

/-! ## The request line -/

/-- Bytes that end between the CR and the LF of a request line of the largest size. -/
def CutLine (U : Bytes) : Prop :=
  ∃ lead line, (lead = [] ∨ lead = [cr, lf]) ∧ U = lead ++ (line ++ [cr]) ∧
  line.length = maxRequestLineSize ∧ splitLine (line ++ [cr]) = none

theorem parseLine_error (h : parseLine U = .error e) (D : Bytes)
    (hc : ∀ line, U = line ++ [cr] → line.length = maxRequestLineSize → splitLine U ≠ none) :
    ∃ e', parseLine (U ++ D) = .error e' := by
  unfold parseLine at h
  split at h
  · rename_i hs
    split_ifs at h with hlen
    unfold parseLine
    cases hs' : splitLine (U ++ D) with
    | none =>
      refine ⟨.requestLineTooLong, if_pos ?_⟩
      rw [length_append]
      omega
    | some p =>
      obtain ⟨l, r⟩ := p
      refine ⟨.requestLineTooLong, if_pos ?_⟩
      obtain ⟨hle, hcr⟩ := splitLine_new hs hs'
      by_contra hl
      obtain ⟨line, rfl⟩ := getLast?_eq_some_iff.mp (hcr (by omega))
      rw [length_append, length_singleton] at hlen hle
      exact hc line rfl (by omega) hs
  · rename_i l r hs
    unfold parseLine
    rw [splitLine_append hs D]
    simp only
    split_ifs at h ⊢ with hlen
    · exact ⟨_, rfl⟩
    · cases hr : readRequestLine l with
      | error e' => exact ⟨e', rfl⟩
      | ok req =>
        rw [hr] at h
        cases h

theorem parseRequestLine_error (h : parseRequestLine U = .error e)
    (hc : ¬CutLine U) : ∃ e', parseRequestLine (U ++ D) = .error e' := by
  unfold parseRequestLine at h
  split at h
  · rename_i rest hs
    rw [parseRequestLine, splitLine_append hs D]
    refine parseLine_error h D fun line hr hl hn => hc ⟨[cr, lf], line, .inr rfl, ?_, hl, hr ▸ hn⟩
    rw [(splitLine_eq hs).1, hr]
    rfl
  · rename_i hno
    have he := parseLine_error h D fun line hU hl hn => hc ⟨[], line, .inl rfl, hU, hl, hU ▸ hn⟩
    rw [parseRequestLine]
    split
    · -- An empty line that only now appears would have left too few bytes to refuse.
      rename_i rest hs
      cases hU : splitLine U with
      | some p =>
        obtain ⟨l, r⟩ := p
        rw [splitLine_append hU D, Option.some.injEq, Prod.mk.injEq] at hs
        exact absurd (hs.1 ▸ hU) (hno r)
      | none =>
        obtain ⟨hle, -⟩ := splitLine_new hU hs
        rw [parseLine, hU] at h
        split_ifs at h with hl
        simp only [length_nil] at hle
        exact absurd hl (by unfold maxRequestLineSize; omega)
    · exact he

/-! ## The head -/

variable {fuel total fuel' k : Nat} {h : Head} {line : Bytes}

theorem parseHeaders_append {h' : Head} (hp : parseHeaders o fuel total h U = .ok (some (h', R)))
    (hc : h.req.rawHeaders.length ≤ maxHeaderCount) (hf : U.length ≤ fuel') :
    parseHeaders o fuel' total h (U ++ D) = .ok (some (h', R ++ D)) := by
  obtain ⟨fields, rfl, hfi, ht, hc', ha⟩ := parseHeaders_done hp hc
  have hfuel := length_lt_writeFields fields
  rw [length_append] at hf
  rw [append_assoc, parseHeaders_writeFields hfi (by omega) ht hc', ha]
  rfl

theorem parseHeaders_error (hp : parseHeaders o fuel total h U = .error e)
    (hf : fuel ≤ fuel') : parseHeaders o fuel' total h (U ++ D) = .error e := by
  induction fuel generalizing total h U fuel' with
  | zero => cases hp
  | succ fuel ih =>
    obtain ⟨n, rfl⟩ : ∃ n, fuel' = n + 1 := ⟨fuel' - 1, by omega⟩
    rw [parseHeaders] at hp ⊢
    cases hs : splitLine U with
    | none =>
      rw [hs] at hp
      cases hp
    | some p =>
      obtain ⟨line, rest⟩ := p
      rw [hs] at hp
      rw [splitLine_append hs D]
      simp only at hp ⊢
      split_ifs at hp ⊢ with h1 h2
      · exact hp
      · cases hr : readField o h line with rw [hr] at hp
        | error e' => exact hp
        | ok h₁ => exact ih hp (by omega)

/-- A head that was parsed stays parsed, whatever follows it, and so does the
head alone. -/
theorem parseRequest_done (h : parseRequest o U = .done n req) :
    ∃ W R, U = W ++ R ∧ W.length = n ∧ W ≠ [] ∧ ∀ D, parseRequest o (W ++ D) = .done n req := by
  obtain ⟨lead, line, req₀, fields, R, hh, rfl, rfl, hr⟩ := parseRequest_done_iff.mp h
  refine ⟨_, R, rfl, rfl, by simp [writeHead], fun D => ?_⟩
  rw [parseRequest_head o hh, hr]

/-- A refusal stays a refusal, unless the bytes end at the one bad place. -/
theorem parseRequest_error (h : parseRequest o U = .error e) (hne : U ≠ []) (hc : ¬CutLine U) :
    ∃ e', parseRequest o (U ++ D) = .error e' := by
  rw [parseRequest_eq hne] at h
  rw [parseRequest_eq (by simp [hne])]
  rcases hl : parseRequestLine U with e₀ | (_ | ⟨req₀, rest⟩)
  · obtain ⟨e', he'⟩ := parseRequestLine_error hl hc
    exact ⟨e', by rw [he']⟩
  · rw [hl] at h
    cases h
  · obtain ⟨lead, line, hlead, rfl, hline⟩ := parseRequestLine_iff.mp hl
    have hl' : parseRequestLine (lead ++ (line ++ cr :: lf :: rest) ++ D) =
        .ok (some (req₀, rest ++ D)) :=
      parseRequestLine_iff.mpr ⟨lead, line, hlead, by simp, hline⟩
    rw [hl] at h
    rw [hl']
    dsimp only [readBehind] at h ⊢
    rcases hh : parseHeaders o rest.length 0 (startHead req₀) rest with e₁ | (_ | ⟨h₁, R⟩)
    · rw [parseHeaders_error hh (by simp)]
      exact ⟨e₁, rfl⟩
    · rw [hh] at h
      cases h
    · rw [hh] at h
      rw [parseHeaders_append hh (by simp [startHead, (readRequestLine_ok hline.1).2.2.2])
        (by simp)]
      dsimp only at h ⊢
      cases hf : finishHead h₁ with
      | error e₁ => exact ⟨e₁, rfl⟩
      | ok req₁ =>
        rw [hf] at h
        cases h

/-! ## Chunks -/

theorem findBlank_append (h : findBlank U = some k) (D : Bytes) :
    findBlank (U ++ D) = some k ∧ k + 4 ≤ U.length := by
  induction U generalizing k with
  | nil => cases h
  | cons a U ih =>
    rcases U with _ | ⟨b, _ | ⟨c, _ | ⟨d, U⟩⟩⟩
    · cases h
    · cases h
    · cases h
    · rw [findBlank] at h
      simp only [cons_append] at ih ⊢
      rw [findBlank]
      split_ifs at h ⊢ with hq
      · cases h
        exact ⟨rfl, by simp⟩
      · obtain ⟨k', hk', rfl⟩ := Option.map_eq_some_iff.mp h
        obtain ⟨h1, h2⟩ := ih hk'
        rw [h1]
        exact ⟨rfl, by simp only [length_cons] at h2 ⊢; omega⟩

/-- An empty line that was not there before ends behind the old bytes. -/
theorem findBlank_new (hU : findBlank U = none)
    (h : findBlank (U ++ D) = some k) : U.length < k + 4 := by
  induction U generalizing k with
  | nil => exact Nat.succ_pos _
  | cons a U ih =>
    rcases U with _ | ⟨b, _ | ⟨c, _ | ⟨d, U⟩⟩⟩
    · simp
    · simp
    · simp
    · rw [findBlank] at hU
      simp only [cons_append] at ih h
      rw [findBlank] at h
      split_ifs at hU h with hq
      obtain ⟨k', hk', rfl⟩ := Option.map_eq_some_iff.mp h
      have := ih (by simpa using hU) hk'
      simp only [length_cons] at this ⊢
      omega

theorem isPrefixOf_crlf_append (h : 2 ≤ U.length) :
    [cr, lf].isPrefixOf (U ++ D) = [cr, lf].isPrefixOf U := by
  rcases U with _ | ⟨a, _ | ⟨b, U⟩⟩
  · simp at h
  · simp at h
  · rfl

theorem length_of_isPrefixOf_crlf (h : [cr, lf].isPrefixOf U = true) : 2 ≤ U.length := by
  rcases U with _ | ⟨a, _ | ⟨b, U⟩⟩
  · cases h
  · simp at h
  · simp

theorem parseTrailer_append (h : parseTrailer hdr rest ≠ .ok .needMore) :
    parseTrailer hdr (rest ++ D) = parseTrailer hdr rest := by
  unfold parseTrailer at h ⊢
  by_cases hp : [cr, lf].isPrefixOf rest = true
  · rw [isPrefixOf_crlf_append (length_of_isPrefixOf_crlf hp), if_pos hp, if_pos hp]
  · cases hb : findBlank rest with
    | none =>
      rw [if_neg hp, hb] at h
      exact absurd rfl h
    | some stop =>
      obtain ⟨hb', hle⟩ := findBlank_append hb D
      rw [isPrefixOf_crlf_append (by omega), if_neg hp, if_neg hp, hb']

theorem parseTrailer_consumed (h : parseTrailer hdr rest = .ok (.last n)) :
    hdr < n ∧ n ≤ hdr + rest.length := by
  unfold parseTrailer at h
  split_ifs at h with hp
  · cases h
    have hl := length_of_isPrefixOf_crlf hp
    omega
  · cases hb : findBlank rest with
    | none =>
      rw [hb] at h
      cases h
    | some stop =>
      have hle := (findBlank_append hb []).2
      rw [hb] at h
      simp only at h
      split_ifs at h
      cases h
      omega

theorem parseTrailer_ne_data {chunk : Bytes} : parseTrailer hdr rest ≠ .ok (.data chunk n) := by
  unfold parseTrailer
  split_ifs
  · simp
  · split
    · simp
    · split_ifs <;> simp

theorem parseData_append {size : Nat} (h : size + 2 ≤ rest.length) :
    parseData hdr size (rest ++ D) = parseData hdr size rest := by
  have hD : size + 2 ≤ (rest ++ D).length := by rw [length_append]; omega
  unfold parseData
  rw [if_neg (Nat.not_lt.mpr hD), if_neg (Nat.not_lt.mpr h), drop_append_of_le_length (by omega),
    take_append_of_le_length (by rw [length_drop]; omega),
    take_append_of_le_length (by omega)]

/-- What a chunk parser that does not need more says, it says about more bytes. -/
theorem readChunk_append (h : readChunk line rest ≠ .ok .needMore) :
    readChunk line (rest ++ D) = readChunk line rest := by
  unfold readChunk at h ⊢
  split_ifs at h ⊢ with hl
  · rfl
  cases hs : chunkSize line with
  | none => rfl
  | some size =>
    rw [hs] at h
    cases size with
    | zero => exact parseTrailer_append h
    | succ size =>
      refine parseData_append ?_
      by_contra hlt
      exact h (if_pos (by omega))

theorem parseData_consumed {hdr size : Nat}
    (h : parseData hdr size rest = .ok (.last n) ∨
      ∃ chunk, parseData hdr size rest = .ok (.data chunk n)) :
    size + 2 ≤ rest.length ∧ n = hdr + size + 2 := by
  unfold parseData at h
  split_ifs at h <;> rcases h with h | ⟨_, h⟩ <;> cases h
  exact ⟨by omega, rfl⟩

/-- A chunk takes some of the bytes. -/
theorem readChunk_consumed
    (h : readChunk line rest = .ok (.last n) ∨ ∃ chunk, readChunk line rest = .ok (.data chunk n)) :
    line.length + 2 < n ∧ n ≤ line.length + 2 + rest.length := by
  unfold readChunk at h
  split_ifs at h with hl
  · rcases h with h | ⟨_, h⟩ <;> cases h
  cases hs : chunkSize line with rw [hs] at h
  | none => rcases h with h | ⟨_, h⟩ <;> cases h
  | some size =>
    cases size with
    | zero =>
      rcases h with h | ⟨_, h⟩
      · exact parseTrailer_consumed h
      · exact absurd h parseTrailer_ne_data
    | succ size =>
      have hd := parseData_consumed h
      omega

/-- What the chunk parser says, it says about more bytes. -/
theorem parseChunkedBody_append (h : parseChunkedBody U ≠ .ok .needMore) (D : Bytes) :
    parseChunkedBody (U ++ D) = parseChunkedBody U := by
  unfold parseChunkedBody at h ⊢
  cases hs : splitLine U with rw [hs] at h
  | none => exact absurd rfl h
  | some p =>
    rw [splitLine_append hs D]
    exact readChunk_append h

theorem parseChunkedBody_consumed
    (h : parseChunkedBody U = .ok (.last n) ∨ ∃ chunk, parseChunkedBody U = .ok (.data chunk n)) :
    0 < n ∧ n ≤ U.length := by
  unfold parseChunkedBody at h
  cases hs : splitLine U with
  | none =>
    rw [hs] at h
    rcases h with h | ⟨_, h⟩ <;> cases h
  | some p =>
    obtain ⟨line, rest⟩ := p
    rw [hs] at h
    have := readChunk_consumed h
    have hU := length_of_splitLine hs
    omega

/-- What an incomplete chunk starts with. -/
inductive Partial (U : Bytes) : Prop
  /-- The size line is not complete. -/
  | line : splitLine U = none → Partial U
  /-- The trailer of the terminating chunk is not complete. -/
  | trailer {l rest : Bytes} : splitLine U = some (l, rest) → l.length ≤ maxChunkLineSize →
      chunkSize l = some 0 → [cr, lf].isPrefixOf rest = false → findBlank rest = none → Partial U
  /-- The data is not complete. -/
  | data {l rest : Bytes} {size : Nat} : splitLine U = some (l, rest) →
      l.length ≤ maxChunkLineSize → chunkSize l = some (size + 1) →
      rest.length < size + 1 + 2 → Partial U

theorem partial_of_needMore (h : parseChunkedBody U = .ok .needMore) : Partial U := by
  unfold parseChunkedBody at h
  cases hs : splitLine U with
  | none => exact .line hs
  | some p =>
    obtain ⟨line, rest⟩ := p
    rw [hs] at h
    simp only [readChunk] at h
    split_ifs at h with hl
    cases hsize : chunkSize line with rw [hsize] at h
    | none => cases h
    | some size =>
      cases size with
      | zero =>
        simp only [parseTrailer] at h
        split_ifs at h with hp
        · cases h
        · cases hb : findBlank rest with
          | none =>
            exact .trailer hs (by omega) hsize (by simpa only [Bool.not_eq_true] using hp) hb
          | some stop =>
            rw [hb] at h
            simp only at h
            split_ifs at h
            cases h
      | succ size =>
        simp only [parseData] at h
        split_ifs at h with h1 h2
        · exact .data hs (by omega) hsize h1
        · cases h

end Celeris.H1
