import Celeris.H1.Parser
import Mathlib.Data.List.TakeWhile

/-!
# Request heads written out

`writeHead` writes a request line and fields as bytes. `parseRequest_writeHead`
says what the parser makes of them: it appends the fields one by one.

Of a request the framing of its body depends on the content length, the chunked
flag and the host. `frameField` is what one field does to them, the same in
both header modes.
-/

namespace Celeris.H1

open List

/-! ## Lines -/

variable {rest : Bytes} {o : Options}

theorem splitLine_crlf : splitLine (cr :: lf :: rest) = some ([], rest) := by
  rw [splitLine, if_pos ⟨rfl, rfl⟩]

variable {line : Bytes} {c : UInt8} {req : Request}

/-- A line without CR is split off at the CRLF behind it. -/
theorem splitLine_line (h : cr ∉ line) (rest : Bytes) :
    splitLine (line ++ cr :: lf :: rest) = some (line, rest) := by
  induction line with
  | nil => exact splitLine_crlf
  | cons a line ih =>
    rw [mem_cons, not_or] at h
    have ht := ih h.2
    cases line with
    | nil =>
      rw [cons_append, nil_append, splitLine, if_neg fun e => h.1 e.1.symm, splitLine_crlf]
      rfl
    | cons b line =>
      rw [cons_append, cons_append] at *
      rw [splitLine, if_neg fun e => h.1 e.1.symm, ht]
      rfl

variable {b before behind : Bytes}

theorem cut_eq_some (h : cut c b = some (before, behind)) :
    b = before ++ c :: behind ∧ c ∉ before := by
  unfold cut at h
  split_ifs at h with hc
  obtain ⟨rfl, rfl⟩ := h
  refine ⟨?_, fun hm => ?_⟩
  · induction b with
    | nil => cases hc
    | cons a b ih =>
      by_cases hac : a = c
      · simp [hac]
      · have hb : b.contains c = true := by
          simpa [Ne.symm hac] using hc
        simpa [hac] using ih hb
  · simpa using mem_takeWhile_imp hm

theorem cut_append (h : c ∉ before) : cut c (before ++ c :: behind) = some (before, behind) := by
  have hall : ∀ a ∈ before, (decide (a ≠ c)) = true := by
    intro a ha
    exact decide_eq_true fun e => h (e ▸ ha)
  unfold cut
  rw [if_pos (by simp), takeWhile_append_of_pos hall, dropWhile_append_of_pos hall]
  simp

/-! ## Heads as bytes -/

def fieldLine (f : Bytes × Bytes) : Bytes := f.1 ++ colon :: f.2

/-- Fields, each on its line, and the empty line that ends a head. -/
def writeFields : List (Bytes × Bytes) → Bytes
  | [] => [cr, lf]
  | f :: fs => fieldLine f ++ cr :: lf :: writeFields fs

def writeHead (line : Bytes) (fields : List (Bytes × Bytes)) : Bytes :=
  line ++ cr :: lf :: writeFields fields

/-- A field whose name and value the parser lets through. -/
def IsField (f : Bytes × Bytes) : Prop :=
  isValidHeaderName f.1 = true ∧ isValidHeaderValue f.2 = true

/-- Whether fields are within the limits of a head. -/
def WithinLimits (fields : List (Bytes × Bytes)) : Prop :=
  fields.length ≤ maxHeaderCount ∧ (writeFields fields).length ≤ maxHeaderSize

instance (f : Bytes × Bytes) : Decidable (IsField f) := inferInstanceAs (Decidable (_ ∧ _))

instance (fields : List (Bytes × Bytes)) : Decidable (WithinLimits fields) :=
  inferInstanceAs (Decidable (_ ∧ _))

/-- Append fields to a head one by one. -/
def appendFields (o : Options) (h : Head) (fields : List (Bytes × Bytes)) :
    Except ParseError Head :=
  fields.foldlM (fun h f => appendHeader o h f.1 (trimSpace f.2)) h

variable {name value : Bytes} {f : Bytes × Bytes} {h : Head}

theorem not_tchar (h : isValidHeaderName name = true) (hc : isTchar c = false) : c ∉ name := by
  intro hm
  rw [isValidHeaderName, Bool.and_eq_true, all_eq_true] at h
  rw [h.2 c hm] at hc
  cases hc

theorem not_mem_value (h : isValidHeaderValue value = true)
    (hc : isFieldVChar c = false) : c ∉ value := by
  intro hm
  rw [all_eq_true.mp h c hm] at hc
  cases hc

theorem IsField.cr_not_mem (h : IsField f) : cr ∉ fieldLine f := by
  rw [fieldLine, mem_append, mem_cons]
  rintro (hn | hc | hv)
  · exact not_tchar h.1 (by decide) hn
  · exact absurd hc (by decide)
  · exact not_mem_value h.2 (by decide) hv

theorem all_dropWhile {p q : UInt8 → Bool} (h : ∀ c, p c = true → q c = true) :
    (b.dropWhile p).all q = b.all q := by
  induction b with
  | nil => rfl
  | cons c b ih =>
    by_cases hc : p c = true
    · rw [dropWhile_cons_of_pos hc, ih, all_cons, h c hc, Bool.true_and]
    · rw [dropWhile_cons_of_neg hc]

theorem isValidHeaderValue_trimSpace :
    isValidHeaderValue (trimSpace value) = isValidHeaderValue value := by
  have hb : ∀ c, isBlank c = true → isFieldVChar c = true := by
    intro c hc
    rw [isBlank, Bool.or_eq_true, decide_eq_true_eq, decide_eq_true_eq] at hc
    rcases hc with rfl | rfl <;> rfl
  rw [isValidHeaderValue, trimSpace, rdropWhile, all_reverse, all_dropWhile hb, all_reverse,
    all_dropWhile hb]
  rfl

theorem readField_eq (hf : IsField f) (hc : h.req.rawHeaders.length < maxHeaderCount) :
    readField o h (fieldLine f) = appendHeader o h f.1 (trimSpace f.2) := by
  have hl : f.1.getLast?.all isBlank = false := by
    obtain ⟨a, ha⟩ : ∃ a, f.1.getLast? = some a := by
      refine Option.ne_none_iff_exists'.mp fun e => ?_
      rw [getLast?_eq_none_iff] at e
      have := hf.1
      rw [e] at this
      cases this
    have hm : a ∈ f.1 := mem_of_getLast? ha
    rw [ha, Option.all_some, Bool.eq_false_iff]
    intro hb
    rw [isBlank, Bool.or_eq_true, decide_eq_true_eq, decide_eq_true_eq] at hb
    rcases hb with rfl | rfl <;> exact not_tchar hf.1 (by decide) hm
  unfold readField
  rw [if_neg (by omega), fieldLine, cut_append (not_tchar hf.1 (by decide))]
  simp [hl, hf.1, isValidHeaderValue_trimSpace, hf.2]

/-! ## What a field does -/

/-- What a field does to a request, besides being kept. -/
def applyField (req : Request) (name value : Bytes) : Except ParseError Request :=
  if lower name = ascii "host" then .ok { req with host := value }
  else if lower name = ascii "content-length" then setContentLength req value
  else if lower name = ascii "transfer-encoding" then setTransferEncoding req value
  else if lower name = ascii "connection" then .ok (setConnection req value)
  else if lower name = ascii "expect" then .ok (setExpect req value)
  else .ok req

theorem appendString_eq : appendString req name value =
      applyField { req with headers := req.headers ++ [(lower name, value)] } name value := rfl

/-- The first byte of a name tells the fields that matter apart. -/
theorem first_of_lower {b : UInt8} (h : lower (c :: name) = b :: rest)
    (hb : b ||| 0x20 = b) : c ||| 0x20 = b := by
  rw [lower, map_cons, cons.injEq] at h
  rw [← h.1] at hb ⊢
  unfold lowerByte at *
  split_ifs at * with hu
  · rfl
  · exact hb

theorem appendRaw_eq : appendRaw req name value = applyField req name value := by
  unfold appendRaw applyField
  cases name with
  | nil => rfl
  | cons c name =>
    have hf : ∀ s : String, asciiEqualFold (c :: name) (ascii s) =
        decide (lower (c :: name) = lower (ascii s)) := fun _ => rfl
    have hh : lower (ascii "Host") = ascii "host" := by decide
    have hcl : lower (ascii "Content-Length") = ascii "content-length" := by decide
    have hte : lower (ascii "Transfer-Encoding") = ascii "transfer-encoding" := by decide
    have hconn : lower (ascii "Connection") = ascii "connection" := by decide
    have hexp : lower (ascii "Expect") = ascii "expect" := by decide
    simp only [hf, hh, hcl, hte, hconn, hexp, decide_eq_true_eq]
    by_cases h1 : lower (c :: name) = ascii "host"
    · rw [if_pos (first_of_lower (h1.trans (by rfl)) (by decide)), if_pos h1, if_pos h1]
    rw [if_neg h1, if_neg h1]
    by_cases h2 : lower (c :: name) = ascii "content-length"
    · have hc : c ||| 0x20 = 0x63 := first_of_lower (h2.trans (by rfl)) (by decide)
      rw [hc, if_neg (by decide), if_pos rfl, if_pos h2, if_pos h2]
    rw [if_neg h2, if_neg h2]
    by_cases h3 : lower (c :: name) = ascii "transfer-encoding"
    · have hc : c ||| 0x20 = 0x74 := first_of_lower (h3.trans (by rfl)) (by decide)
      rw [hc, if_neg (by decide), if_neg (by decide), if_pos rfl, if_pos h3, if_pos h3]
    rw [if_neg h3, if_neg h3]
    by_cases h4 : lower (c :: name) = ascii "connection"
    · have hc : c ||| 0x20 = 0x63 := first_of_lower (h4.trans (by rfl)) (by decide)
      rw [hc, if_neg (by decide), if_pos rfl, if_pos h4, if_pos h4]
    rw [if_neg h4, if_neg h4]
    by_cases h5 : lower (c :: name) = ascii "expect"
    · have hc : c ||| 0x20 = 0x65 := first_of_lower (h5.trans (by rfl)) (by decide)
      rw [hc, if_neg (by decide), if_neg (by decide), if_neg (by decide), if_pos rfl, if_pos h5]
    split_ifs <;> rfl

/-! ## Framing -/

/-- What the framing of a body depends on. -/
structure Framing where
  contentLength : Option Nat
  chunked : Bool
  host : Bytes
deriving DecidableEq, Repr

def Request.framing (req : Request) : Framing :=
  ⟨req.contentLength, req.chunkedEncoding, req.host⟩

/-- What a field does to the framing. -/
def frameField (fr : Framing) (f : Bytes × Bytes) : Except ParseError Framing :=
  if lower f.1 = ascii "host" then .ok { fr with host := trimSpace f.2 }
  else if lower f.1 = ascii "content-length" then
    if fr.chunked then .error .conflictingFraming
    else
      match parseInt64Bytes (trimSpace f.2) with
      | none => .error .invalidContentLength
      | some cl =>
        if fr.contentLength.any fun n => n ≠ cl then .error .duplicateContentLength
        else .ok { fr with contentLength := some cl }
  else if lower f.1 = ascii "transfer-encoding" then
    match transferEncodingIsChunked (trimSpace f.2) with
    | .error e => .error e
    | .ok false => .ok fr
    | .ok true =>
      if fr.contentLength.isSome then .error .conflictingFraming
      else .ok { fr with
        chunked := true
        contentLength := none }
  else .ok fr

theorem map_eq_map {ε α β γ : Type} {x : Except ε α} {y : Except ε β} {f : α → γ} {g : β → γ}
    (h : x.map f = y.map g) : (∃ e, x = .error e ∧ y = .error e) ∨ ∃ a b, x = .ok a ∧ y = .ok b ∧
      f a = g b := by
  cases x <;> cases y <;> simp_all [Except.map]

theorem applyField_frame :
    (applyField req f.1 (trimSpace f.2)).map (fun req => (req.framing, req.rawHeaders)) =
      (frameField req.framing f).map fun fr => (fr, req.rawHeaders) := by
  obtain ⟨method, path, version, headers, raw, host, length, chunked, keepAlive, expect, upgrade,
    settings⟩ := req
  unfold applyField frameField
  by_cases h1 : lower f.1 = ascii "host"
  · rw [if_pos h1, if_pos h1]
    rfl
  rw [if_neg h1, if_neg h1]
  by_cases h2 : lower f.1 = ascii "content-length"
  · rw [if_pos h2, if_pos h2, setContentLength]
    cases chunked with
    | true => rfl
    | false =>
      cases parseInt64Bytes (trimSpace f.2) with
      | none => rfl
      | some cl =>
        simp only [apply_ite (Except.map _)]
        rfl
  rw [if_neg h2, if_neg h2]
  by_cases h3 : lower f.1 = ascii "transfer-encoding"
  · rw [if_pos h3, if_pos h3, setTransferEncoding]
    cases transferEncodingIsChunked (trimSpace f.2) with
    | error e => rfl
    | ok last => cases last <;> cases length <;> rfl
  unfold setConnection setExpect
  split_ifs <;> rfl

/-- In both header modes a field is kept and applied to the request, of which the detection of
h2c leaves the rest alone. -/
theorem appendHeader_eq :
    ∃ headers settings, (appendHeader o h name value).map Head.req = applyField { h.req with
      headers := headers
      rawHeaders := h.req.rawHeaders ++ [(name, value)]
      http2Settings := settings } name value := by
  have hm : ∀ (h : Head) (x : Except ParseError Request),
      (x.map fun req => ({ h with req := req } : Head)).map Head.req = x :=
        fun _ x => by cases x <;> rfl
  have hd : ∀ h : Head, ∃ settings,
      (detectH2CHeader h name value).req = { h.req with http2Settings := settings } := by
    intro h
    unfold detectH2CHeader
    split
    · exact ⟨_, rfl⟩
    · dsimp only
      split_ifs <;> exact ⟨_, rfl⟩
  unfold appendHeader
  obtain ⟨settings, hs⟩ :=
    hd { h with req := { h.req with rawHeaders := h.req.rawHeaders ++ [(name, value)] } }
  simp only [appendRaw_eq, appendString_eq, hm]
  split_ifs
  · exact ⟨_, _, rfl⟩
  · exact ⟨_, _, congrArg (applyField · name value) hs⟩
  · exact ⟨_, _, rfl⟩
  · exact ⟨_, _, congrArg (fun req => applyField
      { req with headers := req.headers ++ [(lower name, value)] } _ _) hs⟩

/-- In both header modes a field does the same to the framing, and one raw
header is kept. -/
theorem appendHeader_frame :
    (appendHeader o h f.1 (trimSpace f.2)).map (fun h => (h.req.framing, h.req.rawHeaders)) =
      (frameField h.req.framing f).map
        fun fr => (fr, h.req.rawHeaders ++ [(f.1, trimSpace f.2)]) := by
  obtain ⟨_, _, ha⟩ := appendHeader_eq
  have hf := congrArg (Except.map fun req => (req.framing, req.rawHeaders)) ha
  rw [applyField_frame] at hf
  refine Eq.trans ?_ hf
  cases appendHeader o h f.1 (trimSpace f.2) <;> rfl

theorem appendFields_frame (o : Options) (h : Head) (fields : List (Bytes × Bytes)) :
    (appendFields o h fields).map (fun h => h.req.framing) =
      fields.foldlM frameField h.req.framing := by
  induction fields generalizing h with
  | nil => rfl
  | cons f fields ih =>
    rw [appendFields, foldlM_cons, foldlM_cons]
    obtain ⟨e, ha, hf⟩ | ⟨h', fr, ha, hf, heq⟩ := map_eq_map appendHeader_frame
    · rw [ha, hf]
      rfl
    · rw [ha, hf, ← (Prod.mk.inj heq).1]
      exact ih h'

/-! ## Parsing a written head -/

theorem parseHeaders_writeFields {fields : List (Bytes × Bytes)} (hf : ∀ f ∈ fields, IsField f)
    {fuel total : Nat}
    (hfuel : fields.length < fuel) (ht : total + (writeFields fields).length ≤ maxHeaderSize)
    (hc : h.req.rawHeaders.length + fields.length ≤ maxHeaderCount) :
    parseHeaders o fuel total h (writeFields fields ++ rest) =
      (appendFields o h fields).map fun h => some (h, rest) := by
  induction fields generalizing fuel total h with
  | nil =>
    obtain ⟨fuel, rfl⟩ : ∃ n, fuel = n + 1 := ⟨fuel - 1, by simp at hfuel; omega⟩
    simp only [writeFields, length_cons, length_nil] at ht
    rw [parseHeaders, writeFields, cons_append, cons_append, splitLine_crlf]
    simp only [length_nil, isEmpty_nil, if_true, nil_append]
    rw [if_neg (by omega)]
    rfl
  | cons f fields ih =>
    obtain ⟨fuel, rfl⟩ : ∃ n, fuel = n + 1 := ⟨fuel - 1, by simp at hfuel; omega⟩
    rw [forall_mem_cons] at hf
    simp only [writeFields, length_append, length_cons] at ht hfuel hc
    have hne : (fieldLine f).isEmpty = false := by simp [fieldLine]
    rw [parseHeaders, writeFields, append_assoc, cons_append, cons_append,
      splitLine_line hf.1.cr_not_mem]
    simp only [hne, Bool.false_eq_true, if_false]
    rw [if_neg (by omega), readField_eq hf.1 (by omega), appendFields, foldlM_cons]
    obtain ⟨e, ha, -⟩ | ⟨h', fr, ha, -, heq⟩ := map_eq_map appendHeader_frame
    · rw [ha]
      rfl
    · have hraw := congrArg length (Prod.mk.inj heq).2
      rw [length_append, length_singleton] at hraw
      rw [ha]
      exact ih hf.2 (by omega) (by omega) (by omega)

/-- A method, a target and a version with a blank between them. -/
structure IsRequestLine (line method path version : Bytes) : Prop where
  bytes : line = method ++ space :: (path ++ space :: version)
  method : isToken method = true
  nonempty : path ≠ []
  noSpace : space ∉ path
  target : isValidRequestTarget path = true
  version : isSupportedVersion version = true

theorem readRequestLine_iff : readRequestLine line = .ok req ↔ ∃ method path version,
    IsRequestLine line method path version ∧
      req = { method := method, path := path, version := version } := by
  constructor
  · intro h
    unfold readRequestLine at h
    split at h
    · cases h
    rename_i method rest hc
    split at h
    · cases h
    rename_i path version hc'
    split_ifs at h with h1 h2 h3
    cases h
    obtain ⟨rfl, -⟩ := cut_eq_some hc
    obtain ⟨rfl, hs⟩ := cut_eq_some hc'
    simp only [Bool.not_eq_true, Bool.not_eq_false', Bool.or_eq_false_iff,
      isEmpty_eq_false_iff] at h1 h2 h3
    exact ⟨method, path, version, ⟨rfl, h1, h2.1, hs, h2.2, h3⟩, rfl⟩
  · rintro ⟨method, path, version, h, rfl⟩
    obtain ⟨rfl, hm, hp, hs, ht, hv⟩ := h
    rw [readRequestLine, cut_append (not_tchar hm (by decide))]
    simp [cut_append hs, hm, hp, ht, hv]

/-- A request line that is let through has no CR, and starts a request without
framing. -/
theorem readRequestLine_ok (h : readRequestLine line = .ok req) :
    cr ∉ line ∧ line ≠ [] ∧ req.framing = ⟨none, false, []⟩ ∧ req.rawHeaders = [] := by
  obtain ⟨method, path, version, hl, rfl⟩ := readRequestLine_iff.mp h
  obtain ⟨rfl, hm, -, -, ht, hv⟩ := hl
  refine ⟨?_, by simp, rfl, rfl⟩
  simp only [mem_append, mem_cons, not_or]
  refine ⟨not_tchar hm (by decide), by decide, ?_, by decide, ?_⟩
  · intro hmem
    exact absurd (all_eq_true.mp ht cr hmem) (by decide)
  · rw [isSupportedVersion, Bool.or_eq_true, decide_eq_true_eq, decide_eq_true_eq] at hv
    rcases hv with rfl | rfl <;> decide

theorem parseRequestLine_line (h : readRequestLine line = .ok req)
    (hl : line.length ≤ maxRequestLineSize) :
    parseRequestLine (line ++ cr :: lf :: rest) = .ok (some (req, rest)) := by
  obtain ⟨hcr, hne, -⟩ := readRequestLine_ok h
  have hs := splitLine_line hcr rest
  unfold parseRequestLine
  cases line with
  | nil => exact absurd rfl hne
  | cons a line =>
    simp only [parseLine, hs]
    rw [if_neg (by omega), h]
    rfl

end Celeris.H1
