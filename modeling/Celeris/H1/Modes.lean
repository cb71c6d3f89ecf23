import Celeris.H1.Grammar

/-!
# The two header modes (`internal/protocol/h1/intern.go`)

With `zeroCopy` the parser keeps the raw fields only, without it also their names in lower case,
interned if they are common. Nothing else depends on the mode.
-/

namespace Celeris.H1

open List Request

/-- The names that `internOrLowerHeader` has strings for, by their first byte in lower case. -/
def internedHeaders : List (UInt8 × String × String) :=
  [(0x61, "Accept", "accept"), (0x61, "Accept-Encoding", "accept-encoding"),
    (0x61, "Accept-Language", "accept-language"), (0x61, "Authorization", "authorization"),
    (0x63, "Content-Type", "content-type"), (0x63, "Content-Length", "content-length"),
    (0x63, "Connection", "connection"), (0x63, "Cookie", "cookie"),
    (0x63, "Cache-Control", "cache-control"), (0x65, "Expect", "expect"), (0x68, "Host", "host"),
    (0x69, "If-None-Match", "if-none-match"), (0x69, "If-Modified-Since", "if-modified-since"),
    (0x6f, "Origin", "origin"), (0x72, "Referer", "referer"),
    (0x74, "Transfer-Encoding", "transfer-encoding"), (0x75, "User-Agent", "user-agent"),
    (0x75, "Upgrade", "upgrade"), (0x78, "X-Forwarded-For", "x-forwarded-for"),
    (0x78, "X-Real-IP", "x-real-ip"), (0x78, "X-Request-ID", "x-request-id")]

def internOrLowerHeader : Bytes → Bytes
  | [] => []
  | c :: raw =>
    match internedHeaders.find? fun e => e.1 = c ||| 0x20 && asciiEqualFold (c :: raw)
      (ascii e.2.1) with
    | some e => ascii e.2.2
    | none => lower (c :: raw)

/-- A string that is kept is the name in lower case. -/
theorem internOrLowerHeader_eq (raw : Bytes) : internOrLowerHeader raw = lower raw := by
  have ht : ∀ e ∈ internedHeaders, ascii e.2.2 = lower (ascii e.2.1) := by decide +kernel
  cases raw with
  | nil => rfl
  | cons c raw =>
    rw [internOrLowerHeader]
    split
    · rename_i e he
      have hf := find?_some he
      simp only [Bool.and_eq_true, asciiEqualFold, decide_eq_true_eq] at hf
      rw [ht e (mem_of_find?_eq_some he), hf.2]
    · rfl

/-! ## The mode does not matter -/

/-- A request with the raw fields kept as strings. -/
def Request.withStrings (req : Request) : Request :=
  { req with headers := req.rawHeaders.map fun f => (internOrLowerHeader f.1, f.2) }

def Head.withStrings (h : Head) : Head := { h with req := h.req.withStrings }

def Parsed.withStrings : Parsed → Parsed
  | .done n req => .done n req.withStrings
  | p => p

theorem applyField_headers {req : Request} {headers : List (Bytes × Bytes)} {name value : Bytes} :
    applyField { req with headers := headers } name value =
      (applyField req name value).map fun req => { req with headers := headers } := by
  have hl : setContentLength { req with headers := headers } value =
      (setContentLength req value).map fun req => { req with headers := headers } := by
    unfold setContentLength
    cases parseInt64Bytes value <;> simp only [apply_ite (Except.map _)] <;> rfl
  have hc : setTransferEncoding { req with headers := headers } value =
      (setTransferEncoding req value).map fun req => { req with headers := headers } := by
    unfold setTransferEncoding
    rcases transferEncodingIsChunked value with e | (_ | _)
    · rfl
    · rfl
    · simp only [apply_ite (Except.map _)]
      rfl
  unfold applyField setConnection setExpect
  rw [hl, hc]
  split_ifs <;> rfl

variable (d : Bool)

theorem appendHeader_withStrings (h : Head) (f : Bytes × Bytes) :
    appendHeader ⟨false, d⟩ h.withStrings f.1 (trimSpace f.2) =
      (appendHeader ⟨true, d⟩ h f.1 (trimSpace f.2)).map Head.withStrings := by
  have hd : ∀ (h : Head) (headers : List (Bytes × Bytes)),
      detectH2CHeader { h with req := { h.req with headers := headers } } f.1 (trimSpace f.2) =
        { detectH2CHeader h f.1 (trimSpace f.2) with
          req := { (detectH2CHeader h f.1 (trimSpace f.2)).req with headers := headers } } ∧
      (detectH2CHeader h f.1 (trimSpace f.2)).req.rawHeaders = h.req.rawHeaders := by
    intro h headers
    unfold detectH2CHeader
    split
    · exact ⟨rfl, rfl⟩
    · dsimp only
      split_ifs <;> exact ⟨rfl, rfl⟩
  -- The request that the field is applied to, in the mode without strings.
  have hap : ∀ h' : Head, h'.req.rawHeaders = h.req.rawHeaders ++ [(f.1, trimSpace f.2)] →
      (applyField { h'.req with
        headers := h.withStrings.req.headers ++ [(lower f.1, trimSpace f.2)] } f.1
        (trimSpace f.2)).map (fun req => { h' with req := req }) =
      ((applyField h'.req f.1 (trimSpace f.2)).map fun req => { h' with req := req }).map
        Head.withStrings := by
    intro h' hraw
    have hs : h.withStrings.req.headers ++ [(lower f.1, trimSpace f.2)] =
        h'.req.withStrings.headers := by
      rw [← internOrLowerHeader_eq, withStrings, hraw, map_append]
      rfl
    rw [applyField_headers, hs]
    obtain ⟨e, ha, -⟩ | ⟨req, fr, ha, -, heq⟩ := map_eq_map applyField_frame
    · rw [ha]
      rfl
    · rw [ha]
      simp [Except.map, Head.withStrings, withStrings, (Prod.mk.inj heq).2]
  set h₁ : Head :=
    { h with req := { h.req with rawHeaders := h.req.rawHeaders ++ [(f.1, trimSpace f.2)] } }
  unfold appendHeader
  simp only [appendRaw_eq, appendString_eq]
  cases d with
  | true => exact hap h₁ rfl
  | false =>
    obtain ⟨hs, hraw⟩ := hd h₁ h.withStrings.req.headers
    refine Eq.trans ?_ (hap _ hraw)
    exact congrArg (fun X : Head => (applyField
      { X.req with headers := X.req.headers ++ [(lower f.1, trimSpace f.2)] }
      f.1 (trimSpace f.2)).map fun req => { X with req := req }) hs

theorem readField_withStrings (h : Head) (line : Bytes) :
    readField ⟨false, d⟩ h.withStrings line =
      (readField ⟨true, d⟩ h line).map Head.withStrings := by
  unfold readField
  change (if h.req.rawHeaders.length ≥ maxHeaderCount then _ else _) = _
  split_ifs with hc
  · rfl
  split
  · rfl
  · dsimp only
    split_ifs
    · rfl
    · rfl
    · exact appendHeader_withStrings d h (_, _)

theorem parseHeaders_withStrings (fuel total : Nat) (h : Head) (buf : Bytes) :
    parseHeaders ⟨false, d⟩ fuel total h.withStrings buf =
      (parseHeaders ⟨true, d⟩ fuel total h buf).map
        (Option.map fun p => (p.1.withStrings, p.2)) := by
  induction fuel generalizing total h buf with
  | zero => rfl
  | succ fuel ih =>
    rw [parseHeaders, parseHeaders]
    split
    · rfl
    · dsimp only
      split_ifs
      · rfl
      · rfl
      · rw [readField_withStrings]
        cases readField ⟨true, d⟩ h _ with
        | error e => rfl
        | ok h => exact ih _ h _

/-- Both modes give the same, up to the strings that one of them keeps. -/
theorem modes_agree (buf : Bytes) :
    parseRequest ⟨false, d⟩ buf = (parseRequest ⟨true, d⟩ buf).withStrings ∧
      ∀ raw, internOrLowerHeader raw = lower raw := by
  refine ⟨?_, internOrLowerHeader_eq⟩
  by_cases hne : buf = []
  · rw [hne]
    rfl
  rw [parseRequest_eq hne, parseRequest_eq hne]
  rcases hl : parseRequestLine buf with e | (_ | ⟨req, rest⟩)
  · rfl
  · rfl
  · obtain ⟨lead, line, -, -, hr, -⟩ := parseRequestLine_iff.mp hl
    obtain ⟨method, path, version, -, rfl⟩ := readRequestLine_iff.mp hr
    set req : Request := { method := method, path := path, version := version }
    have hh := parseHeaders_withStrings d rest.length 0 (startHead req) rest
    rw [show (startHead req).withStrings = startHead req from rfl] at hh
    dsimp only [readBehind]
    rw [hh]
    rcases parseHeaders ⟨true, d⟩ rest.length 0 (startHead req) rest with e | (_ | ⟨h, behind⟩)
    · rfl
    · rfl
    · have hf : finishHead h.withStrings = (finishHead h).map withStrings := by
        simp only [finishHead, apply_ite (Except.map withStrings)]
        rfl
      dsimp only [Except.map, Option.map]
      rw [hf]
      cases finishHead h <;> rfl

end Celeris.H1
