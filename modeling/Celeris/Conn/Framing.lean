import Celeris.Conn.FastPath

/-!
# Response framing

The bytes of a response, read by a client that follows RFC 9112, section 6.3.

Whole and streamed responses are framed right, with four exceptions. A whole
response with a status that has no content is sent with its body all the same,
where a streamed one drops it. A streamed response keeps a `Content-Length` of the
caller beside its own `Transfer-Encoding`. A `Transfer-Encoding` of the caller
stands beside the length that a whole response adds, and behind `chunked` in a
streamed one. And a 2xx answer to CONNECT, which starts a tunnel, is sent with its
content.
-/

namespace Celeris.Conn

open H1 Client List HeaderField

/-- An adapter that answers a request with a method on a connection that stays
open. -/
structure Adapter.Answers (a : Adapter) (method : Bytes) : Prop where
  keepAlive : a.keepAlive = true
  shutdown : a.shutdown = false
  isHEAD : a.isHEAD = (method = ascii "HEAD" : Bool)

/-- The client reads exactly one response, with a status and a content, and no
`Content-Length` beside a `Transfer-Encoding`. -/
def framedAs (method : Bytes) (status : Nat) (content bytes : Bytes) : Bool :=
  (Client.read method bytes).any fun r =>
    r.1.status = status && r.1.content = content && r.2.isEmpty &&
      !(carries (ascii "content-length") r.1.fields && carries (ascii "transfer-encoding")
        r.1.fields)

/-- The content that a response with a body has: none to HEAD, and none with a status
that has no content. -/
def expectedContent (method : Bytes) (status : Nat) (body : Bytes) : Bytes :=
  if method = ascii "HEAD" ∨ bodiless status then [] else body

/-- Whether a request asks for a tunnel and gets it. -/
def tunnels (method : Bytes) (status : Nat) : Bool :=
  method = ascii "CONNECT" && 200 ≤ status && status < 300

/-! ## What is sent -/

def HeaderField.named (name : Bytes) (h : HeaderField) : Bool := lower h.name = name

variable {a : Adapter} {method body : Bytes} {s : Stream} {status : Nat}
  {headers : List HeaderField} {f : Bytes × Bytes} {fields : List (Bytes × Bytes)}

/-- On a connection that stays open, the caller's fields are sent and none is added
behind the length. -/
theorem Adapter.Answers.writeResponse_eq (ha : a.Answers method) :
    writeResponse a status headers body =
      writeMessage status ((ascii "date", a.date) ::
        (sentFields headers ++ addedLength status headers body.length))
        (if method = ascii "HEAD" then [] else body) := by
  have hc : closing a status = false := by simp [closing, ha.keepAlive, ha.shutdown]
  have hb : (if 0 < body.length ∧ !a.isHEAD then body else []) =
      if method = ascii "HEAD" then [] else body := by
    rw [ha.isHEAD]
    cases body <;> by_cases hm : method = ascii "HEAD" <;> simp [hm]
  rw [Conn.writeResponse_eq, hb, closeField, responseHeaders, hc]
  simp

/-! ### The state of a streamed response -/

variable {data : Bytes} {fs : List (Bytes × Bytes)} {n : Nat}

theorem write_of_noBody (hb : s.streamBegun = true)
    (hn : s.streamNoBody = true) : write a s data = s := by
  simp [write, headResponse, hb, hn]

theorem close_of_noBody (hb : s.streamBegun = true) (hn : s.streamNoBody = true) :
    close a s = s := by
  simp [close, headResponse, hb, hn]

variable {writes : List Bytes} {rest name : Bytes}

theorem foldl_write_of_noBody (hb : s.streamBegun = true)
    (hn : s.streamNoBody = true) : writes.foldl (write a) s = s := by
  induction writes with
  | nil => rfl
  | cons w writes ih => rw [foldl_cons, write_of_noBody hb hn, ih]

def chunksOf (writes : List Bytes) : List Bytes := writes.flatMap fun w => splitWrite w.length w

section

variable (hb : s.streamBegun = true) (hn : s.streamNoBody = false) (ho : s.streamOpen = true)

include hb hn ho

theorem foldl_write_of_open :
    writes.foldl (write a) s = { s with out := s.out ++ (chunksOf writes).flatMap frameChunk } := by
  induction writes generalizing s with
  | nil => simp [chunksOf]
  | cons w writes ih =>
    have hw : write a s w =
        { s with out := s.out ++ (splitWrite w.length w).flatMap frameChunk } := by
      simp [write, headResponse, hb, hn, ho]
    rw [foldl_cons, hw]
    refine (ih ?_ ?_ ?_).trans ?_
    · exact hb
    · exact hn
    · exact ho
    · simp [chunksOf]

theorem close_of_open : (close a s).out = s.out ++ ascii "0\r\n\r\n" := by
  simp [close, headResponse, hb, hn, ho]

end

/-- The head of a streamed response. -/
theorem writeHeader_out (ha : a.Answers method) :
    (writeHeader a status headers {}).out ++ rest = writeMessage status ((ascii "date", a.date) ::
          ((if bodiless status then [] else [(ascii "transfer-encoding", ascii "chunked")]) ++
            headers.map pair)) rest := by
  have hc : closing a status = false := by simp [closing, ha.keepAlive, ha.shutdown]
  have hn : (status < 200 ∨ status = 204 ∨ status = 304) ↔ bodiless status = true := by
    simp [bodiless, or_assoc]
  have hl : headers.flatMap (fun h => headerLine h.name h.value) =
      writeLines (headers.map pair) := by
    rw [writeLines, flatMap_map]
    rfl
  unfold writeHeader responseHeaders endHead
  simp only [hc, Bool.false_and, Bool.false_eq_true, if_false, nil_append]
  rw [hl, writeMessage, writeLines_cons, writeLines_append]
  simp only [hn]
  by_cases hb : bodiless status = true
  · simp [hb, appendStatusLine, statusLine, appendCachedDate, writeLines]
  · simp [hb, appendStatusLine, statusLine, appendCachedDate, writeLines, headerLine, ascii, crlf,
      cr, lf]

/-- A streamed response as a head and what follows it. -/
theorem streamResponse_eq (ha : a.Answers method) :
    streamResponse a status headers writes = writeMessage status
        ((ascii "date", a.date) :: ((if bodiless status then
            [] else [(ascii "transfer-encoding", ascii "chunked")]) ++ headers.map pair))
        (if method = ascii "HEAD" ∨ bodiless status then []
          else (chunksOf writes).flatMap frameChunk ++ ascii "0\r\n\r\n") := by
  have hno : (writeHeader a status headers {}).streamNoBody =
      decide (method = ascii "HEAD" ∨ bodiless status = true) := by
    simp [writeHeader, ha.isHEAD, bodiless, or_assoc]
  have ho : (writeHeader a status headers {}).streamOpen =
    !(writeHeader a status headers {}).streamNoBody := rfl
  rw [← writeHeader_out ha, streamResponse]
  by_cases hn : method = ascii "HEAD" ∨ bodiless status = true
  · rw [decide_eq_true hn] at hno
    rw [if_pos hn, foldl_write_of_noBody rfl hno, close_of_noBody rfl hno, append_nil]
  · rw [decide_eq_false hn] at hno
    rw [hno] at ho
    rw [if_neg hn, foldl_write_of_open rfl hno ho, ← append_assoc]
    refine close_of_open ?_ ?_ ?_
    · rfl
    · exact hno
    · exact ho

/-! ## What the client makes of it -/

theorem carries_seen (a : Adapter) (hn : lower (ascii "date") ≠ name) :
    carries name (((ascii "date", a.date) :: fs).map seen) = fs.any fun f => lower f.1 = name := by
  rw [carries, any_map, any_cons]
  exact (congrArg (· || _) (decide_eq_false hn)).trans (Bool.false_or _)

/-- What the client's rules ask of a head and what follows it. -/
theorem framedAs_writeMessage (h : 100 ≤ status) (h' : status ≤ 999) (hfs : ∀ f ∈ fs, IsField f)
    {content : Bytes} :
    framedAs method status content (writeMessage status ((ascii "date", a.date) :: fs) rest) =
      (decide (readContent (contentEnds method status (((ascii "date", a.date) :: fs).map seen))
          rest = some (content, [])) && !(fs.any (fun f => lower f.1 = ascii "content-length") &&
          fs.any fun f => lower f.1 = ascii "transfer-encoding")) := by
  unfold framedAs
  rw [read_writeMessage h h' (forall_mem_cons.mpr
    ⟨⟨show isValidHeaderName (ascii "date") = true by decide, a.isDate⟩, hfs⟩),
    ← carries_seen a (by decide), ← carries_seen a (by decide)]
  cases readContent (contentEnds method status (((ascii "date", a.date) :: fs).map seen)) rest with
  | none => rfl
  | some r =>
    obtain ⟨data, left⟩ := r
    cases left <;> simp

theorem any_pair (headers : List HeaderField) : (headers.map pair).any (fun f => lower f.1 = name) =
      headers.any (named name) := any_map

/-- A fast path sends a length if there is one. -/
theorem any_sentFields : (sentFields headers).any (fun f => lower f.1 = ascii "content-length") =
      headers.any (named (ascii "content-length")) := by
  match headers with
  | [] | [_] | _ :: _ :: _ :: _ => exact any_pair _
  | [h₀, h₁] =>
    rw [sentFields]
    split_ifs with hm
    · have hlo : lower (ascii "content-length") = ascii "content-length" := by decide
      have hl : h₁.name = ascii "content-length" := by
        simp only [mistaken, Bool.and_eq_true] at hm
        simpa using hm.1.1
      simp [pair, named, hl, hlo]
    · exact any_pair [h₀, h₁]

theorem mustFrameEmptyBody_eq (h : 100 ≤ status) :
    mustFrameEmptyBody status = !bodiless status := by
  unfold mustFrameEmptyBody bodiless
  by_cases hi : status < 200
  · simp [hi, h]
  · rw [if_neg (fun hs => hi hs.2)]
    by_cases h4 : status = 204
    · simp [h4]
    · by_cases h3 : status = 304
      · simp [h3]
      · simp [h3, h4, hi]

def ValidFields (headers : List HeaderField) : Prop := ∀ h ∈ headers, IsField h.pair

theorem ValidFields.sentFields (hv : ValidFields headers) (hf : f ∈ sentFields headers) :
    IsField f := by
  obtain ⟨h, hh, rfl | rfl⟩ := mem_sentFields hf
  · exact hv h hh
  · exact ⟨show isValidHeaderName (ascii "content-type") = true by decide, (hv h hh).2⟩

theorem isValidHeaderValue_appendInt : isValidHeaderValue (appendInt 10 n) = true := by
  obtain ⟨-, hdi⟩ := readNumber_some (readDecimal_appendInt n)
  refine all_eq_true.mpr fun c hc => ?_
  have hd : isDigit c = true := by
    by_contra hno
    exact hdi c hc (if_neg hno)
  rw [isDigit, Bool.and_eq_true, decide_eq_true_eq, decide_eq_true_eq, UInt8.le_iff_toNat_le,
    UInt8.le_iff_toNat_le] at hd
  have hr : 0x21 ≤ c ∧ c ≤ 0x7e := by
    exact ⟨le_trans (by decide) hd.1, le_trans hd.2 (by decide)⟩
  simp [isFieldVChar, hr]

theorem addedLength_isField {length : Nat} (hf : f ∈ addedLength status headers length) :
    IsField f := by
  rw [addedLength_eq hf]
  exact ⟨show isValidHeaderName (ascii "content-length") = true by decide,
    isValidHeaderValue_appendInt⟩

/-- A whole response carries a length unless its status has no content and it has no
body. -/
def sendsLength (status : Nat) (headers : List HeaderField) (body : Bytes) : Bool :=
  headers.any (named (ascii "content-length")) || 0 < body.length ||
    mustFrameEmptyBody status

theorem any_length_sent : (sentFields headers ++ addedLength status headers body.length).any
        (fun f => lower f.1 = ascii "content-length") = sendsLength status headers body := by
  have hl : lower (ascii "content-length") = ascii "content-length" := by decide
  rw [any_append, any_sentFields, addedLength, sendsLength, Bool.or_assoc]
  cases he : headers.any (fun h => h.name = ascii "content-length") with
  | false =>
    cases decide (0 < body.length) || mustFrameEmptyBody status with
    | false => simp
    | true => simp [hl]
  | true =>
    have hn : headers.any (named (ascii "content-length")) = true := by
      obtain ⟨h, hh, hname⟩ := any_eq_true.mp he
      rw [decide_eq_true_eq] at hname
      exact any_eq_true.mpr ⟨h, hh, by simp [named, hname, hl]⟩
    simp [hn]

/-- Whether a whole response names a coding. -/
def sendsCoding (headers : List HeaderField) : Bool :=
  (sentFields headers).any fun f => lower f.1 = ascii "transfer-encoding"

theorem any_coding_sent : (sentFields headers ++ addedLength status headers body.length).any
        (fun f => lower f.1 = ascii "transfer-encoding") = sendsCoding headers := by
  have ha : (addedLength status headers body.length).any
      (fun f => lower f.1 = ascii "transfer-encoding") = false := by
    unfold addedLength
    split_ifs
    · rw [any_cons, any_nil, Bool.or_false]
      exact decide_eq_false (show lower (ascii "content-length") ≠
        ascii "transfer-encoding" by decide)
    · rfl
  rw [any_append, ha, Bool.or_false, sendsCoding]

theorem elements_of_not_carries (h : carries name fields = false) : elements name fields = [] := by
  have hn : (fields.filter fun f => f.1 = name) = [] := by
    rw [filter_eq_nil_iff]
    intro f hf
    simpa using any_eq_false.mp h f hf
  rw [elements, hn]
  rfl

/-- A content that ends at once is empty. -/
theorem readContent_behind_zero : readContent (.behind 0) rest = some ([], rest) := by
  simp [readContent]

theorem contentEnds_of_noContent (h : method = ascii "HEAD" ∨ bodiless status = true) :
    contentEnds method status fields = .behind 0 := if_pos h

theorem tunnels_iff : tunnels method status = true ↔ method = ascii "CONNECT" ∧ 200 ≤ status ∧
    status < 300 := by
  simp [tunnels, and_assoc]

theorem contentEnds_of_tunnels
    (h : ¬ (method = ascii "HEAD" ∨ bodiless status = true)) (ht : tunnels method status = true) :
    contentEnds method status fields = .behind 0 := by
  rw [contentEnds, if_neg h, if_pos (tunnels_iff.mp ht)]

/-! ## Whole responses -/

/-- Every length that the caller gives is that of the body. -/
def AccurateLength (headers : List HeaderField) (body : Bytes) : Prop :=
  ∀ h ∈ headers, h.named (ascii "content-length") →
    readNumber 10 decDigit (trimSpace h.value) = some body.length

/-- When a whole response is framed right: it does not name a coding beside a
length, and it has no body where the client expects none. -/
def framesWhole (method : Bytes) (status : Nat) (headers : List HeaderField) (body : Bytes) :
    Bool :=
  !(sendsLength status headers body && sendsCoding headers) &&
    (body.isEmpty || method = ascii "HEAD" || (!bodiless status && !tunnels method status))

theorem accurateLength_sent (hl : AccurateLength headers body)
    (hf : f ∈ sentFields headers ++ addedLength status headers body.length)
    (hname : lower f.1 = ascii "content-length") :
    readNumber 10 decDigit (trimSpace f.2) = some body.length := by
  rcases mem_append.mp hf with hf | hf
  · obtain ⟨h, hh, rfl | rfl⟩ := mem_sentFields hf
    · exact hl h hh (decide_eq_true hname)
    · exact absurd hname (show ¬ lower (ascii "content-type") = ascii "content-length" by decide)
  · have hn := readDecimal_appendInt body.length
    rw [addedLength_eq hf, trimSpace_number hn (by decide) (by decide), hn]

/-- The client takes the length of the body from the fields of a whole response. -/
theorem contentLength_sent (a : Adapter) (status : Nat) (hl : AccurateLength headers body)
    (hfi : fields = ((ascii "date", a.date) ::
      (sentFields headers ++ addedLength status headers body.length)).map seen) :
        contentLength fields =
      some (if carries (ascii "content-length") fields then some body.length else none) := by
  refine contentLength_eq fun f hf hn => ?_
  rw [hfi] at hf
  obtain ⟨g, hg, rfl⟩ := mem_map.mp hf
  rcases mem_cons.mp hg with rfl | hg
  · exact absurd hn (show lower (ascii "date") ≠ ascii "content-length" by decide)
  · exact accurateLength_sent hl hg hn

theorem framedAs_writeResponse (ha : a.Answers method)
    (h : 100 ≤ status) (h' : status ≤ 999) (hva : ValidFields headers)
    (hl : AccurateLength headers body) :
    framedAs method status (expectedContent method status body)
      (writeResponse a status headers body) =
      framesWhole method status headers body := by
  have hfi : ∀ f ∈ sentFields headers ++ addedLength status headers body.length, IsField f :=
    fun f hf => (mem_append.mp hf).elim hva.sentFields addedLength_isField
  rw [ha.writeResponse_eq, framedAs_writeMessage h h' hfi, any_length_sent, any_coding_sent,
    framesWhole, Bool.and_comm]
  cases hboth : sendsLength status headers body && sendsCoding headers with
  | true => rfl
  | false =>
    unfold expectedContent
    by_cases hh : method = ascii "HEAD"
    · rw [contentEnds_of_noContent (.inl hh), readContent_behind_zero]
      simp [hh]
    · by_cases hb : bodiless status = true
      · rw [contentEnds_of_noContent (.inr hb), readContent_behind_zero]
        cases body <;> simp [hh, hb]
      · by_cases ht : tunnels method status = true
        · rw [contentEnds_of_tunnels (by simp [hh, hb]) ht, readContent_behind_zero]
          cases body <;> simp [hh, hb, ht]
        · -- The length is sent, so no coding is, and the content is as long as it says.
          have hlong : sendsLength status headers body = true := by
            rw [sendsLength, mustFrameEmptyBody_eq h, Bool.not_eq_true _ |>.mp hb]
            simp
          rw [hlong, Bool.true_and, ← any_coding_sent, ← carries_seen a (by decide)] at hboth
          have hv := contentLength_sent a status hl rfl
          rw [carries_seen a (by decide), any_length_sent, hlong, if_pos rfl] at hv
          rw [contentEnds, if_neg (by simp [hh, hb]), if_neg fun htu => ht (tunnels_iff.mpr htu),
            elements_of_not_carries hboth, hv, if_neg hh]
          simp [readContent, hh, hb, ht]

/-! ## Streamed responses -/

/-- When a streamed response is framed right. With content, there is no length of
the caller and no further coding, and the client does not take it for a tunnel;
without, no coding of the caller beside a length. -/
def framesStream (method : Bytes) (status : Nat) (headers : List HeaderField) : Bool :=
  let length := headers.any (named (ascii "content-length"))
  if bodiless status then !(length && headers.any (named (ascii "transfer-encoding")))
  else
    !length && (method = ascii "HEAD" ||
      (!tunnels method status && (elements (ascii "transfer-encoding")
        (headers.map fun h => seen h.pair)).isEmpty))

/-- The chunks of the writes carry what was written. -/
theorem chunksOf_flatten : (chunksOf writes).flatten = writes.flatten := by
  induction writes with
  | nil => rfl
  | cons w writes ih =>
    rw [chunksOf, flatMap_cons, flatten_append, splitWrite_flatten (le_refl _), flatten_cons]
    exact congrArg (w ++ ·) ih

theorem chunksOf_ne_nil (h : data ∈ chunksOf writes) : data ≠ [] := by
  obtain ⟨w, -, hd⟩ := mem_flatMap.mp h
  exact splitWrite_ne_nil hd

/-- Chunks take a byte each. -/
theorem length_le_flatMap (chunks : List Bytes) :
    chunks.length ≤ (chunks.flatMap frameChunk).length := by
  induction chunks with
  | nil => exact le_refl _
  | cons data chunks ih =>
    have hp : 0 < (frameChunk data).length := by simp [frameChunk, crlf]
    rw [flatMap_cons, length_append, length_cons]
    omega

/-- The client reads the chunks of the writes as what was written. -/
theorem readContent_chunksOf :
    readContent .chunked ((chunksOf writes).flatMap frameChunk ++ ascii "0\r\n\r\n") =
      some (writes.flatten, []) := by
  rw [← chunksOf_flatten]
  refine decodeChunked_frameChunks (fun data => chunksOf_ne_nil) ?_
  have hl := length_le_flatMap (chunksOf writes)
  rw [length_append]
  omega

/-- The codings of a streamed response with content: its own before the caller's. -/
theorem contentEnds_streamed (a : Adapter)
    (headers : List HeaderField) (h : ¬ (method = ascii "HEAD" ∨ bodiless status = true))
    (htu : ¬ tunnels method status = true) (rest : Bytes) :
    readContent (contentEnds method status
      (((ascii "date", a.date) :: (ascii "transfer-encoding", ascii "chunked") ::
          headers.map pair).map seen)) rest =
      if elements (ascii "transfer-encoding") (headers.map fun h => seen h.pair) = [] then
        readContent .chunked rest
      else none := by
  have he : elements (ascii "transfer-encoding")
      (((ascii "date", a.date) :: (ascii "transfer-encoding", ascii "chunked") ::
        headers.map pair).map seen) =
      ascii "chunked" :: elements (ascii "transfer-encoding")
        (headers.map fun h => seen h.pair) := by
    have hd : ¬ (seen (ascii "date", a.date)).1 = ascii "transfer-encoding" :=
      show ¬ lower (ascii "date") = ascii "transfer-encoding" by decide
    have hown : (seen (ascii "transfer-encoding", ascii "chunked")).1 =
        ascii "transfer-encoding" := by
      decide
    have hc : ((listElements (seen (ascii "transfer-encoding", ascii "chunked")).2).filter
        fun e => !e.isEmpty) = [ascii "chunked"] := by decide
    rw [map_cons, map_cons, map_map, elements, filter_cons_of_neg (by simpa using hd),
      filter_cons_of_pos (by simpa using hown), flatMap_cons, hc]
    rfl
  have hl : lower (ascii "chunked") = ascii "chunked" := by decide
  rw [contentEnds, if_neg h, if_neg (fun ht => htu (tunnels_iff.mpr ht)), he]
  cases elements (ascii "transfer-encoding") (headers.map fun h => seen h.pair) with
  | nil => simp [hl]
  | cons e es =>
    rw [if_neg (cons_ne_nil _ _), map_cons, map_cons]
    simp only
    split_ifs <;> rfl

theorem framedAs_streamResponse (ha : a.Answers method)
    (h : 100 ≤ status) (h' : status ≤ 999) (hv : ValidFields headers) :
    framedAs method status (expectedContent method status writes.flatten)
        (streamResponse a status headers writes) = framesStream method status headers := by
  have hfi : ∀ f ∈ (if bodiless status then
    [] else [(ascii "transfer-encoding", ascii "chunked")]) ++
      headers.map pair, IsField f := by
    refine forall_mem_append.mpr ⟨?_, forall_mem_map.mpr hv⟩
    split_ifs
    · exact nofun
    · exact forall_mem_singleton.mpr ⟨by decide, by decide⟩
  rw [streamResponse_eq ha, framedAs_writeMessage h h' hfi, any_append, any_append, any_pair,
    any_pair]
  unfold expectedContent framesStream
  have hl : ¬ ascii "transfer-encoding" = ascii "content-length" := by decide
  have hlast : ¬ ascii "0\r\n\r\n" = [] := by decide
  have hc : lower (ascii "transfer-encoding") = ascii "transfer-encoding" := by decide
  by_cases hb : bodiless status = true
  · rw [contentEnds_of_noContent (.inr hb), readContent_behind_zero]
    simp [hb]
  · by_cases hh : method = ascii "HEAD"
    · rw [contentEnds_of_noContent (.inl hh), readContent_behind_zero]
      simp [hb, hh, hl, hc]
    · have hn : ¬ (method = ascii "HEAD" ∨ bodiless status = true) := by simp [hh, hb]
      rw [if_neg hn, if_neg hn, if_neg hb, if_neg hb]
      by_cases ht : tunnels method status = true
      · rw [contentEnds_of_tunnels hn ht, readContent_behind_zero]
        simp [hh, ht, hlast]
      · have hco := contentEnds_streamed a headers hn ht
          ((chunksOf writes).flatMap frameChunk ++ ascii "0\r\n\r\n")
        rw [singleton_append, hco, readContent_chunksOf]
        by_cases hown : elements (ascii "transfer-encoding") (headers.map fun h => seen h.pair) = []
        · simp [hown, hh, ht, hl, hc]
        · simp [hown, hh, ht]

/-- A response is framed right exactly when it stays clear of the four exceptions,
whole or streamed. -/
theorem responses_framed_iff {a : Adapter} {method : Bytes} (ha : a.Answers method) {status : Nat}
    (h : 100 ≤ status) (h' : status ≤ 999) {headers : List HeaderField}
    (hvalid : ValidFields headers) (body : Bytes) (writes : List Bytes) :
    (AccurateLength headers body → (framedAs method status (expectedContent method status body)
          (writeResponse a status headers body) = true ↔
            framesWhole method status headers body = true)) ∧
    (framedAs method status (expectedContent method status writes.flatten)
        (streamResponse a status headers writes) = true ↔
          framesStream method status headers = true) := by
  refine ⟨fun hl => ?_, ?_⟩
  · rw [framedAs_writeResponse ha h h' hvalid hl]
  · rw [framedAs_streamResponse ha h h' hvalid]

/-- An answer of five bytes, whole and in two writes. -/
theorem hello_framed :
    framedAs (ascii "GET") 200 (ascii "hello") (writeResponse getAdapter 200 [] (ascii "hello")) =
        true ∧ framedAs (ascii "GET") 200 (ascii "hello")
        (streamResponse getAdapter 200 [] [ascii "hel", ascii "lo"]) = true := by
  have ha : getAdapter.Answers (ascii "GET") := ⟨rfl, rfl, by decide⟩
  have hf := responses_framed_iff ha (show 100 ≤ 200 by decide) (show 200 ≤ 999 by decide)
    (show ValidFields [] by simp [ValidFields]) (ascii "hello") [ascii "hel", ascii "lo"]
  exact ⟨(hf.1 (by simp [AccurateLength])).mpr (by decide), hf.2.mpr (by decide)⟩

/-- A 204 with a body, which a client does not read, and a streamed response with a
length of the caller beside its coding. -/
theorem noContent_not_framed :
    ¬ framedAs (ascii "GET") 204 [] (writeResponse getAdapter 204 [] (ascii "x")) = true ∧
      ¬ framedAs (ascii "GET") 200 (ascii "hello") (streamResponse getAdapter 200
          [⟨ascii "content-length", ascii "5", by decide, by decide⟩] [ascii "hello"]) = true := by
  decide +kernel

end Celeris.Conn
