import Celeris.Conn.Wire

/-!
# Fast paths of whole responses

The lines of a head on the wire, against those that the general loop of
`WriteResponse` writes: the caller's fields in their order, the length that is
missing, and the line that ends the connection.

The fast paths take two fields of which the second is a length for a content type
and a length. They look at the value of the first field and not at its name, so any
other field with one of the five values that have a prepared line is sent as a
content type. Nothing else goes wrong on them. The head of a file response takes
no fast path; it differs from the general loop only where it announces an empty body
that the general loop leaves out.
-/

namespace Celeris.Conn

open H1 Client List HeaderField

def HeaderField.pair (h : HeaderField) : Bytes × Bytes := (h.name, h.value)

/-- The guard of the fast paths lets a field through that is no content type. -/
def mistaken : List HeaderField → Bool
  | [h₀, h₁] =>
    h₁.name = ascii "content-length" && hasPreparedLine h₀.value && h₀.name ≠ ascii "content-type"
  | _ => false

/-- The fields of a whole response that come from the caller. -/
def sentFields : List HeaderField → List (Bytes × Bytes)
  | [h₀, h₁] =>
    if mistaken [h₀, h₁] then [(ascii "content-type", h₀.value), h₁.pair]
    else [h₀.pair, h₁.pair]
  | headers => headers.map pair

/-- The length that the general loop adds. -/
def addedLength (status : Nat) (headers : List HeaderField) (length : Nat) : List (Bytes × Bytes) :=
  if !headers.any (fun h => h.name = ascii "content-length") &&
      (0 < length || mustFrameEmptyBody status) then
    [(ascii "content-length", appendInt 10 length)]
  else []

/-- The field that ends the connection. -/
def closeField (a : Adapter) (status : Nat) : List (Bytes × Bytes) :=
  if closing a status then [(ascii "connection", ascii "close")] else []

/-! ## The bytes of a head -/

theorem preparedLine_eq {value : Bytes} :
    ascii "content-type: " ++ value ++ crlf = headerLine (ascii "content-type") value := by
  simp [headerLine, ascii]

theorem generalLine_eq (h : HeaderField) : generalLine h = headerLine h.name h.value := by
  unfold generalLine
  split_ifs with hp
  · rw [Bool.and_eq_true, decide_eq_true_eq] at hp
    rw [hp.1, preparedLine_eq]
  · rfl

variable {headers : List HeaderField} {status : Nat}

theorem flatMap_generalLine : headers.flatMap generalLine = writeLines (headers.map pair) := by
  rw [writeLines, flatMap_map, show generalLine = fun h => headerLine h.name h.value from
    funext generalLine_eq]
  rfl

variable {fs : List (Bytes × Bytes)} {b : Prop} {body rest : Bytes} {a : Adapter}

theorem writeLines_append (gs : List (Bytes × Bytes)) :
    writeLines (fs ++ gs) = writeLines fs ++ writeLines gs := flatMap_append

theorem writeLines_cons (f : Bytes × Bytes) :
    writeLines (f :: fs) = headerLine f.1 f.2 ++ writeLines fs := flatMap_cons

theorem writeLines_length [Decidable b] {length : Nat} :
    writeLines (if b then [(ascii "content-length", appendInt 10 length)] else []) =
      if b then ascii "content-length: " ++ appendInt 10 length ++ crlf else [] := by
  split_ifs
  · simp [writeLines, headerLine, ascii]
  · rfl

/-- The lines of a whole response are those of its fields. -/
theorem writeFieldLines_eq : writeFieldLines status headers body =
      writeLines (sentFields headers ++ addedLength status headers body.length) := by
  have hg : (headers.flatMap generalLine ++ if !headers.any
    (fun h => h.name = ascii "content-length") &&
            (0 < body.length || mustFrameEmptyBody status) then
          ascii "content-length: " ++ appendInt 10 body.length ++ crlf
        else []) =
      writeLines (headers.map pair ++ addedLength status headers body.length) := by
    rw [writeLines_append, ← flatMap_generalLine, addedLength, writeLines_length]
  match headers with
  | [] | [_] | _ :: _ :: _ :: _ => exact hg
  | [h₀, h₁] =>
    unfold writeFieldLines
    simp only
    by_cases hl : h₁.name = ascii "content-length"
    · have ha : addedLength status [h₀, h₁] body.length = [] := by
        simp [addedLength, hl]
      have hf : (if hasPreparedLine h₀.value then ascii "content-type: " ++ h₀.value ++ crlf
            else headerLine h₀.name h₀.value) ++ writeLines [h₁.pair] =
          writeLines (sentFields [h₀, h₁]) := by
        rw [sentFields]
        by_cases hm : mistaken [h₀, h₁] = true
        · have hp : hasPreparedLine h₀.value = true := by
            simp only [mistaken, Bool.and_eq_true] at hm
            exact hm.1.2
          rw [if_pos hm, if_pos hp, preparedLine_eq, writeLines_cons (_, h₀.value)]
        · rw [if_neg hm, writeLines_cons h₀.pair]
          split_ifs with hp
          · -- A prepared line that is not mistaken stands for a content type.
            have hn : h₀.name = ascii "content-type" := by
              simpa [mistaken, hl, hp] using hm
            rw [preparedLine_eq, ← hn]
            rfl
          · rfl
      rw [if_pos hl, ha, append_nil, ← hf]
      simp [writeLines, headerLine, pair, hl, ascii]
    · have hs : sentFields [h₀, h₁] = [h₀, h₁].map pair := by
        simp [sentFields, mistaken, hl]
      rw [if_neg hl, hs]
      exact hg

theorem endHead_eq : endHead a status = writeLines (closeField a status) ++ crlf := by
  unfold endHead closeField
  split_ifs <;> rfl

/-- A whole response as a head and what follows it. -/
theorem writeResponse_eq : writeResponse a status headers body = writeMessage status
        ((ascii "date", a.date) :: (sentFields (responseHeaders a status headers) ++
            addedLength status (responseHeaders a status headers) body.length ++
              closeField a status))
        (if 0 < body.length ∧ !a.isHEAD then body else []) := by
  rw [writeResponse, writeFieldLines_eq, endHead_eq, writeMessage, writeLines_cons,
    writeLines_append (closeField a status)]
  simp [appendStatusLine, statusLine, appendCachedDate]

variable {a : Adapter} {status length : Nat} {headers : List HeaderField}
  {fs : List (Bytes × Bytes)} {f : Bytes × Bytes}

/-- The head of a file response. -/
theorem appendFileResponseHead_eq {bodyLen : Nat} :
    appendFileResponseHead a status headers bodyLen =
      writeMessage status ((ascii "date", a.date) :: ((responseHeaders a status headers).map pair ++
            (if !(responseHeaders a status headers).any fun h => h.name =
              ascii "content-length" then
              [(ascii "content-length", appendInt 10 bodyLen)]
            else []) ++
            closeField a status)) [] := by
  rw [appendFileResponseHead, flatMap_generalLine, endHead_eq, writeMessage, writeLines_cons,
    writeLines_append (closeField a status), writeLines_append, writeLines_length]
  simp [appendStatusLine, statusLine, appendCachedDate]

/-! ## The lines on the wire -/

/-- The lines up to the empty line. -/
def readLines : Nat → Bytes → Option (List Bytes)
  | 0, _ => none
  | fuel + 1, b =>
    match splitLine b with
    | none => none
    | some ([], _) => some []
    | some (line, rest) => (readLines fuel rest).map (line :: ·)

/-- The lines of a head, behind the status line. -/
def headLines (b : Bytes) : Option (List Bytes) :=
  (splitLine b).bind fun p => readLines (p.2.length + 1) p.2

/-- The fields of a head as the general loop writes them, for a body of a length. -/
def generalFields (a : Adapter) (status : Nat) (headers : List HeaderField) (length : Nat) :
    List (Bytes × Bytes) :=
  (ascii "date", a.date) ::
    ((responseHeaders a status headers).map pair ++
      addedLength status (responseHeaders a status headers) length ++ closeField a status)

/-- The lines that were written are read. -/
theorem readLines_writeLines (hfs : ∀ f ∈ fs, cr ∉ fieldText f) {fuel : Nat}
    (hf : fs.length < fuel) :
    readLines fuel (writeLines fs ++ (crlf ++ rest)) = some (fs.map fieldText) := by
  induction fuel generalizing fs with
  | zero => exact absurd hf (Nat.not_lt_zero _)
  | succ fuel ih =>
    cases fs with
    | nil =>
      rw [readLines, splitLine_writeLines_nil]
      rfl
    | cons f fs =>
      have hr : readLines fuel _ = _ :=
        ih (fun f h => hfs f (mem_cons_of_mem _ h)) (Nat.lt_of_succ_lt_succ hf)
      obtain ⟨b, line, hl, hs⟩ := splitLine_writeLines (hfs f mem_cons_self)
      rw [readLines, hs, map_cons, hl]
      simp [hr]

/-- The lines of a head that was written. -/
theorem headLines_writeMessage (hfs : ∀ f ∈ fs, cr ∉ fieldText f) :
    headLines (writeMessage status fs rest) = some (fs.map fieldText) := by
  rw [headLines, splitLine_writeMessage, Option.bind_some]
  exact readLines_writeLines hfs length_lt_writeLines

/-! ### No line holds a CR -/

theorem cr_not_mem_fieldText (hn : cr ∉ f.1) (hv : cr ∉ f.2) : cr ∉ fieldText f := by
  simp only [fieldText, mem_append, not_or]
  exact ⟨⟨hn, by decide⟩, hv⟩

theorem cr_not_mem_of_stripped {b : Bytes} (h : (b.all fun c => !isStripped c) = true) : cr ∉ b :=
  fun hm => absurd (all_eq_true.mp h cr hm) (by decide)

theorem HeaderField.cr_not_mem (h : HeaderField) : cr ∉ fieldText h.pair :=
  cr_not_mem_fieldText (cr_not_mem_of_stripped h.nameStripped)
    (cr_not_mem_of_stripped h.valueStripped)

theorem cr_not_mem_date : cr ∉ fieldText (ascii "date", a.date) :=
  cr_not_mem_fieldText (show cr ∉ ascii "date" by decide) (not_mem_value a.isDate (by decide))

theorem cr_not_mem_length : cr ∉ fieldText (ascii "content-length", appendInt 10 length) :=
  cr_not_mem_fieldText (show cr ∉ ascii "content-length" by decide) (not_mem_appendInt (by decide)
    (show ∀ d < 10, decDigit (digitByte d) = some d by decide) (by decide))

theorem cr_not_mem_pair (hf : f ∈ headers.map pair) : cr ∉ fieldText f := by
  obtain ⟨h, -, rfl⟩ := mem_map.mp hf
  exact h.cr_not_mem

/-- A field is sent as it is, or for a content type. -/
theorem mem_sentFields (hf : f ∈ sentFields headers) :
    ∃ h ∈ headers, f = h.pair ∨ f = (ascii "content-type", h.value) := by
  match headers with
  | [] | [_] | _ :: _ :: _ :: _ =>
    obtain ⟨h, hh, rfl⟩ := mem_map.mp hf
    exact ⟨h, hh, .inl rfl⟩
  | [h₀, h₁] =>
    rw [sentFields] at hf
    split_ifs at hf
    all_goals
      rw [mem_cons, mem_singleton] at hf
      rcases hf with rfl | rfl
    · exact ⟨h₀, by simp, .inr rfl⟩
    · exact ⟨h₁, by simp, .inl rfl⟩
    · exact ⟨h₀, by simp, .inl rfl⟩
    · exact ⟨h₁, by simp, .inl rfl⟩

theorem cr_not_mem_sentFields (hf : f ∈ sentFields headers) : cr ∉ fieldText f := by
  obtain ⟨h, -, rfl | rfl⟩ := mem_sentFields hf
  · exact h.cr_not_mem
  · exact cr_not_mem_fieldText (show cr ∉ ascii "content-type" by decide)
      (cr_not_mem_of_stripped h.valueStripped)

/-- No line of a head holds a CR, if none of the caller's part does. -/
theorem cr_not_mem_head {gs : List (Bytes × Bytes)} (hfs : ∀ f ∈ fs, cr ∉ fieldText f)
    (hgs : ∀ f ∈ gs, f = (ascii "content-length", appendInt 10 length)) :
    ∀ f ∈ (ascii "date", a.date) :: (fs ++ gs ++ closeField a status), cr ∉ fieldText f := by
  intro f hf
  rw [mem_cons, mem_append, mem_append] at hf
  rcases hf with rfl | (hf | hf) | hf
  · exact cr_not_mem_date
  · exact hfs f hf
  · rw [hgs f hf]
    exact cr_not_mem_length
  · unfold closeField at hf
    split_ifs at hf
    · rw [mem_singleton] at hf
      subst hf
      decide
    · cases hf

theorem eq_of_mem_length [Decidable b]
    (hf : f ∈ if b then [(ascii "content-length", appendInt 10 length)] else []) :
    f = (ascii "content-length", appendInt 10 length) := by
  split_ifs at hf
  · exact mem_singleton.mp hf
  · cases hf

theorem addedLength_eq (hf : f ∈ addedLength status headers length) :
    f = (ascii "content-length", appendInt 10 length) :=
  eq_of_mem_length hf

/-! ## Against the general loop -/

/-- The fast paths send the caller's fields unless they mistake one. -/
theorem map_sentFields_iff :
    (sentFields headers).map fieldText = (headers.map pair).map fieldText ↔
      mistaken headers = false := by
  match headers with
  | [] | [_] | _ :: _ :: _ :: _ => exact ⟨fun _ => rfl, fun _ => rfl⟩
  | [h₀, h₁] =>
    rw [sentFields]
    cases hm : mistaken [h₀, h₁] with
    | false => exact ⟨fun _ => rfl, fun _ => rfl⟩
    | true =>
      have hn : h₀.name ≠ ascii "content-type" := by
        simp only [mistaken, Bool.and_eq_true] at hm
        simpa using hm.2
      refine ⟨fun heq => absurd ?_ hn, fun h => by cases h⟩
      have hf : fieldText (ascii "content-type", h₀.value) = fieldText h₀.pair :=
        (cons.inj heq).1
      exact (append_cancel_right (append_cancel_right hf)).symm

/-- The lines on the wire are those of the general loop, unless a fast path mistakes a
field for a content type; and the head of a file response has them too, unless it
announces an empty body that needs no framing. -/
theorem headLines_general_iff (a : Adapter) (status : Nat) (headers : List HeaderField)
    (body : Bytes) (bodyLen : Nat) : (headLines (writeResponse a status headers body) =
        some ((generalFields a status headers body.length).map fieldText) ↔
      mistaken (responseHeaders a status headers) = false) ∧
    (headLines (appendFileResponseHead a status headers bodyLen) =
        some ((generalFields a status headers bodyLen).map fieldText) ↔
      0 < bodyLen ∨ mustFrameEmptyBody status = true ∨
        ((responseHeaders a status headers).any fun h => h.name = ascii "content-length") =
          true) := by
  refine ⟨?_, ?_⟩
  · rw [writeResponse_eq, headLines_writeMessage
      (cr_not_mem_head (fun f => cr_not_mem_sentFields) fun f => addedLength_eq),
      ← map_sentFields_iff, generalFields]
    simp
  · rw [appendFileResponseHead_eq, headLines_writeMessage
      (cr_not_mem_head (fun f => cr_not_mem_pair) fun f => eq_of_mem_length),
      generalFields, addedLength]
    generalize responseHeaders a status headers = sent
    cases sent.any fun h => h.name = ascii "content-length" with
    | true => simp
    | false =>
      by_cases hp : 0 < bodyLen
      · simp [hp]
      · cases mustFrameEmptyBody status with
        | false => simp [hp]
        | true => simp

def getAdapter : Adapter where
  date := ascii "Mon, 02 Jan 2006 15:04:05 UTC"
  isDate := by decide
  keepAlive := true
  shutdown := false
  isHEAD := false

/-- A handler that sets one header and returns without an answer. -/
def kindHeader : HeaderField := ⟨ascii "x-kind", ascii "text/plain", by decide, by decide⟩

/-- The answer that is given for the handler says `content-type`, which nobody set, in
the place of `x-kind`. -/
theorem emptyAnswer_not_general : emptyAnswerHeaders [kindHeader] false =
        [kindHeader, ⟨ascii "content-length", ascii "0", by decide, by decide⟩] ∧
      headLines (writeResponse getAdapter 200 (emptyAnswerHeaders [kindHeader] false) []) ≠
        some ((generalFields getAdapter 200 (emptyAnswerHeaders [kindHeader] false) 0).map
          fieldText) ∧
      headLines (writeResponse getAdapter 200 (emptyAnswerHeaders [kindHeader] false) []) =
        some [ascii "date: Mon, 02 Jan 2006 15:04:05 UTC", ascii "content-type: text/plain",
          ascii "content-length: 0"] := by
  refine ⟨rfl, ?_, ?_⟩
  · decide +kernel
  · decide +kernel

end Celeris.Conn
