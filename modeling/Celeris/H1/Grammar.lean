import Celeris.H1.Fields

/-!
# The grammar of a head

What the parser accepts is what can be written: a request line, possibly behind an empty
line, fields, and an empty line. Of the bytes of such a head the parser asks for more as
long as some are missing. There is one exception: the limit of the request line counts the
CR of a line whose LF has not arrived.
-/

namespace Celeris.H1

open List

variable {o : Options} {line U R : Bytes} {req : Request} {fields : List (Bytes × Bytes)}

/-! ## Lines -/

theorem splitLine_eq {l r : Bytes} (h : splitLine U = some (l, r)) :
    U = l ++ cr :: lf :: r ∧ ∀ r', splitLine (l ++ cr :: lf :: r') = some (l, r') := by
  induction U generalizing l with
  | nil => cases h
  | cons a U ih =>
    cases U with
    | nil => cases h
    | cons b U =>
      rw [splitLine] at h
      split_ifs at h with hab
      · cases h
        refine ⟨by rw [hab.1, hab.2]; rfl, fun r' => ?_⟩
        rw [nil_append, splitLine, if_pos ⟨rfl, rfl⟩]
      · obtain ⟨⟨l', r'⟩, h', he⟩ := Option.map_eq_some_iff.mp h
        obtain ⟨rfl, rfl⟩ := he
        obtain ⟨heq, hswap⟩ := ih h'
        refine ⟨by rw [heq]; rfl, fun r'' => ?_⟩
        have hs := hswap r''
        cases l' with
        | nil =>
          rw [nil_append] at hs
          rw [cons_append, nil_append, splitLine, if_neg, hs]
          · rfl
          · rintro ⟨-, he⟩
            exact absurd he (by decide)
        | cons c l' =>
          simp only [cons_append, cons.injEq] at heq
          rw [cons_append] at hs
          rw [cons_append, cons_append, splitLine, ← heq.1, if_neg hab, heq.1, hs]
          rfl

/-- The request line behind what may come first. -/
theorem parseRequestLine_iff : parseRequestLine U = .ok (some (req, R)) ↔
    ∃ lead line, (lead = [] ∨ lead = [cr, lf]) ∧ U = lead ++ (line ++ cr :: lf :: R) ∧
      readRequestLine line = .ok req ∧ line.length ≤ maxRequestLineSize := by
  have hl : ∀ U, parseLine U = .ok (some (req, R)) ↔ ∃ line, U = line ++ cr :: lf :: R ∧
      readRequestLine line = .ok req ∧ line.length ≤ maxRequestLineSize := by
    intro U
    constructor
    · intro h
      unfold parseLine at h
      split at h
      · split_ifs at h
        cases h
      · rename_i l r hs
        split_ifs at h with hlen
        cases hr : readRequestLine l with rw [hr] at h
        | error e => cases h
        | ok req' =>
          cases h
          exact ⟨l, (splitLine_eq hs).1, hr, not_lt.mp hlen⟩
    · rintro ⟨l, rfl, hr, hlen⟩
      rw [parseLine, splitLine_line (readRequestLine_ok hr).1]
      simp only [if_neg hlen.not_gt, hr]
      rfl
  constructor
  · intro h
    unfold parseRequestLine at h
    split at h
    · rename_i rest hs
      obtain ⟨l, rfl, hr⟩ := (hl rest).mp h
      exact ⟨[cr, lf], l, .inr rfl, (splitLine_eq hs).1, hr⟩
    · obtain ⟨l, rfl, hr⟩ := (hl U).mp h
      exact ⟨[], l, .inl rfl, rfl, hr⟩
  · rintro ⟨lead, l, hlead, rfl, hr, hlen⟩
    rcases hlead with rfl | rfl
    · exact parseRequestLine_line hr hlen
    · rw [parseRequestLine, cons_append, cons_append, nil_append, splitLine_crlf]
      exact (hl _).mpr ⟨l, rfl, hr, hlen⟩

/-! ## Fields -/

variable {h h' : Head} {f : Bytes × Bytes}

/-- A field line that is let through is a field. -/
theorem readField_ok (hr : readField o h line = .ok h') :
    h.req.rawHeaders.length < maxHeaderCount ∧ ∃ f, IsField f ∧ line = fieldLine f ∧
      appendHeader o h f.1 (trimSpace f.2) = .ok h' := by
  unfold readField at hr
  split_ifs at hr with hc
  split at hr
  · cases hr
  rename_i name rest hcut
  dsimp only at hr
  split_ifs at hr with hl hv
  obtain ⟨rfl, -⟩ := cut_eq_some hcut
  rw [isValidHeaderValue_trimSpace, ← Bool.not_and, Bool.not_eq_true', Bool.not_eq_false,
    Bool.and_eq_true] at hv
  exact ⟨not_le.mp hc, (name, rest), hv, rfl, hr⟩

/-- What a field does to the flag of a connection that stays open. -/
def persist (keepAlive : Bool) (f : Bytes × Bytes) : Bool :=
  if lower f.1 = ascii "connection" then
    !asciiContainsFold f.2 (ascii "close") &&
      (asciiContainsFold f.2 (ascii "keep-alive") || keepAlive)
  else keepAlive

theorem applyField_ok {req' : Request} (h : applyField req f.1 f.2 = .ok req') :
    req'.rawHeaders = req.rawHeaders ∧ req'.version = req.version ∧
      req'.keepAlive = persist req.keepAlive f := by
  unfold applyField at h
  unfold persist
  split_ifs at h with h1 h2 h3 h4 h5
  · cases h
    rw [h1, if_neg (by decide)]
    exact ⟨rfl, rfl, rfl⟩
  · rw [h2, if_neg (by decide)]
    unfold setContentLength at h
    grind
  · rw [h3, if_neg (by decide)]
    unfold setTransferEncoding at h
    grind
  · cases h
    rw [if_pos h4, setConnection]
    grind
  · cases h
    rw [h5, if_neg (by decide), setExpect]
    split_ifs <;> exact ⟨rfl, rfl, rfl⟩
  · cases h
    rw [if_neg h4]
    exact ⟨rfl, rfl, rfl⟩

/-- A field that is appended is kept. -/
theorem appendHeader_ok (ha : appendHeader o h f.1 f.2 = .ok h') :
    h'.req.rawHeaders = h.req.rawHeaders ++ [f] ∧ h'.req.version = h.req.version ∧
      h'.req.keepAlive = persist h.req.keepAlive f := by
  obtain ⟨_, _, happ⟩ := appendHeader_eq
  rw [ha] at happ
  exact applyField_ok happ.symm

/-- Fields that are read are fields that were written. -/
theorem parseHeaders_done {fuel total : Nat}
    (hp : parseHeaders o fuel total h U = .ok (some (h', R)))
    (hc : h.req.rawHeaders.length ≤ maxHeaderCount) :
    ∃ fields, U = writeFields fields ++ R ∧ (∀ f ∈ fields, IsField f) ∧
      total + (writeFields fields).length ≤ maxHeaderSize ∧
      h.req.rawHeaders.length + fields.length ≤ maxHeaderCount ∧
        appendFields o h fields = .ok h' := by
  induction fuel generalizing total h U with
  | zero => cases hp
  | succ fuel ih =>
    rw [parseHeaders] at hp
    split at hp
    · cases hp
    rename_i l rest hs
    obtain ⟨rfl, -⟩ := splitLine_eq hs
    dsimp only at hp
    split_ifs at hp with ht he
    · cases hp
      rw [List.isEmpty_iff] at he
      subst he
      exact ⟨[], rfl, forall_mem_nil _, not_lt.mp ht, hc, rfl⟩
    · split at hp
      · cases hp
      rename_i h₁ hr
      obtain ⟨hlt, f, hf, rfl, ha⟩ := readField_ok hr
      have ho := congrArg length (appendHeader_ok (f := (f.1, trimSpace f.2)) ha).1
      rw [length_append, length_singleton] at ho
      obtain ⟨fields, rfl, hfi, ht', hc', hall⟩ := ih hp (by omega)
      refine ⟨f :: fields, by simp [writeFields], forall_mem_cons.mpr ⟨hf, hfi⟩, ?_, ?_, ?_⟩
      · simp only [writeFields, length_append, length_cons]
        omega
      · rw [length_cons]
        omega
      · rw [appendFields, foldlM_cons, ha]
        exact hall

/-! ## Heads -/

/-- A head of the grammar: a request line, possibly behind an empty line, and fields, all within
the limits. -/
structure IsHead (lead line : Bytes) (req : Request) (fields : List (Bytes × Bytes)) : Prop where
  front : lead = [] ∨ lead = [cr, lf]
  starts : ∃ method path version, IsRequestLine line method path version ∧
    req = { method := method, path := path, version := version }
  short : line.length ≤ maxRequestLineSize
  valid : ∀ f ∈ fields, IsField f
  limits : WithinLimits fields

theorem IsHead.reads {lead : Bytes} (h : IsHead lead line req fields) :
    readRequestLine line = .ok req :=
  readRequestLine_iff.mpr h.starts

/-- The head that a request line starts. -/
def startHead (req : Request) : Head :=
  ⟨{ req with keepAlive := req.version = ascii "HTTP/1.1" }, {}⟩

/-- What the fields of a head make of the request its line starts. -/
def readHead (o : Options) (req : Request) (fields : List (Bytes × Bytes)) :
    Except ParseError Request :=
  (appendFields o (startHead req) fields).bind finishHead

/-- What the parser makes of the bytes behind a request line. -/
def readBehind (o : Options) (req : Request) (U rest : Bytes) : Parsed :=
  match parseHeaders o rest.length 0 (startHead req) rest with
  | .error e => .error e
  | .ok none => .needMore
  | .ok (some (h, rest)) =>
    match finishHead h with
    | .error e => .error e
    | .ok req => .done (U.length - rest.length) req

variable {lead : Bytes} {n : Nat}

theorem appendFields_ok (ha : appendFields o h fields = .ok h') :
    ∃ raw, raw = fields.map (fun f => (f.1, trimSpace f.2)) ∧
      h'.req.rawHeaders = h.req.rawHeaders ++ raw ∧
      h'.req.version = h.req.version ∧ h'.req.keepAlive = raw.foldl persist h.req.keepAlive := by
  refine ⟨_, rfl, ?_⟩
  induction fields generalizing h with
  | nil =>
    cases ha
    exact ⟨(append_nil _).symm, rfl, rfl⟩
  | cons f fields ih =>
    rw [appendFields, foldlM_cons] at ha
    cases hf : appendHeader o h f.1 (trimSpace f.2) with rw [hf] at ha
    | error e => cases ha
    | ok h₁ =>
      obtain ⟨hr, hv, hk⟩ := appendHeader_ok (f := (f.1, trimSpace f.2)) hf
      obtain ⟨hr', hv', hk'⟩ := ih ha
      rw [hr', hv', hk', hr, hv, hk, append_assoc]
      exact ⟨rfl, rfl, rfl⟩

/-- The request that a head leads to. -/
theorem readHead_ok {req₀ : Request} (hl : readRequestLine line = .ok req₀)
    (h : readHead o req₀ fields = .ok req) :
    fields.foldlM frameField ⟨none, false, []⟩ = .ok req.framing ∧
      req.rawHeaders = fields.map (fun f => (f.1, trimSpace f.2)) ∧ req.version = req₀.version ∧
      req.keepAlive = req.rawHeaders.foldl persist (req.version = ascii "HTTP/1.1") := by
  obtain ⟨-, -, hf, hr⟩ := readRequestLine_ok hl
  have hfr := appendFields_frame o (startHead req₀) fields
  rw [readHead] at h
  cases ha : appendFields o (startHead req₀) fields with
  | error e =>
    rw [ha] at h
    cases h
  | ok h' =>
    obtain ⟨raw, rfl, hr', hv, hk⟩ := appendFields_ok ha
    rw [ha] at h hfr
    dsimp only [Except.bind, finishHead] at h
    simp only [startHead, hr, nil_append] at hr' hv hk
    rw [← hf]
    split_ifs at h <;> cases h <;> exact ⟨hfr.symm, hr', hv, by rw [hr', hv]; exact hk⟩

theorem length_lt_writeFields (fields : List (Bytes × Bytes)) :
    fields.length < (writeFields fields).length := by
  induction fields with
  | nil => simp [writeFields]
  | cons f fields ih =>
    simp only [writeFields, length_append, length_cons]
    omega

theorem parseRequest_eq (hU : U ≠ []) : parseRequest o U =
    match parseRequestLine U with
    | .error e => .error e
    | .ok none => .needMore
    | .ok (some (req, rest)) => readBehind o req U rest :=
  if_neg (by simpa using hU)

/-- A head that was written is read field by field, whatever follows it. -/
theorem parseRequest_head (o : Options) (h : IsHead lead line req fields) (R : Bytes) :
    parseRequest o (lead ++ writeHead line fields ++ R) =
      match readHead o req fields with
      | .error e => .error e
      | .ok req => .done (lead ++ writeHead line fields).length req := by
  have hb : lead ++ writeHead line fields ++ R =
      lead ++ (line ++ cr :: lf :: (writeFields fields ++ R)) := by
    simp [writeHead]
  have hf := length_lt_writeFields fields
  have hr := (readRequestLine_ok h.reads).2.2.2
  rw [parseRequest_eq (by simp [writeHead]), hb,
    parseRequestLine_iff.mpr ⟨lead, line, h.front, rfl, h.reads, h.short⟩, ← hb]
  dsimp only [readBehind]
  rw [parseHeaders_writeFields h.valid (by rw [length_append]; omega)
    (by rw [Nat.zero_add]; exact h.limits.2)
    (by simp only [startHead, hr, length_nil, Nat.zero_add]; exact h.limits.1), readHead]
  cases appendFields o (startHead req) fields with
  | error e => rfl
  | ok h' =>
    dsimp only [Except.map, Except.bind]
    cases finishHead h' with
    | error e => rfl
    | ok req' =>
      rw [length_append, Nat.add_sub_cancel]

/-- What is accepted is a head that was written. -/
theorem parseRequest_done_iff : parseRequest o U = .done n req ↔ ∃ lead line req₀ fields R,
    IsHead lead line req₀ fields ∧ U = lead ++ writeHead line fields ++ R ∧
      n = (lead ++ writeHead line fields).length ∧ readHead o req₀ fields = .ok req := by
  constructor
  · intro h
    have hne : U ≠ [] := by
      rintro rfl
      cases h
    rw [parseRequest_eq hne] at h
    split at h
    · cases h
    · cases h
    rename_i req₀ rest hl
    obtain ⟨lead, line, hlead, rfl, hr, hlen⟩ := parseRequestLine_iff.mp hl
    have hraw := (readRequestLine_ok hr).2.2.2
    unfold readBehind at h
    split at h
    · cases h
    · cases h
    rename_i h₁ R hh
    obtain ⟨fields, rfl, hf, ht, hc, ha⟩ :=
      parseHeaders_done hh (by simp [startHead, hraw])
    have hhead : IsHead lead line req₀ fields := ⟨hlead, readRequestLine_iff.mp hr, hlen, hf,
      by simpa [startHead, hraw] using hc, by simpa using ht⟩
    split at h
    · cases h
    rename_i hfin
    cases h
    refine ⟨lead, line, req₀, fields, R, hhead, by simp [writeHead], ?_, ?_⟩
    · simp only [writeHead, length_append, length_cons]
      omega
    · rw [readHead, ha]
      exact hfin
  · rintro ⟨lead, line, req₀, fields, R, hhead, rfl, rfl, hr⟩
    rw [parseRequest_head o hhead, hr]

/-! ## The verdict on a head -/

/-- What the parser says about the body of a request. -/
inductive Verdict where
  | refused
  | incomplete
  | chunked
  | notChunked
deriving DecidableEq, Repr

def Parsed.verdict : Parsed → Verdict
  | .error _ => .refused
  | .needMore => .incomplete
  | .done _ req => if req.chunkedEncoding then .chunked else .notChunked

/-- What the framing of a complete head says about the body. -/
def Framing.verdict : Except ParseError Framing → Verdict
  | .error _ => .refused
  | .ok fr => if fr.host.isEmpty then .refused else if fr.chunked then .chunked else .notChunked

theorem verdict_readHead (o : Options) (hl : readRequestLine line = .ok req)
    (fields : List (Bytes × Bytes)) : Framing.verdict (fields.foldlM frameField ⟨none, false, []⟩) =
      match readHead o req fields with
      | .error _ => .refused
      | .ok req => if req.chunkedEncoding then .chunked else .notChunked := by
  have ha := appendFields_frame o (startHead req) fields
  rw [← (readRequestLine_ok hl).2.2.1]
  refine (congrArg Framing.verdict ha).symm.trans ?_
  rw [readHead]
  cases appendFields o (startHead req) fields with
  | error e => rfl
  | ok h =>
    simp only [Except.map, Except.bind, finishHead, Framing.verdict, Request.framing]
    split_ifs <;> simp_all

/-- The verdict on a head is that of its fields, in both header modes. -/
theorem verdict_writeHead (hl : readRequestLine line = .ok req)
    (hlen : line.length ≤ maxRequestLineSize)
    (hf : ∀ f ∈ fields, IsField f) (hlim : WithinLimits fields)
    {rest : Bytes} : (parseRequest o (writeHead line fields ++ rest)).verdict =
      Framing.verdict (fields.foldlM frameField ⟨none, false, []⟩) := by
  have hh : IsHead [] line req fields := ⟨.inl rfl, readRequestLine_iff.mp hl, hlen, hf, hlim⟩
  have hp := parseRequest_head o hh rest
  rw [nil_append] at hp
  rw [hp, verdict_readHead o hl]
  cases readHead o req fields <;> rfl

end Celeris.H1
