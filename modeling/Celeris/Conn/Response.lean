import Celeris.H1.Parser
import Mathlib.Data.Nat.Digits.Defs

/-!
# HTTP/1 responses (`internal/conn/response.go`)

The writer of a connection: whole responses by `writeResponse`, streamed ones by
`writeHeader`, `write` and `close`. What a write hook is given is appended to what
is sent, so the fused blocks, the two-write and the scatter-gather path are the
bytes they stand for. The engine's query for write errors is not installed.

Header fields reach the writer checked: `Context` takes CR, LF and NUL out of names
and values, and asks the same of callers it trusts. A `HeaderField` carries that.
-/

namespace Celeris.Conn

open H1

/-- The bytes that `stripCRLF` takes out. -/
def isStripped (c : UInt8) : Bool := c = cr || c = lf || c = 0

/-- A header field that was checked when it was set. -/
structure HeaderField where
  name : Bytes
  value : Bytes
  nameStripped : (name.all fun c => !isStripped c) = true
  valueStripped : (value.all fun c => !isStripped c) = true

/-- `h1ResponseAdapter`: the fields that the head of a response depends on. `date`
is the cached value of the date field. -/
structure Adapter where
  date : Bytes
  isDate : isValidHeaderValue date = true
  keepAlive : Bool
  shutdown : Bool
  isHEAD : Bool

/-! ## Lines -/

def crlf : Bytes := [cr, lf]

def digitByte (d : Nat) : UInt8 := if d < 10 then .ofNat (0x30 + d) else .ofNat (0x61 + (d - 10))

/-- `strconv.AppendInt` for a number that is not negative. -/
def appendInt (base n : Nat) : Bytes :=
  if n = 0 then [0x30] else (Nat.digits base n).reverse.map digitByte

def statusText (code : Nat) : Bytes :=
  ascii <|
    match code with
    | 200 => "OK"
    | 201 => "Created"
    | 204 => "No Content"
    | 301 => "Moved Permanently"
    | 302 => "Found"
    | 304 => "Not Modified"
    | 400 => "Bad Request"
    | 401 => "Unauthorized"
    | 403 => "Forbidden"
    | 404 => "Not Found"
    | 413 => "Request Entity Too Large"
    | 500 => "Internal Server Error"
    | 502 => "Bad Gateway"
    | 503 => "Service Unavailable"
    | _ => "Unknown"

/-- `appendStatusLine`; its prepared lines are what its default branch builds. -/
def appendStatusLine (status : Nat) : Bytes :=
  ascii "HTTP/1.1 " ++ appendInt 10 status ++ space :: statusText status ++ crlf

def headerLine (name value : Bytes) : Bytes := name ++ ascii ": " ++ value ++ crlf

def appendCachedDate (a : Adapter) : Bytes := headerLine (ascii "date") a.date

/-- The content types with a prepared line. -/
def hasPreparedLine (contentType : Bytes) : Bool :=
  contentType = ascii "application/json" || contentType = ascii "text/plain" ||
    contentType = ascii "text/html; charset=utf-8" || contentType = ascii "application/xml" ||
    contentType = ascii "application/octet-stream"

/-! ## Whole responses -/

def mustFrameEmptyBody (status : Nat) : Bool :=
  if 100 ≤ status ∧ status < 200 then false
  else if status = 204 ∨ status = 304 then false
  else true

def closing (a : Adapter) (status : Nat) : Bool :=
  !a.keepAlive || (a.shutdown && 200 ≤ status)

def withoutConnectionHeaders (headers : List HeaderField) : List HeaderField :=
  headers.filter fun h => !asciiEqualFold h.name (ascii "connection")

/-- The headers of a response that may end the connection. -/
def responseHeaders (a : Adapter) (status : Nat) (headers : List HeaderField) : List HeaderField :=
  if closing a status && 200 ≤ status then withoutConnectionHeaders headers else headers

/-- The line that ends the connection, and the empty line. -/
def endHead (a : Adapter) (status : Nat) : Bytes :=
  (if closing a status then ascii "connection: close\r\n" else []) ++ crlf

/-- A field of the general path: a prepared line for a content type, or its own. -/
def generalLine (h : HeaderField) : Bytes :=
  if h.name = ascii "content-type" && hasPreparedLine h.value then
    ascii "content-type: " ++ h.value ++ crlf
  else headerLine h.name h.value

/-- The fields of a whole response. Two fields of which the second is a length are
taken for a content type and a length: a value with a prepared line makes the first
a content type, whatever its name. -/
def writeFieldLines (status : Nat) (headers : List HeaderField) (body : Bytes) : Bytes :=
  let general :=
    headers.flatMap generalLine ++
      if !headers.any (fun h => h.name = ascii "content-length") &&
          (0 < body.length || mustFrameEmptyBody status) then
        ascii "content-length: " ++ appendInt 10 body.length ++ crlf
      else []
  match headers with
  | [h₀, h₁] =>
    if h₁.name = ascii "content-length" then
      (if hasPreparedLine h₀.value then ascii "content-type: " ++ h₀.value ++ crlf
        else headerLine h₀.name h₀.value) ++
        ascii "content-length: " ++ h₁.value ++ crlf
    else general
  | _ => general

/-- `WriteResponse`: the bytes of a whole response. -/
def writeResponse (a : Adapter) (status : Nat) (headers : List HeaderField) (body : Bytes) :
    Bytes :=
  appendStatusLine status ++ appendCachedDate a ++
    writeFieldLines status (responseHeaders a status headers) body ++ endHead a status ++
    if 0 < body.length ∧ !a.isHEAD then body else []

/-- `appendFileResponseHead`: the head of a response whose body the engine sends from
a file. -/
def appendFileResponseHead (a : Adapter) (status : Nat) (headers : List HeaderField)
    (bodyLen : Nat) : Bytes :=
  let headers := responseHeaders a status headers
  appendStatusLine status ++ appendCachedDate a ++ headers.flatMap generalLine ++
    (if !headers.any (fun h => h.name = ascii "content-length") then
      ascii "content-length: " ++ appendInt 10 bodyLen ++ crlf
    else []) ++ endHead a status

/-! ## Answers for a handler that gave none -/

/-- The loop of `emptyAnswerHeaders`: the headers of the handler without its lengths,
of which a HEAD keeps the first. -/
def keepDeclared (head : Bool) : Bool → List HeaderField → List HeaderField × Bool
  | declared, [] => ([], declared)
  | declared, h :: headers =>
    if asciiEqualFold h.name (ascii "content-length") then
      if !head || declared then keepDeclared head declared headers
      else
        let rest := keepDeclared head true headers
        (h :: rest.1, rest.2)
    else
      let rest := keepDeclared head declared headers
      (h :: rest.1, rest.2)

def emptyAnswerHeaders (respHeaders : List HeaderField) (head : Bool) : List HeaderField :=
  let kept := keepDeclared head false respHeaders
  if kept.2 then kept.1
  else kept.1 ++ [⟨ascii "content-length", ascii "0", by decide, by decide⟩]

/-! ## Streamed responses -/

/-- The state of a streamed response, with what was sent of it. -/
structure Stream where
  streamBegun : Bool := false
  streamNoBody : Bool := false
  streamOpen : Bool := false
  out : Bytes := []
deriving DecidableEq, Repr

def maxChunkData : Nat := 2 ^ 30

def writeHeader (a : Adapter) (status : Nat) (headers : List HeaderField) (s : Stream) : Stream :=
  let noContent := status < 200 ∨ status = 204 ∨ status = 304
  let noBody := a.isHEAD || noContent
  { streamBegun := true
    streamNoBody := noBody
    streamOpen := !noBody
    out := s.out ++ appendStatusLine status ++ appendCachedDate a ++
      (if noContent then [] else ascii "transfer-encoding: chunked\r\n") ++
      (responseHeaders a status headers).flatMap (fun h => headerLine h.name h.value) ++
      endHead a status }

def headResponse (a : Adapter) (s : Stream) : Bool :=
  if s.streamBegun then s.streamNoBody else a.isHEAD

def frameChunk (data : Bytes) : Bytes := appendInt 16 data.length ++ crlf ++ data ++ crlf

/-- The chunks of one write: none for no data, and several for more than
`maxChunkData`. The fuel bounds their number. -/
def splitWrite : Nat → Bytes → List Bytes
  | 0, _ => []
  | fuel + 1, data =>
    if data.isEmpty then []
    else if data.length > maxChunkData then
      data.take maxChunkData :: splitWrite fuel (data.drop maxChunkData)
    else [data]

def write (a : Adapter) (s : Stream) (data : Bytes) : Stream :=
  if headResponse a s || (s.streamBegun && !s.streamOpen) then s
  else { s with out := s.out ++ (splitWrite data.length data).flatMap frameChunk }

def close (a : Adapter) (s : Stream) : Stream :=
  if headResponse a s || (s.streamBegun && !s.streamOpen) then s
  else { s with streamOpen := false, out := s.out ++ ascii "0\r\n\r\n" }

/-- The bytes of a streamed response: its head, its writes, and its end. -/
def streamResponse (a : Adapter) (status : Nat) (headers : List HeaderField) (writes : List Bytes) :
    Bytes :=
  (close a (writes.foldl (write a) (writeHeader a status headers {}))).out

end Celeris.Conn
