import Celeris.H1.Ascii

/-!
# The HTTP/1 request parser (`internal/protocol/h1/parser.go`)

`parseRequest` reads one request head from the front of a buffer. The source
keeps the buffer and a position in it; here a function takes the bytes from the
position on and returns those behind what it consumed.

A parser has two header modes. With `zeroCopy` it keeps the raw name and value
of a field and dispatches on the first byte of the name; without, it also keeps
the name in lower case and dispatches on that.
-/

namespace Celeris.H1

/-- The sentinel errors of the parser. -/
inductive ParseError where
  | bufferExhausted
  | invalidRequestLine
  | invalidHeader
  | missingHost
  | unsupportedVersion
  | headersTooLarge
  | tooManyHeaders
  | invalidContentLength
  | duplicateContentLength
  | requestLineTooLong
  | conflictingFraming
  | invalidTransferEncoding
deriving DecidableEq, Repr

def maxRequestLineSize : Nat := 8192

def maxHeaderSize : Nat := 65536

def maxHeaderCount : Nat := 200

/-- `Request`. A content length of `none` is the source's `-1`. -/
structure Request where
  method : Bytes := []
  path : Bytes := []
  version : Bytes := []
  headers : List (Bytes × Bytes) := []
  rawHeaders : List (Bytes × Bytes) := []
  host : Bytes := []
  contentLength : Option Nat := none
  chunkedEncoding : Bool := false
  keepAlive : Bool := false
  expectContinue : Bool := false
  upgradeH2C : Bool := false
  http2Settings : Bytes := []
deriving DecidableEq, Repr

/-- The fields of `Parser` that detect an h2c upgrade. -/
structure H2CDetect where
  upgradeSeen : Bool := false
  upgradeDisqualified : Bool := false
  settingsSeen : Bool := false
  settingsRepeated : Bool := false
  connectionHasUpgrade : Bool := false
  connectionHasSettings : Bool := false
deriving DecidableEq, Repr

/-- What the parser keeps while it reads a head. -/
structure Head where
  req : Request
  detect : H2CDetect := {}
deriving DecidableEq, Repr

/-- The settings of a parser. -/
structure Options where
  zeroCopy : Bool := false
  disableH2CDetect : Bool := false
deriving DecidableEq, Repr

/-! ## Lines -/

/-- The line at the front of a buffer, without its CRLF, and the bytes behind
it; `none` if there is no CRLF yet. -/
def splitLine : Bytes → Option (Bytes × Bytes)
  | a :: b :: bs =>
    if a = cr ∧ b = lf then some ([], bs)
    else (splitLine (b :: bs)).map fun p => (a :: p.1, p.2)
  | _ => none

/-- A list up to the first occurrence of a byte, and what follows it: a slice at
`bytes.IndexByte`. -/
def cut (c : UInt8) (b : Bytes) : Option (Bytes × Bytes) :=
  if b.contains c then some (b.takeWhile (· ≠ c), (b.dropWhile (· ≠ c)).drop 1) else none

/-! ## The request line -/

/-- The versions the parser takes. -/
def isSupportedVersion (version : Bytes) : Bool :=
  version = ascii "HTTP/1.1" || version = ascii "HTTP/1.0"

/-- The part of `parseRequestLine` behind the search for the line. -/
def readRequestLine (line : Bytes) : Except ParseError Request :=
  match cut space line with
  | none => .error .invalidRequestLine
  | some (method, rest) =>
    match cut space rest with
    | none => .error .invalidRequestLine
    | some (path, version) =>
      if !isToken method then .error .invalidRequestLine
      else if path.isEmpty || !isValidRequestTarget path then .error .invalidRequestLine
      else if !isSupportedVersion version then .error .unsupportedVersion
      else .ok { method := method, path := path, version := version }

/-- `parseRequestLine`, behind the empty line that may come first. -/
def parseLine (buf : Bytes) : Except ParseError (Option (Request × Bytes)) :=
  match splitLine buf with
  | none => if buf.length > maxRequestLineSize then .error .requestLineTooLong else .ok none
  | some (line, rest) =>
    if line.length > maxRequestLineSize then .error .requestLineTooLong
    else (readRequestLine line).map fun req => some (req, rest)

/-- `parseRequestLine`: the request line and the bytes behind it; `none` if it
is not complete. -/
def parseRequestLine (buf : Bytes) : Except ParseError (Option (Request × Bytes)) :=
  match splitLine buf with
  | some ([], rest) => parseLine rest
  | _ => parseLine buf

/-! ## Fields -/

def listElements (value : Bytes) : List Bytes :=
  (value.splitOn comma).map trimSpace

/-- The state of the loop of `transferEncodingIsChunked` after one element: the
last element that is not empty, and whether one before it was `chunked`. -/
def teStep (acc : Option Bytes × Bool) (tok : Bytes) : Option Bytes × Bool :=
  if tok.isEmpty then acc
  else (some tok, acc.2 || acc.1.any fun last => asciiEqualFold last (ascii "chunked"))

def teListContainsChunked (value : Bytes) : Bool :=
  (listElements value).any fun tok => asciiEqualFold tok (ascii "chunked")

def transferEncodingIsChunked (value : Bytes) : Except ParseError Bool :=
  match (listElements value).foldl teStep (none, false) with
  | (none, _) => .ok false
  | (some last, sawChunkedNotLast) =>
    let lastIsChunked := asciiEqualFold last (ascii "chunked")
    if sawChunkedNotLast || (!lastIsChunked && teListContainsChunked value) then
      .error .invalidTransferEncoding
    else .ok lastIsChunked

/-- The `Content-Length` case of `appendHeader`. -/
def setContentLength (req : Request) (value : Bytes) : Except ParseError Request :=
  if req.chunkedEncoding then .error .conflictingFraming
  else
    match parseInt64Bytes value with
    | none => .error .invalidContentLength
    | some cl =>
      if req.contentLength.any fun n => n ≠ cl then .error .duplicateContentLength
      else .ok { req with contentLength := some cl }

/-- The `Transfer-Encoding` case of `appendHeader`. -/
def setTransferEncoding (req : Request) (value : Bytes) : Except ParseError Request :=
  match transferEncodingIsChunked value with
  | .error e => .error e
  | .ok false => .ok req
  | .ok true =>
    if req.contentLength.isSome then .error .conflictingFraming
    else .ok { req with
      chunkedEncoding := true
      contentLength := none }

/-- The `Connection` case of `appendHeader`. -/
def setConnection (req : Request) (value : Bytes) : Request :=
  if asciiContainsFold value (ascii "close") then { req with keepAlive := false }
  else if asciiContainsFold value (ascii "keep-alive") then { req with keepAlive := true }
  else req

/-- The `Expect` case of `appendHeader`. -/
def setExpect (req : Request) (value : Bytes) : Request :=
  if asciiContainsFold value (ascii "100-continue") then { req with expectContinue := true }
  else req

/-- `appendHeader` without `zeroCopy`: dispatch on the name in lower case. -/
def appendString (req : Request) (rawName rawValue : Bytes) : Except ParseError Request :=
  let name := lower rawName
  let req := { req with headers := req.headers ++ [(name, rawValue)] }
  if name = ascii "host" then .ok { req with host := rawValue }
  else if name = ascii "content-length" then setContentLength req rawValue
  else if name = ascii "transfer-encoding" then setTransferEncoding req rawValue
  else if name = ascii "connection" then .ok (setConnection req rawValue)
  else if name = ascii "expect" then .ok (setExpect req rawValue)
  else .ok req

/-- `appendHeader` with `zeroCopy`: dispatch on the first byte of the name. -/
def appendRaw (req : Request) (rawName rawValue : Bytes) : Except ParseError Request :=
  match rawName with
  | [] => .ok req
  | c :: _ =>
    let first := c ||| 0x20
    if first = 0x68 then
      if asciiEqualFold rawName (ascii "Host") then .ok { req with host := rawValue } else .ok req
    else if first = 0x63 then
      if asciiEqualFold rawName (ascii "Content-Length") then setContentLength req rawValue
      else if asciiEqualFold rawName (ascii "Connection") then .ok (setConnection req rawValue)
      else .ok req
    else if first = 0x74 then
      if asciiEqualFold rawName (ascii "Transfer-Encoding") then setTransferEncoding req rawValue
      else .ok req
    else if first = 0x65 then
      if asciiEqualFold rawName (ascii "Expect") then .ok (setExpect req rawValue) else .ok req
    else .ok req

/-- The `Upgrade` case of `detectH2CHeader`. -/
def detectUpgrade (d : H2CDetect) (value : Bytes) : H2CDetect :=
  let trimmed := trimSpace value
  if trimmed.contains comma || !asciiEqualFold trimmed (ascii "h2c") then
    { d with
      upgradeSeen := false
      upgradeDisqualified := true }
  else if !d.upgradeDisqualified then { d with upgradeSeen := true }
  else d

/-- The `Connection` case of `detectH2CHeader`. -/
def detectConnection (d : H2CDetect) (value : Bytes) : H2CDetect :=
  (listElements value).foldl (fun d tok =>
    if asciiEqualFold tok (ascii "upgrade") then { d with connectionHasUpgrade := true }
    else if asciiEqualFold tok (ascii "http2-settings") then
      { d with connectionHasSettings := true }
    else d) d

def detectH2CHeader (h : Head) (rawName rawValue : Bytes) : Head :=
  match rawName with
  | [] => h
  | c :: _ =>
    let first := c ||| 0x20
    if first = 0x75 then
      if asciiEqualFold rawName (ascii "Upgrade") then
        { h with detect := detectUpgrade h.detect rawValue }
      else h
    else if first = 0x68 then
      if asciiEqualFold rawName (ascii "HTTP2-Settings") then
        if h.detect.settingsSeen then
          { h with detect := { h.detect with settingsRepeated := true } }
        else
          { req := { h.req with http2Settings := trimSpace rawValue }
            detect := { h.detect with settingsSeen := true } }
      else h
    else if first = 0x63 then
      if asciiEqualFold rawName (ascii "Connection") then
        { h with detect := detectConnection h.detect rawValue }
      else h
    else h

def appendHeader (o : Options) (h : Head) (rawName rawValue : Bytes) : Except ParseError Head :=
  let h := { h with req := { h.req with rawHeaders := h.req.rawHeaders ++ [(rawName, rawValue)] } }
  let h := if o.disableH2CDetect then h else detectH2CHeader h rawName rawValue
  (if o.zeroCopy then appendRaw h.req rawName rawValue else appendString h.req rawName rawValue).map
    fun req => { h with req := req }

/-- One field line of `parseHeaders`. -/
def readField (o : Options) (h : Head) (line : Bytes) : Except ParseError Head :=
  if h.req.rawHeaders.length ≥ maxHeaderCount then .error .tooManyHeaders
  else
    match cut colon line with
    | none => .error .invalidHeader
    | some (rawName, rest) =>
      if rawName.getLast?.all isBlank then .error .invalidHeader
      else
        let rawValue := trimSpace rest
        if !isValidHeaderName rawName || !isValidHeaderValue rawValue then .error .invalidHeader
        else appendHeader o h rawName rawValue

/-- The loop of `parseHeaders`: the head and the bytes behind it, or `none` if
it is not complete. `total` is the size of the lines read so far, and the fuel
bounds their number. -/
def parseHeaders (o : Options) : Nat → Nat → Head → Bytes →
    Except ParseError (Option (Head × Bytes))
  | 0, _, _, _ => .ok none
  | fuel + 1, total, h, buf =>
    match splitLine buf with
    | none => .ok none
    | some (line, rest) =>
      let total := total + line.length + 2
      if total > maxHeaderSize then .error .headersTooLarge
      else if line.isEmpty then .ok (some (h, rest))
      else
        match readField o h line with
        | .error e => .error e
        | .ok h => parseHeaders o fuel total h rest

/-! ## The request -/

/-- What `ParseRequest` returns. -/
inductive Parsed where
  | error (e : ParseError)
  | needMore
  | done (consumed : Nat) (req : Request)
deriving DecidableEq, Repr

/-- The last check of `ParseRequest`. -/
def finishHead (h : Head) : Except ParseError Request :=
  if h.req.host.isEmpty then .error .missingHost
  else if h.detect.upgradeSeen && h.detect.settingsSeen && !h.detect.settingsRepeated &&
      h.detect.connectionHasUpgrade && h.detect.connectionHasSettings then
    .ok { h.req with upgradeH2C := true }
  else .ok h.req

def parseRequest (o : Options) (buf : Bytes) : Parsed :=
  if buf.isEmpty then .error .bufferExhausted
  else
    match parseRequestLine buf with
    | .error e => .error e
    | .ok none => .needMore
    | .ok (some (req, rest)) =>
      let req := { req with keepAlive := req.version = ascii "HTTP/1.1" }
      match parseHeaders o rest.length 0 ⟨req, {}⟩ rest with
      | .error e => .error e
      | .ok none => .needMore
      | .ok (some (h, rest)) =>
        match finishHead h with
        | .error e => .error e
        | .ok req => .done (buf.length - rest.length) req

end Celeris.H1
