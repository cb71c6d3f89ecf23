import Celeris.H2.Stream
import Mathlib.Algebra.Ring.Nat

/-!
# Validation of requests (`internal/protocol/h2/stream/validation.go`)

The checks a header block, a trailer block and a content-length pass before a handler
sees the request. A Go `int` is a number between `-2^63` and `2^63 - 1`, and
`parseUint` multiplies and adds in it.
-/

namespace Celeris.H2

/-! ## Bytes -/

def forbiddenByteIn (v : Bytes) : Bool := v.any fun c => c ≤ 13 && (c = 0 || c = 10 || c = 13)

/-- Eight bytes as a word, the first the lowest. -/
def leWord (s : Bytes) : UInt64 := s.foldr (fun c w => (w <<< 8) ||| c.toUInt64) 0

/-- The test on a word that lets most words be skipped. -/
def maybeForbidden (w : UInt64) : Bool :=
  (w - 0x0E * 0x0101010101010101) &&& ~~~w &&& 0x8080808080808080 ≠ 0

/-- `hasForbiddenValueByte` with so many whole words left. -/
def forbiddenInWords : (words : Nat) → Bytes → Bool
  | 0, v => forbiddenByteIn v
  | words + 1, v =>
    (maybeForbidden (leWord (v.take 8)) && forbiddenByteIn (v.take 8)) || forbiddenInWords words
      (v.drop 8)

def hasForbiddenValueByte (v : Bytes) : Bool := forbiddenInWords (v.length / 8) v

/-- `fieldNameTable`. -/
def isFieldNameByte (c : UInt8) : Bool :=
  (0x61 ≤ c && c ≤ 0x7a) || (0x30 ≤ c && c ≤ 0x39) || c ∈ ascii "!#$%&'*+-.^_`|~"

def isValidFieldName (name : Bytes) : Bool :=
  let rest := if name.head? = some colon then name.tail else name
  rest ≠ [] && rest.all isFieldNameByte

/-! ## Fields -/

/-- Why a field section is refused. -/
inductive FieldError where
  | invalidName (name : Bytes)
  | forbiddenValue (name : Bytes)
  | pseudoAfterRegular (name : Bytes)
  | duplicatePseudo (name : Bytes)
  | emptyPath
  | unknownPseudo (name : Bytes)
  | pseudoInTrailers (name : Bytes)
  | connectionSpecific (name : Bytes)
  | notTrailers (value : Bytes)
  | missingPseudo (name : Bytes)
deriving DecidableEq, Repr

/-- What `validateRequestHeaders` has seen. -/
structure Seen where
  method : Bool := false
  scheme : Bool := false
  path : Bool := false
  authority : Bool := false
  regular : Bool := false
deriving DecidableEq, Repr

/-- The check of a name and a value, in a header block and in trailers. -/
def checkField (f : Field) : Except FieldError Unit :=
  if isValidFieldName f.1 = false then .error (.invalidName f.1)
  else if hasForbiddenValueByte f.2 then .error (.forbiddenValue f.1)
  else .ok ()

/-- The check of a regular field, in a header block and in trailers. -/
def checkRegular (f : Field) : Except FieldError Unit :=
  if f.1 ∈ ["connection", "keep-alive", "proxy-connection", "transfer-encoding", "upgrade"].map
    ascii then
    .error (.connectionSpecific f.1)
  else if f.1 = ascii "te" ∧ f.2 ≠ ascii "trailers" then .error (.notTrailers f.2)
  else .ok ()

/-- A pseudo-header that comes once. -/
def onceOnly (name : Bytes) (had : Bool) (seen : Seen) : Except FieldError Seen :=
  if had then .error (.duplicatePseudo name) else .ok seen

/-- One field of `validateRequestHeaders`. -/
def requestField (seen : Seen) (f : Field) : Except FieldError Seen := do
  checkField f
  if f.1.head? = some colon then
    if seen.regular then .error (.pseudoAfterRegular f.1)
    else if f.1 = ascii ":method" then onceOnly f.1 seen.method { seen with method := true }
    else if f.1 = ascii ":scheme" then onceOnly f.1 seen.scheme { seen with scheme := true }
    else if f.1 = ascii ":path" then
      let seen ← onceOnly f.1 seen.path { seen with path := true }
      if f.2 = [] then .error .emptyPath else .ok seen
    else if f.1 = ascii ":authority" then
      onceOnly f.1 seen.authority { seen with authority := true }
    else .error (.unknownPseudo f.1)
  else
    checkRegular f
    .ok { seen with regular := true }

def validateRequestHeaders (headers : List Field) : Except FieldError Unit := do
  let seen ← headers.foldlM requestField {}
  if seen.method = false then .error (.missingPseudo (ascii ":method"))
  else if seen.scheme = false then .error (.missingPseudo (ascii ":scheme"))
  else if seen.path = false then .error (.missingPseudo (ascii ":path"))
  else .ok ()

def validateTrailerHeaders (headers : List Field) : Except FieldError Unit :=
  headers.forM fun f => do
    checkField f
    if f.1.head? = some colon then .error (.pseudoInTrailers f.1) else checkRegular f

/-! ## Content-length -/

/-- Why a content-length is refused. -/
inductive LengthError where
  | invalid (value : Bytes)
  | mismatch (expected : Int) (bodyLength : Nat)
deriving DecidableEq, Repr

/-- Arithmetic of a Go `int`. -/
def int64 (x : Int) : Int := Int.bmod x (2 ^ 64)

/-- The loop of `parseUint`, with the number read so far. -/
def parseDigits (n : Int) : Bytes → Option Int
  | [] => some n
  | c :: rest =>
    if c < 0x30 ∨ c > 0x39 then none else parseDigits (int64 (n * 10 + (c.toNat - 0x30 : Nat))) rest

def parseUint (s : Bytes) : Option Int := if s = [] then none else parseDigits 0 s

def validateContentLength (headers : List Field) (bodyLength : Nat) : Except LengthError Unit :=
  headers.forM fun f =>
    if f.1 = ascii "content-length" then
      match parseUint f.2 with
      | none => .error (.invalid f.2)
      | some expected => if expected ≠ bodyLength then .error (.mismatch expected bodyLength)
          else .ok ()
    else .ok ()

end Celeris.H2
