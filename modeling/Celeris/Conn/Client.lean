import Celeris.H1.Parser

/-!
# A client of HTTP/1.1

The abstract side of a response: a client that reads one response to a request from
a connection that stays open, and decides where its content ends by RFC 9112,
section 6.3. Nothing here is translated from the source.

A content that only the end of the connection would end is none that this client can
read, and neither is one in a coding other than `chunked`.
-/

namespace Celeris.Client

open H1

/-- A response as the client sees it: field names in lower case, field values
without the blanks around them. -/
structure Reply where
  status : Nat
  fields : List (Bytes × Bytes)
  content : Bytes
deriving DecidableEq, Repr

/-- A number in a base, of at least one digit. -/
def readNumber (base : Nat) (digit : UInt8 → Option Nat) (b : Bytes) : Option Nat :=
  if b.isEmpty then none
  else b.foldlM (fun n c => (digit c).map fun d => n * base + d) 0

/-- The status on a status line: three digits and a blank behind the version. -/
def readStatus (line : Bytes) : Option Nat :=
  if line.take 9 = ascii "HTTP/1.1 " ∧ (line.drop 12).head? = some space then
    readNumber 10 decDigit ((line.drop 9).take 3)
  else none

/-- The fields up to the empty line, and what follows it. -/
def readFields : Nat → Bytes → Option (List (Bytes × Bytes) × Bytes)
  | 0, _ => none
  | fuel + 1, b =>
    match splitLine b with
    | none => none
    | some ([], rest) => some ([], rest)
    | some (line, rest) =>
      match cut colon line with
      | none => none
      | some (name, value) =>
        (readFields fuel rest).map fun r => ((lower name, trimSpace value) :: r.1, r.2)

/-! ## Where the content ends -/

def carries (name : Bytes) (fields : List (Bytes × Bytes)) : Bool := fields.any fun f => f.1 = name

/-- The elements of the list that the fields of a name make. -/
def elements (name : Bytes) (fields : List (Bytes × Bytes)) : List Bytes :=
  (fields.filter fun f => f.1 = name).flatMap fun f => (listElements f.2).filter fun e => !e.isEmpty

/-- What `Content-Length` says: `none` if it is not valid, `some none` if it is
absent. -/
def contentLength (fields : List (Bytes × Bytes)) : Option (Option Nat) :=
  if !carries (ascii "content-length") fields then some none
  else
    match (elements (ascii "content-length") fields).map (readNumber 10 decDigit) with
    | some n :: ns => if ns.all (· = some n) then some (some n) else none
    | _ => none

/-- The statuses of a response without content. -/
def bodiless (status : Nat) : Bool := status < 200 || status = 204 || status = 304

/-- Where the content ends. -/
inductive Ends where
  | behind (length : Nat)
  | chunked
  | withConnection
  | unknown
deriving DecidableEq, Repr

/-- The rules of RFC 9112, section 6.3, in their order. -/
def contentEnds (method : Bytes) (status : Nat) (fields : List (Bytes × Bytes)) : Ends :=
  if method = ascii "HEAD" ∨ bodiless status then .behind 0
  else if method = ascii "CONNECT" ∧ 200 ≤ status ∧ status < 300 then .behind 0
  else
    match (elements (ascii "transfer-encoding") fields).map lower with
    | [] =>
      match contentLength fields with
      | none => .unknown
      | some none => .withConnection
      | some (some n) => .behind n
    | [coding] => if coding = ascii "chunked" then .chunked else .withConnection
    | codings => if codings.getLast? = some (ascii "chunked") then .unknown else .withConnection

/-- The content of a chunked body, and what follows it. -/
def decodeChunked : Nat → Bytes → Option (Bytes × Bytes)
  | 0, _ => none
  | fuel + 1, b =>
    match splitLine b with
    | none => none
    | some (line, rest) =>
      match readNumber 16 hexDigit (trimSpace (line.takeWhile (· ≠ semicolon))) with
      | none => none
      | some 0 => (readFields (rest.length + 1) rest).map fun r => ([], r.2)
      | some (n + 1) =>
        if (rest.drop (n + 1)).take 2 = [cr, lf] then
          (decodeChunked fuel (rest.drop (n + 3))).map fun r => (rest.take (n + 1) ++ r.1, r.2)
        else none

/-- The content of a response, and what follows it. -/
def readContent (ends : Ends) (b : Bytes) : Option (Bytes × Bytes) :=
  match ends with
  | .behind n => if n ≤ b.length then some (b.take n, b.drop n) else none
  | .chunked => decodeChunked (b.length + 1) b
  | .withConnection | .unknown => none

/-- One response to a request with a method, and what follows it. -/
def read (method : Bytes) (b : Bytes) : Option (Reply × Bytes) := do
  let (line, rest) ← splitLine b
  let status ← readStatus line
  let (fields, rest) ← readFields (rest.length + 1) rest
  let (content, rest) ← readContent (contentEnds method status fields) rest
  return (⟨status, fields, content⟩, rest)

end Celeris.Client
