import Celeris.Data.Bytes
import Mathlib.Data.List.DropRight
import Mathlib.Algebra.Ring.Nat

/-!
# Bytes of an HTTP/1 head (`internal/protocol/h1/ascii.go`)

The byte classes of field names, field values and request targets, comparison
without regard to case, and the two number formats of a head. A lookup table of
the source is the predicate that fills it; the word-at-a-time scan of
`isValidRequestTarget` is the scan of single bytes it falls back to.
-/

namespace Celeris.H1

/-- The byte `\r`. -/
def cr : UInt8 := 0x0d

/-- The byte `\n`. -/
def lf : UInt8 := 0x0a

/-- The byte `,`. -/
def comma : UInt8 := 0x2c

/-- The byte `;`. -/
def semicolon : UInt8 := 0x3b

def space : UInt8 := 0x20

/-- The byte `\t`. -/
def htab : UInt8 := 0x09

def maxInt64 : Nat := 2 ^ 63 - 1

/-! ## Byte classes -/

def isUpper (c : UInt8) : Bool := 0x41 ≤ c && c ≤ 0x5a

def isLower (c : UInt8) : Bool := 0x61 ≤ c && c ≤ 0x7a

def isDigit (c : UInt8) : Bool := 0x30 ≤ c && c ≤ 0x39

/-- `tcharTable`. -/
def isTchar (c : UInt8) : Bool :=
  isLower c || isUpper c || isDigit c || (ascii "!#$%&'*+-.^_\x60|~").contains c

/-- `fieldVCharTable`. -/
def isFieldVChar (c : UInt8) : Bool :=
  c = htab || c = space || (0x21 ≤ c && c ≤ 0x7e) || 0x80 ≤ c

/-- `targetBadTable`. -/
def isTargetBad (c : UInt8) : Bool := c < 0x20 || c = 0x7f

def isValidHeaderName (b : Bytes) : Bool := !b.isEmpty && b.all isTchar

def isValidHeaderValue (b : Bytes) : Bool := b.all isFieldVChar

def isValidRequestTarget (b : Bytes) : Bool := b.all fun c => !isTargetBad c

def isToken (b : Bytes) : Bool := isValidHeaderName b

/-! ## Case -/

def lowerByte (c : UInt8) : UInt8 := if isUpper c then c ||| 0x20 else c

def lower (b : Bytes) : Bytes := b.map lowerByte

def asciiEqualFold (b s : Bytes) : Bool := lower b = lower s

/-- `asciiContainsFoldString` and `asciiContainsFoldBytes`. -/
def asciiContainsFold (b sub : Bytes) : Bool :=
  (lower sub).isPrefixOf (lower b) ||
    match b with
    | [] => false
    | _ :: bs => asciiContainsFold bs sub

/-! ## Blanks and numbers -/

def isBlank (c : UInt8) : Bool := c = space || c = htab

def trimSpace (b : Bytes) : Bytes := (b.dropWhile isBlank).rdropWhile isBlank

/-- Append a digit in a base to a number, unless it leaves the range of an
`int64`. -/
def pushDigit (base n digit : Nat) : Option Nat :=
  if n > (maxInt64 - digit) / base then none else some (n * base + digit)

def decDigit (c : UInt8) : Option Nat :=
  if isDigit c then some (c.toNat - 0x30) else none

def hexDigit (c : UInt8) : Option Nat :=
  if isDigit c then some (c.toNat - 0x30)
  else if 0x61 ≤ c && c ≤ 0x66 then some (c.toNat - 0x61 + 10)
  else if 0x41 ≤ c && c ≤ 0x46 then some (c.toNat - 0x41 + 10)
  else none

/-- A number in a base, of at least one digit. -/
def parseNumber (base : Nat) (digit : UInt8 → Option Nat) (b : Bytes) : Option Nat :=
  if b.isEmpty then none
  else b.foldlM (fun n c => (digit c).bind (pushDigit base n)) 0

def parseInt64Bytes (b : Bytes) : Option Nat := parseNumber 10 decDigit b

def parseHex64 (b : Bytes) : Option Nat := parseNumber 16 hexDigit b

end Celeris.H1
