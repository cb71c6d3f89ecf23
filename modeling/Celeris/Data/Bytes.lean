import Mathlib.Data.List.Basic

/-!
# Byte strings

A Go `string` and a Go `[]byte` are both finite sequences of bytes; the model
does not tell them apart. `ascii` writes one down from a Lean string literal
whose characters are all below 256, which is how the constants of the source
appear below.
-/

namespace Celeris

/-- A Go string or byte slice. -/
abbrev Bytes := List UInt8

/-- The bytes of a literal, one for each character. -/
def ascii (s : String) : Bytes := s.toList.map fun c => UInt8.ofNat c.toNat

/-- The byte `/`. -/
def slash : UInt8 := 0x2f

/-- The byte `:`. -/
def colon : UInt8 := 0x3a

/-- The byte `*`. -/
def star : UInt8 := 0x2a

/-- The byte `?`. -/
def question : UInt8 := 0x3f

/-- What holds of the bytes one by one holds of every byte. -/
theorem forall_byte {p : UInt8 → Prop} (h : ∀ n : Fin 256, p (.ofFin n)) (c : UInt8) : p c :=
  h c.toFin

end Celeris
