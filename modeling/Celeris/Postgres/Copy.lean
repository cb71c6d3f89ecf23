import Celeris.Postgres.Integers

/-!
# COPY in text (`driver/postgres/copy.go`)

The rows that `CopyFrom` sends, and a reader of them by the rules of PostgreSQL. Of the values the
model has those that are written without `strconv.AppendFloat` and `fmt`; a typed `nil` slice is
an empty one. The reader's escapes are those by letter: no code of a byte is ever written.

A row without values is the line of a row with one empty string.
-/

namespace Celeris.Postgres

open Conn H1 List

/-! ## The encoder -/

/-- The values of a row. -/
inductive CopyValue where
  | null
  | bool (b : Bool)
  | string (s : Bytes)
  | bytes (b : Bytes)
  | int (n : GoInt)

def appendEscapedByte (dst : Bytes) : UInt8 → Bytes
  | 0x5C => dst ++ ascii "\\\\"
  | 0x08 => dst ++ ascii "\\b"
  | 0x0C => dst ++ ascii "\\f"
  | 0x0A => dst ++ ascii "\\n"
  | 0x0D => dst ++ ascii "\\r"
  | 0x09 => dst ++ ascii "\\t"
  | 0x0B => dst ++ ascii "\\v"
  | b => dst ++ [b]

/-- `appendEscapedString` and `appendEscapedBytes`. -/
def appendEscapedString : Bytes → Bytes → Bytes := foldl appendEscapedByte

def appendTextField (dst : Bytes) : CopyValue → Bytes
  | .null => dst ++ ascii "\\N"
  | .bool b => dst ++ ascii (if b then "t" else "f")
  | .string s | .bytes s => appendEscapedString dst s
  -- A `uintptr` is left to `fmt`.
  | .int n => if n.type = .uintptr then appendEscapedString dst (formatInt n.n)
      else dst ++ formatInt n.n

def encodeTextRow (dst : Bytes) : List CopyValue → Bytes
  | [] => dst ++ [0x0A]
  | v :: vs => vs.foldl (fun dst v => appendTextField (dst ++ [0x09]) v) (appendTextField dst v) ++
      [0x0A]

/-! ## The reader -/

/-- A byte that stands for itself, or one behind a backslash. -/
inductive Mark where
  | raw (c : UInt8)
  | escaped (c : UInt8)
deriving DecidableEq, Repr

/-- The byte of a value that is written so. -/
def Mark.byte : Mark → UInt8
  | .escaped 0x62 => 0x08
  | .escaped 0x66 => 0x0C
  | .escaped 0x6E => 0x0A
  | .escaped 0x72 => 0x0D
  | .escaped 0x74 => 0x09
  | .escaped 0x76 => 0x0B
  | .raw c | .escaped c => c

def marks : Bytes → List Mark
  | [] => []
  | 0x5C :: c :: bs => .escaped c :: marks bs
  | c :: bs => .raw c :: marks bs

/-- A field; nothing for NULL. -/
def readField (ms : List Mark) : Option Bytes :=
  if ms = [.escaped 0x4E] then none else some (ms.map Mark.byte)

/-- The rows of the lines that are ended, up to the end of the data. -/
def readRows (bs : Bytes) : List (List (Option Bytes)) :=
  (((marks bs).splitOn (.raw 0x0A)).dropLast.takeWhile (· ≠ [.escaped 0x2E])).map
    fun line => (line.splitOn (.raw 0x09)).map readField

/-- What is to be read for a value. -/
def CopyValue.text : CopyValue → Option Bytes
  | .null => none
  | .bool b => some (ascii (if b then "t" else "f"))
  | .string s | .bytes s => some s
  | .int n => some (formatInt n.n)

/-! ## Fields -/

variable {dst w : Bytes} {b : UInt8} {vs : List CopyValue}

/-- Bytes that are read as these marks whatever is behind, and that end neither a row nor the
data. -/
structure Marked (w : Bytes) (ms : List Mark) : Prop where
  read : ∀ bs, marks (w ++ bs) = ms ++ marks bs
  clean : ∀ m ∈ ms, m ∉ [.raw 0x0A, .escaped 0x2E]

theorem Marked.append {w' : Bytes} {ms ms' : List Mark} (h : Marked w ms) (h' : Marked w' ms') :
    Marked (w ++ w') (ms ++ ms') where
  read bs := by rw [append_assoc, h.read, h'.read, append_assoc]
  clean m hm := (mem_append.mp hm).elim (h.clean m) (h'.clean m)

theorem appendEscapedByte_eq : appendEscapedByte dst b = dst ++ appendEscapedByte [] b := by
  unfold appendEscapedByte
  split <;> rfl

theorem marked_appendEscapedByte (b : UInt8) :
    ∃ m : Mark, Marked (appendEscapedByte [] b) [m] ∧ m.byte = b ∧
      m ∉ [.raw 0x09, .escaped 0x4E] := by
  unfold appendEscapedByte
  split
  case h_8 =>
    refine ⟨.raw b, ⟨fun bs => ?_, by simp_all⟩, rfl, by simp_all⟩
    rw [nil_append, cons_append, marks.eq_def]
    split <;> simp_all
  all_goals exact ⟨.escaped _, ⟨fun _ => rfl, by decide⟩, rfl, by decide⟩

theorem appendEscapedString_eq (dst s : Bytes) :
    appendEscapedString dst s = dst ++ s.flatMap (appendEscapedByte []) := by
  induction s generalizing dst with
  | nil => exact (append_nil dst).symm
  | cons b s ih =>
    rw [appendEscapedString, foldl_cons, flatMap_cons, appendEscapedByte_eq, ← append_assoc]
    exact ih _

theorem marked_escaped (s : Bytes) : ∃ ms, Marked (s.flatMap (appendEscapedByte [])) ms ∧
    ms.map Mark.byte = s ∧ ∀ m ∈ ms, m ∉ [.raw 0x09, .escaped 0x4E] := by
  induction s with
  | nil => exact ⟨[], ⟨fun _ => rfl, nofun⟩, rfl, nofun⟩
  | cons b s ih =>
    obtain ⟨m, hm, hb, hn⟩ := marked_appendEscapedByte b
    obtain ⟨ms, hms, hs, hns⟩ := ih
    exact ⟨m :: ms, hm.append hms, by rw [map_cons, hb, hs], forall_mem_cons.mpr ⟨hn, hns⟩⟩

/-- Digits and the minus are not escaped. -/
theorem escaped_formatInt (n : Int) :
    (formatInt n).flatMap (appendEscapedByte []) = formatInt n := by
  have he : ∀ c : UInt8, appendEscapedByte [] c = [c] ∨ decDigit c = none ∧ c ≠ 0x2D := by
    apply forall_byte
    decide +kernel
  have hm (c : UInt8) (hc : c ∈ formatInt n) : appendEscapedByte [] c = [c] := by
    refine (he c).resolve_right fun ⟨hd, hne⟩ => ?_
    have hint : c ∉ appendInt 10 n.natAbs := not_mem_appendInt (by decide) (by decide) hd
    unfold formatInt at hc
    split_ifs at hc
    · exact (mem_cons.mp hc).elim hne hint
    · exact hint hc
  rw [flatMap_congr hm, flatMap_singleton']

theorem appendTextField_eq (dst : Bytes) (v : CopyValue) :
    appendTextField dst v = dst ++ v.text.elim (ascii "\\N") (flatMap (appendEscapedByte [])) := by
  cases v with
  | null => rfl
  | bool b => cases b <;> rfl
  | string s | bytes s => exact appendEscapedString_eq dst s
  | int n =>
    simp only [appendTextField, CopyValue.text, Option.elim_some, appendEscapedString_eq,
      escaped_formatInt, ite_self]

/-! ## Rows -/

/-- Bytes that are read as these fields of a row. -/
def Reads (w : Bytes) (fields : List (Option Bytes)) : Prop :=
  ∃ line, Marked w line ∧ (line.splitOn (.raw 0x09)).map readField = fields

theorem reads_appendTextField (v : CopyValue) : Reads (appendTextField [] v) [v.text] := by
  rw [appendTextField_eq, nil_append]
  cases v.text with
  | none => exact ⟨[.escaped 0x4E], ⟨fun _ => rfl, by decide⟩, rfl⟩
  | some s =>
    obtain ⟨ms, hms, hs, hn⟩ := marked_escaped s
    refine ⟨ms, hms, ?_⟩
    rw [splitOn_eq_singleton fun h => hn _ h (by decide), map_singleton, readField,
      if_neg (by rintro rfl; exact hn _ mem_cons_self (by decide)), hs]

theorem Reads.foldl {fields : List (Option Bytes)} (h : Reads w fields) (vs : List CopyValue) :
    Reads (vs.foldl (fun dst v => appendTextField (dst ++ [0x09]) v) w)
      (fields ++ vs.map CopyValue.text) := by
  induction vs generalizing w fields with
  | nil => rwa [map_nil, append_nil]
  | cons v vs ih =>
    obtain ⟨line, hl, hf⟩ := h
    obtain ⟨ms, hms, hv⟩ := reads_appendTextField v
    have htab : Marked [0x09] [.raw 0x09] := ⟨fun _ => rfl, by decide⟩
    have hstep : Reads (appendTextField (w ++ [0x09]) v) (fields ++ [v.text]) := by
      refine ⟨line ++ .raw 0x09 :: ms, ?_, by rw [splitOn_append_cons_self, map_append, hf, hv]⟩
      rw [appendTextField_eq, append_assoc]
      rw [appendTextField_eq, nil_append] at hms
      exact hl.append (htab.append hms)
    rw [map_cons, append_cons]
    exact ih hstep

theorem readRows_cons (hne : vs ≠ []) (bs : Bytes) :
    readRows (encodeTextRow [] vs ++ bs) = vs.map CopyValue.text :: readRows bs := by
  obtain ⟨v, vs, rfl⟩ := exists_cons_of_ne_nil hne
  obtain ⟨line, hl, hf⟩ := (reads_appendTextField v).foldl vs
  unfold readRows
  rw [encodeTextRow, append_assoc, hl.read,
    show marks ([0x0A] ++ bs) = .raw 0x0A :: marks bs from rfl,
    splitOn_append_cons_self_of_not_mem fun h => hl.clean _ h (by decide),
      dropLast_cons_of_ne_nil (splitOn_ne_nil _ _),
    takeWhile_cons_of_pos, map_cons, hf]
  · rfl
  · refine decide_eq_true ?_
    rintro rfl
    exact hl.clean _ mem_cons_self (by decide)

/-- The rows are read back, whatever is behind them. -/
theorem readRows_encodeTextRow (rows : List (List CopyValue)) (hne : ∀ row ∈ rows, row ≠ [])
    (bs : Bytes) :
    readRows (rows.flatMap (encodeTextRow []) ++ bs) = rows.map (map CopyValue.text) ++
      readRows bs := by
  induction rows with
  | nil => rfl
  | cons row rows ih =>
    obtain ⟨hr, hne⟩ := forall_mem_cons.mp hne
    rw [flatMap_cons, append_assoc, readRows_cons hr, ih hne, map_cons, cons_append]

/-- Values that look like NULL, the end of the data and two fields. -/
theorem lookalikes_read :
    readRows ([[.string (ascii "\\N")], [.bytes (ascii "\\.")],
      [.null, .string (ascii "a\tb")]].flatMap
      (encodeTextRow []) ++ []) = [[some (ascii "\\N")], [some (ascii "\\.")],
        [none, some (ascii "a\tb")]] :=
  readRows_encodeTextRow _ (by simp) []

/-- A row without values is read as an empty string. -/
theorem emptyRow_not_read : encodeTextRow [] [] = encodeTextRow [] [.string []] ∧
    ¬∀ rows : List (List CopyValue), readRows (rows.flatMap (encodeTextRow [])) =
      rows.map (map CopyValue.text) :=
  ⟨rfl, fun h => absurd (h [[]]) (by decide)⟩

end Celeris.Postgres
