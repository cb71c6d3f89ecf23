import Celeris.Data.BigEndian

/-!
# Codecs

A codec writes values as bytes and reads them back from the front of a byte string. It comes
with the values that it can write, and with the law that ties the three: reading yields `x`
exactly from the bytes of `x`, and only for such an `x`. So what has been read is always what
some writer has written, and whether a value survives the way through bytes is a question
about the value alone.

Codecs are composed from numbers of fixed width, strings that end with a zero byte or follow
their length, pairs and counted lists; a stream is read until it is empty.
-/

universe u v

/-- A writer and a reader for values of one type. -/
structure Codec (α : Type u) where
  encode : α → List UInt8
  decode : List UInt8 → Option (α × List UInt8)
  /-- The values that can be written. -/
  Valid : α → Prop
  decode_iff : ∀ {b : List UInt8} {x : α} {rest : List UInt8},
    decode b = some (x, rest) ↔ Valid x ∧ b = encode x ++ rest

namespace Codec

open List Option BigEndian

variable {α : Type u} {β : Type v}

/-- A number of `k` bytes, the highest first. -/
def nat (k : Nat) : Codec Nat where
  encode n := bytes k n
  decode b := if k ≤ b.length then some (value (b.take k), b.drop k) else none
  Valid n := n < 256 ^ k
  decode_iff {b n rest} := by
    rw [ite_none_right_eq_some, some.injEq, Prod.mk.injEq]
    constructor
    · rintro ⟨hlen, rfl, rfl⟩
      have htake : (b.take k).length = k := length_take_of_le hlen
      refine ⟨?_, ?_⟩
      · have hlt := value_lt (b.take k)
        rwa [htake] at hlt
      · rw [bytes_value htake, take_append_drop]
    · rintro ⟨hn, rfl⟩
      have hlen := length_bytes k n
      refine ⟨?_, ?_, drop_left' hlen⟩
      · rw [length_append, hlen]
        exact Nat.le_add_right ..
      · rw [take_left' hlen, value_bytes hn]

variable {b : List UInt8} {xs : List α}

/-- To read on behind a value. -/
theorem decode_bind_iff (c : Codec α) {f : α × List UInt8 → Option β} {y : β} :
    (c.decode b).bind f = some y ↔ ∃ x rest, c.Valid x ∧ b = c.encode x ++ rest ∧
      f (x, rest) = some y := by
  simp only [bind_eq_some_iff, Prod.exists, c.decode_iff, and_assoc]

/-- Read a string up to its zero byte. -/
def readString : List UInt8 → Option (List UInt8 × List UInt8)
  | [] => none
  | c :: b => if c = 0 then some ([], b) else (readString b).map fun x => (c :: x.1, x.2)

/-- A string that ends with a zero byte. -/
def string : Codec (List UInt8) where
  encode s := s ++ [0]
  decode := readString
  Valid s := 0 ∉ s
  decode_iff {b s rest} := by
    induction b generalizing s with
    | nil => simp [readString]
    | cons c b ih =>
      rw [readString]
      cases s with
      | nil => by_cases hc : c = 0 <;> simp [hc]
      | cons d s =>
        by_cases hc : c = 0
        · simp +contextual [hc, eq_comm]
        · rw [if_neg hc, map_eq_some_iff]
          constructor
          · rintro ⟨⟨s', rest'⟩, hx, heq⟩
            cases heq
            obtain ⟨hz, rfl⟩ := ih.mp hx
            exact ⟨not_mem_cons_of_ne_of_not_mem (Ne.symm hc) hz, rfl⟩
          · rintro ⟨hz, hb⟩
            obtain ⟨rfl, h⟩ := cons.inj hb
            exact ⟨(s, rest), ih.mpr ⟨not_mem_of_not_mem_cons hz, h⟩, rfl⟩

/-- Bytes after their length, in `k` bytes. -/
def block (k : Nat) : Codec (List UInt8) where
  encode s := bytes k s.length ++ s
  decode b := ((nat k).decode b).bind fun x =>
    if x.1 ≤ x.2.length then some (x.2.take x.1, x.2.drop x.1) else none
  Valid s := s.length < 256 ^ k
  decode_iff {b s rest} := by
    rw [decode_bind_iff]
    constructor
    · rintro ⟨n, b', hlt, rfl, h⟩
      obtain ⟨hle, heq⟩ := ite_none_right_eq_some.mp h
      cases heq
      have hlen : (b'.take n).length = n := length_take_of_le hle
      refine ⟨hlen.symm ▸ hlt, ?_⟩
      rw [hlen, append_assoc, take_append_drop]
      rfl
    · rintro ⟨hlt, rfl⟩
      refine ⟨s.length, s ++ rest, hlt, append_assoc .., ?_⟩
      rw [if_pos (by simp), take_left, drop_left]

/-- One value after another. -/
def pair (c : Codec α) (d : Codec β) : Codec (α × β) where
  encode x := c.encode x.1 ++ d.encode x.2
  decode b := (c.decode b).bind fun x => (d.decode x.2).map fun y => ((x.1, y.1), y.2)
  Valid x := c.Valid x.1 ∧ d.Valid x.2
  decode_iff {b x rest} := by
    simp only [decode_bind_iff, map_eq_some_iff, Prod.exists, d.decode_iff]
    constructor
    · rintro ⟨y, _, hv, rfl, z, _, ⟨hv', rfl⟩, ⟨⟩⟩
      exact ⟨⟨hv, hv'⟩, (append_assoc ..).symm⟩
    · rintro ⟨⟨hv, hv'⟩, rfl⟩
      exact ⟨x.1, _, hv, append_assoc .., x.2, rest, ⟨hv', rfl⟩, rfl⟩

/-- The same bytes for values of another type. -/
def map (c : Codec α) (f : α → β) (g : β → α) (hfg : ∀ y, f (g y) = y)
    (hgf : ∀ x, c.Valid x → g (f x) = x) : Codec β where
  encode y := c.encode (g y)
  decode b := (c.decode b).map fun x => (f x.1, x.2)
  Valid y := c.Valid (g y)
  decode_iff {b y rest} := by
    rw [map_eq_some_iff]
    constructor
    · rintro ⟨⟨x, b'⟩, hx, heq⟩
      cases heq
      obtain ⟨hvalid, rfl⟩ := c.decode_iff.mp hx
      rw [hgf x hvalid]
      exact ⟨hvalid, rfl⟩
    · rintro ⟨hvalid, rfl⟩
      exact ⟨(g y, rest), c.decode_iff.mpr ⟨hvalid, rfl⟩, by rw [hfg]⟩

/-! ## Lists -/

def readMany (c : Codec α) : Nat → List UInt8 → Option (List α × List UInt8)
  | 0, b => some ([], b)
  | n + 1, b => (c.decode b).bind fun x => (c.readMany n x.2).map fun y => (x.1 :: y.1, y.2)

theorem readMany_iff (c : Codec α) {n : Nat} {rest : List UInt8} :
    c.readMany n b = some (xs, rest) ↔
      xs.length = n ∧ (∀ x ∈ xs, c.Valid x) ∧ b = xs.flatMap c.encode ++ rest := by
  induction n generalizing b xs rest with
  | zero =>
    rw [readMany, some.injEq, Prod.mk.injEq, length_eq_zero_iff]
    constructor
    · rintro ⟨rfl, rfl⟩
      exact ⟨rfl, nofun, rfl⟩
    · rintro ⟨rfl, -, rfl⟩
      exact ⟨rfl, rfl⟩
  | succ n ih =>
    rw [readMany]
    simp only [decode_bind_iff, map_eq_some_iff, Prod.exists, ih]
    constructor
    · rintro ⟨x, _, hv, rfl, xs, _, ⟨rfl, ha, rfl⟩, ⟨⟩⟩
      exact ⟨rfl, forall_mem_cons.mpr ⟨hv, ha⟩, (append_assoc ..).symm⟩
    · rintro ⟨hl, ha, rfl⟩
      cases xs with
      | nil => cases hl
      | cons x xs =>
        obtain ⟨hv, ha⟩ := forall_mem_cons.mp ha
        exact ⟨x, _, hv, append_assoc .., xs, rest, ⟨Nat.succ.inj hl, ha, rfl⟩, rfl⟩

/-- A list after its length, in `k` bytes. -/
def list (k : Nat) (c : Codec α) : Codec (List α) where
  encode xs := bytes k xs.length ++ xs.flatMap c.encode
  decode b := ((nat k).decode b).bind fun x => c.readMany x.1 x.2
  Valid xs := xs.length < 256 ^ k ∧ ∀ x ∈ xs, c.Valid x
  decode_iff {b xs rest} := by
    simp only [decode_bind_iff, readMany_iff]
    constructor
    · rintro ⟨n, _, hlt, rfl, rfl, ha, rfl⟩
      exact ⟨⟨hlt, ha⟩, (append_assoc ..).symm⟩
    · rintro ⟨⟨hlt, ha⟩, rfl⟩
      exact ⟨xs.length, _, hlt, append_assoc .., rfl, ha, rfl⟩

/-! ## Whole byte strings -/

def exact (c : Codec α) (b : List UInt8) : Option α :=
  match c.decode b with
  | some (x, []) => some x
  | _ => none

theorem exact_iff (c : Codec α) {x : α} : c.exact b = some x ↔ c.Valid x ∧ b = c.encode x := by
  have he : c.exact b = some x ↔ c.decode b = some (x, []) := by
    unfold exact
    split
    next y h => rw [h, some.injEq, some.injEq, Prod.mk.injEq, eq_self, and_true]
    next h =>
      refine iff_of_false nofun fun hx => ?_
      exact h x hx
  rw [he, c.decode_iff, append_nil]

/-- Read values until nothing is left, at most `n` of them. -/
def readAll (c : Codec α) : Nat → List UInt8 → Option (List α)
  | _, [] => some []
  | 0, _ :: _ => none
  | n + 1, a :: b => (c.decode (a :: b)).bind fun x => (c.readAll n x.2).map (x.1 :: ·)

/-- The values of a stream; each of them takes a byte at least. -/
def stream (c : Codec α) (b : List UInt8) : Option (List α) := c.readAll b.length b

theorem readAll_iff (c : Codec α) (hne : ∀ x, c.encode x ≠ []) {n : Nat}
    (hn : b.length ≤ n) : c.readAll n b = some xs ↔ (∀ x ∈ xs, c.Valid x) ∧
      b = xs.flatMap c.encode := by
  -- Nothing is left exactly if nothing was written.
  have hnil : ∀ xs : List α, some [] = some xs ↔ (∀ x ∈ xs, c.Valid x) ∧
      [] = xs.flatMap c.encode := by
    intro xs
    cases xs with
    | nil => exact iff_of_true rfl ⟨nofun, rfl⟩
    | cons x xs =>
      refine iff_of_false nofun ?_
      rintro ⟨-, h⟩
      exact hne x (append_eq_nil_iff.mp h.symm).1
  induction n generalizing b xs with
  | zero =>
    rw [length_eq_zero_iff.mp (Nat.le_zero.mp hn)]
    exact hnil xs
  | succ n ih =>
    cases b with
    | nil => exact hnil xs
    | cons a b =>
      have hs : ∀ x rest, a :: b = c.encode x ++ rest → rest.length ≤ n := by
        intro x rest h
        have hpos := length_pos_iff.mpr (hne x)
        have hlen := congrArg length h
        rw [length_append] at hlen
        omega
      rw [readAll, decode_bind_iff]
      constructor
      · rintro ⟨x, rest, hv, hb, h⟩
        obtain ⟨ys, hys, rfl⟩ := map_eq_some_iff.mp h
        obtain ⟨hall, rfl⟩ := (ih (hs x rest hb)).mp hys
        exact ⟨forall_mem_cons.mpr ⟨hv, hall⟩, hb⟩
      · rintro ⟨hall, hb⟩
        cases xs with
        | nil => cases hb
        | cons x xs =>
          obtain ⟨hv, hall⟩ := forall_mem_cons.mp hall
          refine ⟨x, xs.flatMap c.encode, hv, hb, ?_⟩
          exact map_eq_some_iff.mpr ⟨xs, (ih (hs x _ hb)).mpr ⟨hall, rfl⟩, rfl⟩

theorem stream_iff (c : Codec α) (hne : ∀ x, c.encode x ≠ []) :
    c.stream b = some xs ↔ (∀ x ∈ xs, c.Valid x) ∧ b = xs.flatMap c.encode :=
  c.readAll_iff hne (Nat.le_refl _)

end Codec
