import Mathlib.Data.List.Induction

/-!
# Ring buffers

A ring buffer writes to its cells in turn and keeps the last ones written. Its size is the number
of its cells, which never changes; the fields say that the next cell to write and the number of
cells in use stay within it.

`toList` is what the buffer holds, the oldest first. `toList_push` says what one more value does
to it, and `toList_pushAll` that the buffer holds the end of all that was written.
-/

universe u

/-- Cells that are written in turn. -/
structure RingBuffer (α : Type u) where
  cells : List α
  /-- The next cell to write. -/
  head : Nat
  /-- How many cells are in use. -/
  count : Nat
  head_lt : head < cells.length
  count_le : count ≤ cells.length

namespace RingBuffer

open List

variable {α : Type u}

def size (b : RingBuffer α) : Nat := b.cells.length

theorem size_pos (b : RingBuffer α) : 0 < b.size := Nat.zero_lt_of_lt b.head_lt

def empty (size : Nat) (hsize : 0 < size) (x : α) : RingBuffer α where
  cells := List.replicate size x
  head := 0
  count := 0
  head_lt := by rwa [List.length_replicate]
  count_le := Nat.zero_le _

/-- Write to the next cell. -/
def push (b : RingBuffer α) (x : α) : RingBuffer α where
  cells := b.cells.set b.head x
  head := (b.head + 1) % b.size
  count := if b.count < b.size then b.count + 1 else b.count
  head_lt := by
    rw [List.length_set]
    exact Nat.mod_lt _ b.size_pos
  count_le := by
    have hle := b.count_le
    rw [List.length_set, size]
    split_ifs with h
    · exact h
    · exact hle

def start (b : RingBuffer α) : Nat := (b.head + b.size - b.count) % b.size

/-- The cell `i` after the oldest. -/
def get (b : RingBuffer α) (i : Nat) : α :=
  b.cells.get ⟨(b.start + i) % b.size, Nat.mod_lt _ b.size_pos⟩

def toList (b : RingBuffer α) : List α := (List.range b.count).map b.get

variable {size : Nat}

@[simp] theorem size_empty (hs : 0 < size) (x : α) : (empty size hs x).size = size :=
  length_replicate

@[simp] theorem size_push (b : RingBuffer α) (x : α) : (b.push x).size = b.size := length_set

@[simp] theorem length_toList (b : RingBuffer α) : b.toList.length = b.count := by
  rw [toList, length_map, length_range]

/-- Below twice the size, going around takes away the size at most once. -/
theorem mod_size {a n : Nat} (h : a < 2 * n) : a % n = if a < n then a else a - n := by
  split_ifs with ha
  · exact Nat.mod_eq_of_lt ha
  · rw [Nat.mod_eq_sub_mod (by omega), Nat.mod_eq_of_lt (by omega)]

/-- The cell `i` after the oldest, by its place. -/
theorem get_eq (b : RingBuffer α) {i j : Nat} (hi : i < b.count)
    (hj : j = if b.head + b.size - b.count + i < b.size then b.head + b.size - b.count + i
      else b.head + b.size - b.count + i - b.size) :
    b.cells[j]? = some (b.get i) := by
  have hh : b.head < b.size := b.head_lt
  have hc : b.count ≤ b.size := b.count_le
  have hp : (b.start + i) % b.size = j := by
    rw [start, Nat.mod_add_mod, mod_size (by omega), hj]
  subst hp
  exact getElem?_eq_getElem _

/-- One more value comes last; in a full buffer it takes the place of the first. -/
theorem toList_push (b : RingBuffer α) (x : α) :
    (b.push x).toList = (b.toList ++ [x]).drop (b.count + 1 - b.size) := by
  have hh : b.head < b.size := b.head_lt
  have hco : b.count ≤ b.size := b.count_le
  have hc : ∀ j, (b.push x).cells[j]? = if b.head = j then some x else b.cells[j]? := by
    intro j
    change (b.cells.set b.head x)[j]? = _
    rw [getElem?_set, if_pos (show b.head < b.cells.length from b.head_lt)]
  have hn : (b.push x).head = if b.head + 1 < b.size then b.head + 1 else b.head + 1 - b.size :=
    mod_size (by omega)
  have hm : (b.push x).count = if b.count < b.size then b.count + 1 else b.count := rfl
  apply ext_getElem
  · rw [length_toList, hm, length_drop, length_append, length_toList, length_singleton]
    split_ifs <;> omega
  intro i hi hi'
  rw [length_toList] at hi
  obtain ⟨j, hj⟩ : ∃ j, j = _ := ⟨_, rfl⟩
  have hg := (b.push x).get_eq hi hj
  rw [hc] at hg
  rw [size_push, hn, hm] at hj
  rw [hm] at hi
  simp only [toList, getElem_map, getElem_range, getElem_drop, getElem_append, length_map,
    length_range]
  split_ifs with hold
  · -- The values that were there keep their cells.
    have hne : b.head ≠ j := by split_ifs at hj <;> omega
    rw [if_neg hne, b.get_eq hold (by split_ifs at hj ⊢ <;> omega)] at hg
    exact (Option.some.inj hg).symm
  · have heq : b.head = j := by split_ifs at hi hj <;> omega
    rw [if_pos heq] at hg
    rw [getElem_singleton]
    exact (Option.some.inj hg).symm

def pushAll (b : RingBuffer α) (xs : List α) : RingBuffer α := xs.foldl push b

@[simp] theorem pushAll_concat (b : RingBuffer α) (xs : List α) (x : α) :
    b.pushAll (xs ++ [x]) = (b.pushAll xs).push x := foldl_append

@[simp] theorem size_pushAll (b : RingBuffer α) (xs : List α) : (b.pushAll xs).size = b.size := by
  induction xs generalizing b with
  | nil => rfl
  | cons x xs ih => exact (ih (b.push x)).trans (b.size_push x)

/-- A buffer holds the end of what was written to it. -/
theorem toList_pushAll (hs : 0 < size) (y : α) (xs : List α) :
    ((empty size hs y).pushAll xs).toList = xs.drop (xs.length - size) := by
  induction xs using reverseRecOn with
  | nil =>
    rw [drop_nil]
    rfl
  | append_singleton xs x ih =>
    have hc : ((empty size hs y).pushAll xs).count = min xs.length size := by
      rw [← length_toList, ih, length_drop]
      omega
    rw [pushAll_concat, toList_push, ih, hc, size_pushAll, size_empty, length_append,
      length_singleton]
    by_cases hf : xs.length < size
    · rw [show xs.length - size = 0 by omega, show xs.length + 1 - size = 0 by omega,
        show min xs.length size + 1 - size = 0 by omega]
      rfl
    · rw [show min xs.length size + 1 - size = 1 by omega,
        show xs.length + 1 - size = (xs.length - size) + 1 by omega, ← drop_drop,
        drop_append_of_le_length (show xs.length - size ≤ xs.length by omega)]

end RingBuffer
