import Celeris.Conn.Wire
import Celeris.Data.RingBuffer

/-!
# Replay from a ring (`middleware/sse/replay_ring.go`)

The ring store keeps the last events of a stream under sequence numbers of 64 bits, which it
writes in decimal for their identifiers. `Since` gives a client that comes back the events behind
the last one it has seen.

What the store has been given is a list of events, and the identifiers are their places in it.
`replays_iff` says for which of them `Since` tells the truth: a number above all that were issued
is taken for the last one, unless the number after it wraps around.
-/

namespace Celeris.Sse

open Conn Client H1 List UInt64 Option RingBuffer

structure Event where
  id : Bytes
  event : Bytes
  data : Bytes
  retry : Int
deriving DecidableEq, Repr

/-- `ErrLastIDUnknown`, the error of `Since`. -/
inductive ReplayError where
  | lastIDUnknown
deriving DecidableEq, Repr

structure RingEntry where
  seq : UInt64
  event : Event
deriving DecidableEq, Repr

/-- `ringStore`: `entries`, `head`, `count` and `cap` are those of a ring. -/
structure RingStore where
  ring : RingBuffer RingEntry
  nextSeq : UInt64

/-- `strconv.FormatUint` in base 10. -/
def formatUint (n : UInt64) : Bytes := appendInt 10 n.toNat

/-- `strconv.ParseUint` in base 10, for 64 bits. -/
def parseUint (s : Bytes) : Option UInt64 :=
  (readNumber 10 decDigit s).bind fun n => if n < 2 ^ 64 then some (.ofNat n) else none

/-- The number of entries of `NewRingBuffer`. -/
def ringSize (size : Int) : Nat := if size ≤ 0 then 1 else size.toNat

theorem ringSize_pos (size : Int) : 0 < ringSize size := by
  unfold ringSize
  split_ifs
  · exact Nat.one_pos
  · omega

def newRingBuffer (size : Int) : RingStore where
  ring := .empty (ringSize size) (ringSize_pos size) ⟨0, ⟨[], [], [], 0⟩⟩
  nextSeq := 0

/-- `Append`: the identifier that is issued, and the store. The copies of the strings are those
strings. -/
def RingStore.append (r : RingStore) (e : Event) : Bytes × RingStore :=
  let seq := r.nextSeq + 1
  let id := formatUint seq
  (id, { ring := r.ring.push ⟨seq, { e with id := id }⟩, nextSeq := seq })

def RingStore.since (r : RingStore) (lastID : Bytes) : Except ReplayError (List Event) :=
  match if lastID = [] then some 0 else parseUint lastID with
  | none => .error .lastIDUnknown
  | some lastSeq =>
    if r.ring.count = 0 then if lastID ≠ [] then .error .lastIDUnknown else .ok []
    else
      let oldestSeq := (r.ring.get 0).seq
      if lastID ≠ [] ∧ lastSeq + 1 < oldestSeq then .error .lastIDUnknown
      else .ok ((r.ring.toList.filter fun entry => ¬ entry.seq ≤ lastSeq).map (·.event))

/-! ## The store after some events -/

/-- The store after some `Append` calls. -/
def RingStore.appendAll (r : RingStore) (es : List Event) : RingStore :=
  es.foldl (fun r e => (r.append e).2) r

/-- The identifiers that the calls return. -/
def RingStore.ids : RingStore → List Event → List Bytes
  | _, [] => []
  | r, e :: es => (r.append e).1 :: ids (r.append e).2 es

/-- The entry that is made of the event at a place, counted from 0. -/
def entryAt (i : Nat) (e : Event) : RingEntry :=
  ⟨.ofNat (i + 1), { e with id := formatUint (.ofNat (i + 1)) }⟩

def issued (es : List Event) : List Event := (es.mapIdx entryAt).map (·.event)

variable {r : RingStore} {es : List Event} {n : UInt64} {size : Int} {k : Nat} {lastID : Bytes}

theorem appendAll_newRingBuffer : ((newRingBuffer size).appendAll es).ring =
        (newRingBuffer size).ring.pushAll (es.mapIdx entryAt) ∧
      ((newRingBuffer size).appendAll es).nextSeq = .ofNat es.length := by
  induction es using reverseRecOn with
  | nil => exact ⟨rfl, rfl⟩
  | append_singleton es e ih =>
    have hs : ((newRingBuffer size).appendAll es).nextSeq + 1 = ofNat (es.length + 1) := by
      rw [ih.2, ofNat_add]
      rfl
    rw [RingStore.appendAll, foldl_append, foldl_cons, foldl_nil, ← RingStore.appendAll,
      RingStore.append, mapIdx_append, length_append]
    simp [hs, ih.1, entryAt]

/-- What the ring holds. -/
theorem toList_appendAll (size : Int) (es : List Event) :
    ((newRingBuffer size).appendAll es).ring.toList =
      (es.mapIdx entryAt).drop (es.length - ringSize size) := by
  rw [appendAll_newRingBuffer.1]
  have hl := toList_pushAll (ringSize_pos size) ⟨0, ⟨[], [], [], 0⟩⟩ (es.mapIdx entryAt)
  rwa [length_mapIdx] at hl

/-! ## Identifiers -/

theorem parseUint_formatUint : parseUint (formatUint n) = some n := by
  rw [parseUint, formatUint, readDecimal_appendInt, Option.bind_some, if_pos n.toNat_lt,
    UInt64.ofNat_toNat]

theorem ids_eq :
    r.ids es = es.mapIdx fun i _ => formatUint (r.nextSeq + .ofNat (i + 1)) := by
  induction es generalizing r with
  | nil => rfl
  | cons e es ih =>
    rw [RingStore.ids, ih, mapIdx_cons]
    refine congrArg₂ cons rfl ?_
    congr 1
    funext i _
    change formatUint (r.nextSeq + 1 + .ofNat (i + 1)) = _
    rw [UInt64.ofNat_add (i + 1) 1, UInt64.add_comm (.ofNat (i + 1)), UInt64.add_assoc]
    rfl

/-- One identifier is a smaller number than another. -/
def Precedes (a b : Bytes) : Prop := ∃ m n, parseUint a = some m ∧ parseUint b = some n ∧ m < n

/-- The numbers grow until they have used up their 64 bits. -/
theorem pairwise_ids_iff :
    ((newRingBuffer size).ids es).Pairwise Precedes ↔ es.length < 2 ^ 64 := by
  have hlen : ((newRingBuffer size).ids es).length = es.length := by rw [ids_eq, length_mapIdx]
  have hnu (i : Nat) (hi : i < ((newRingBuffer size).ids es).length) :
      parseUint (((newRingBuffer size).ids es)[i]) = some (.ofNat (i + 1)) := by
    simp only [ids_eq, getElem_mapIdx]
    rw [parseUint_formatUint]
    exact congrArg some (UInt64.zero_add _)
  rw [pairwise_iff_getElem]
  constructor
  · -- The number after the last of 64 bits is 0.
    intro h
    by_contra hl
    obtain ⟨m, n, hm, hn, hlt⟩ := h 0 (2 ^ 64 - 1) (by omega) (by omega) (by decide)
    rw [hnu, some.injEq] at hm hn
    subst hm hn
    exact absurd hlt (by decide)
  · intro h i j hi hj hij
    refine ⟨_, _, hnu i hi, hnu j hj, ?_⟩
    rw [lt_iff_toNat_lt, toNat_ofNat_of_lt' (show i + 1 < 2 ^ 64 by omega),
      toNat_ofNat_of_lt' (show j + 1 < 2 ^ 64 by omega)]
    omega

/-! ## What a client is given -/

def maxUint64 : UInt64 := .ofNat (2 ^ 64 - 1)

/-- The oldest entry in the ring. -/
theorem get_appendAll (hne : es ≠ []) : ((newRingBuffer size).appendAll es).ring.count ≠ 0 ∧
      (((newRingBuffer size).appendAll es).ring.get 0).seq =
        .ofNat (es.length - ringSize size + 1) := by
  have hp := length_pos_iff.mpr hne
  have hs := ringSize_pos size
  have hl := toList_appendAll size es
  have hc : ((newRingBuffer size).appendAll es).ring.count =
      es.length - (es.length - ringSize size) := by
    rw [← RingBuffer.length_toList, hl, length_drop, length_mapIdx]
  refine ⟨by omega, ?_⟩
  have hf : ((newRingBuffer size).appendAll es).ring.toList[0]? =
      some (((newRingBuffer size).appendAll es).ring.get 0) := by
    rw [RingBuffer.toList, getElem?_map, getElem?_range (by omega)]
    rfl
  rw [hl, getElem?_drop, getElem?_mapIdx, getElem?_eq_getElem (by omega), map_some,
    some.injEq] at hf
  rw [← hf]
  rfl

theorem seq_mapIdx_entryAt (hl : es.length < 2 ^ 64) (n : UInt64) {i : Nat}
    (hi : i < (es.mapIdx entryAt).length) : (es.mapIdx entryAt)[i].seq ≤ n ↔ i < n.toNat := by
  rw [length_mapIdx] at hi
  rw [getElem_mapIdx, entryAt, le_iff_toNat_le,
    toNat_ofNat_of_lt' (show i + 1 < 2 ^ 64 by omega), Nat.succ_le_iff]

/-- The entries behind a number are those from the place it stands for. -/
theorem filter_mapIdx_entryAt (hl : es.length < 2 ^ 64) (hk : k ≤ n.toNat) :
    (((es.mapIdx entryAt).drop k).filter fun entry => ¬ entry.seq ≤ n).map (·.event) =
      (issued es).drop n.toNat := by
  have hs : (((es.mapIdx entryAt).drop k).take (n.toNat - k)).filter
      (fun entry => ¬ entry.seq ≤ n) = [] := by
    rw [filter_eq_nil_iff]
    intro entry he
    obtain ⟨i, hi, rfl⟩ := mem_iff_getElem.mp he
    rw [length_take, length_drop] at hi
    have hle := (seq_mapIdx_entryAt hl n (i := k + i) (by omega)).mpr (by omega)
    simpa using hle
  have hm : ((es.mapIdx entryAt).drop n.toNat).filter (fun entry => ¬ entry.seq ≤ n) =
      (es.mapIdx entryAt).drop n.toNat := by
    rw [filter_eq_self]
    intro entry he
    obtain ⟨i, hi, rfl⟩ := mem_iff_getElem.mp he
    rw [length_drop] at hi
    have hlt := (seq_mapIdx_entryAt hl n (i := n.toNat + i) (by omega)).not.mpr (by omega)
    simpa using hlt
  have hd : ((es.mapIdx entryAt).drop k).drop (n.toNat - k) = (es.mapIdx entryAt).drop n.toNat := by
    rw [drop_drop, Nat.add_sub_cancel' hk]
  rw [← take_append_drop (n.toNat - k) ((es.mapIdx entryAt).drop k), filter_append, hs, hd,
    hm, nil_append, map_drop, issued]

/-- The number behind one of 64 bits is smaller than another, unless it wraps around to 0. -/
theorem succ_lt_iff (hk : k + 1 < 2 ^ 64) :
    n + 1 < UInt64.ofNat (k + 1) ↔ n = maxUint64 ∨ n.toNat < k := by
  have hlt := n.toNat_lt
  rw [UInt64.lt_iff_toNat_lt, UInt64.toNat_ofNat_of_lt' hk, UInt64.toNat_add, ← UInt64.toNat_inj]
  rw [show toNat 1 = 1 from rfl, show maxUint64.toNat = 2 ^ 64 - 1 from rfl]
  omega

/-- `Since`, of a number. -/
theorem since_eq (size : Int) (hl : es.length < 2 ^ 64) (hid : lastID ≠ [])
    (hn : parseUint lastID = some n) : ((newRingBuffer size).appendAll es).since lastID =
      if es = [] ∨ n = maxUint64 ∨ n.toNat < es.length - ringSize size then .error .lastIDUnknown
      else .ok ((issued es).drop n.toNat) := by
  rw [RingStore.since, if_neg hid, hn]
  simp only [ne_eq, hid, not_false_eq_true, true_and, if_true]
  by_cases hes : es = []
  · subst hes
    rfl
  have hs := ringSize_pos size
  obtain ⟨hc, ho⟩ := get_appendAll hes
  rw [if_neg hc, ho, toList_appendAll]
  simp only [succ_lt_iff (show es.length - ringSize size + 1 < 2 ^ 64 by omega), hes, false_or]
  split_ifs with hg
  · rfl
  · rw [filter_mapIdx_entryAt hl (by omega)]

/-! ## Gaps -/

/-- A client is given all events behind the one it has seen, or told that its identifier is
unknown; and the latter if it is no number, no number that was issued, or events behind it are
gone. The identifiers grow. -/
structure Replays (size : Int) (es : List Event) (lastID : Bytes) : Prop where
  all : ((newRingBuffer size).appendAll es).since lastID = .error .lastIDUnknown ∨
    ∃ n, parseUint lastID = some n ∧
      ((newRingBuffer size).appendAll es).since lastID = .ok ((issued es).drop n.toNat)
  malformed : parseUint lastID = none →
    ((newRingBuffer size).appendAll es).since lastID = .error .lastIDUnknown
  unissued : ∀ n, parseUint lastID = some n → es.length < n.toNat →
    ((newRingBuffer size).appendAll es).since lastID = .error .lastIDUnknown
  overwritten : ∀ n, parseUint lastID = some n → n.toNat < es.length - ringSize size →
    ((newRingBuffer size).appendAll es).since lastID = .error .lastIDUnknown
  increasing : ((newRingBuffer size).ids es).Pairwise Precedes

/-- Replay hides no gap as long as the numbers last, exactly for the identifiers that are not above
all that were issued, the largest number apart. -/
theorem replays_iff (size : Int) (es : List Event) (lastID : Bytes) (hid : lastID ≠ []) :
    Replays size es lastID ↔
      es.length < 2 ^ 64 ∧ (es = [] ∨ ∀ n, parseUint lastID = some n → n.toNat ≤ es.length ∨
        n = maxUint64) := by
  constructor
  · intro h
    have hl := pairwise_ids_iff.mp h.increasing
    refine ⟨hl, or_iff_not_imp_left.mpr fun hes n hn => ?_⟩
    by_contra hnot
    obtain ⟨ha, hmax⟩ := not_or.mp hnot
    have hs := h.unissued n hn (Nat.not_le.mp ha)
    rw [since_eq size hl hid hn, if_neg (by simp only [hes, hmax, false_or]; omega)] at hs
    cases hs
  · rintro ⟨hl, h⟩
    cases hn : parseUint lastID with
    | none =>
      have hs {r : RingStore} : r.since lastID = .error .lastIDUnknown := by rw [RingStore.since,
        if_neg hid, hn]
      exact ⟨.inl hs, fun _ => hs, fun _ _ _ => hs, fun _ _ _ => hs,
        pairwise_ids_iff.mpr hl⟩
    | some n =>
      have hs := since_eq size hl hid hn
      have hsome : parseUint lastID ≠ none := hn ▸ some_ne_none n
      refine ⟨?_, fun hnone => absurd hnone hsome, ?_, ?_, pairwise_ids_iff.mpr hl⟩
      · rw [hs]
        split_ifs
        · exact .inl rfl
        · exact .inr ⟨n, hn, rfl⟩
      · intro m hm ha
        rw [hn, some.injEq] at hm
        subst hm
        rw [hs, if_pos]
        obtain hes | hi := h
        · exact .inl hes
        · exact .inr (.inl ((hi n hn).resolve_left (by omega)))
      · intro m hm hg
        rw [hn, some.injEq] at hm
        subst hm
        rw [hs, if_pos (.inr (.inr hg))]

def tick (name : String) : Event := ⟨[], ascii name, [], 0⟩

theorem replays_iff_overwritten :
    ascii "2" ≠ [] ∧ Replays 2 [tick "a", tick "b", tick "c"] (ascii "2") := by
  have hp : parseUint (ascii "2") = some 2 := by decide
  refine ⟨by decide, (replays_iff _ _ _ (by decide)).mpr ⟨by decide, .inr fun n hn => .inl ?_⟩⟩
  cases hn
  decide

/-- A client that has seen more than was issued is told that it has missed nothing. -/
theorem since_ahead : ((newRingBuffer 2).appendAll [tick "a"]).since (ascii "7") = .ok [] ∧
      ¬ Replays 2 [tick "a"] (ascii "7") := by
  have hs : ((newRingBuffer 2).appendAll [tick "a"]).since (ascii "7") = .ok [] := by decide
  refine ⟨hs, fun h => ?_⟩
  have hu := h.unissued 7 (by decide) (by decide)
  cases hu

end Celeris.Sse
