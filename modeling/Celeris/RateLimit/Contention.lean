import Celeris.Memcached.Dialects
import Celeris.RateLimit.Clocks

/-!
# Contention on a key of the memcached store

The loops of `Allow` and `Undo` over the commands of the client, where other clients change the key
between two commands. `retried` is what the package says of them: a round in which the key has
changed is done again, and a call gives up only when it has done all its rounds.

The client reports a lost `cas` as an error, and in the binary dialect a lost `add` too, with the
sentinel of the lost `cas`; the loops return such errors at once. What they do again is only a lost
`add` of the text dialect (`contention_retried_iff`).
-/

namespace Celeris.RateLimit

open Memcached Call Server List Option

variable {K : Type} [Field K] [LinearOrder K] [IsStrictOrderedRing K] [FloorRing K]
  [Int64Conversion K]

/-! ## The loops -/

/-- What a command meets: the server and a connection as they are then, and the time. -/
structure Meeting where
  srv : Server
  conn : Conn
  clock : Int

/-- What the two commands of a round meet. -/
structure Round where
  gets : Meeting
  write : Meeting

/-- The blobs that a storage command leaves in the store. -/
def applied (srv : Server) (cmd : Storage) (key blob : Bytes) (cas : UInt64) : List Bytes :=
  if srv.store cmd key blob cas = .stored then [blob] else []

section

variable (l : Limit K) (key : Bytes) (now ttl : Int)

/-- A round of `Allow`: its result, if it is not done again, and the blobs it leaves in the
store. -/
def allowRound (r : Round) : Option (Except StoreError Decision) × List Bytes :=
  let c := got l { now := now } (gets r.gets.srv r.gets.conn key)
  let w := r.write
  match c.phase with
  | .write cas state allowed =>
    let blob := encodeBucket state
    let (c, stored) :=
      if cas = 0 then
        (c.added l state allowed (storeCmd w.srv w.conn w.clock .add key blob ttl),
          applied w.srv .add key blob 0)
      else
        (c.swapped l state allowed (casCmd w.srv w.conn w.clock key blob cas ttl),
          applied w.srv .cas key blob cas)
    match c.phase with
    | .returned result => (some result, stored)
    | _ => (none, stored)
  | .returned result => (some result, [])
  | .gets => (none, [])

/-- The bucket with a token put back. -/
def putBack (b : Bucket K) : Bucket K :=
  let tokens := b.tokens + 1
  { b with tokens := if tokens > l.burst then (l.burst : K) else tokens }

/-- A round of `Undo`. -/
def undoRound (r : Round) : Option (Except StoreError Unit) × List Bytes :=
  let w := r.write
  match gets r.gets.srv r.gets.conn key with
  | .error .cacheMiss => (some (.ok ()), [])
  | .error e => (some (.error (.client e)), [])
  | .ok item =>
    match (decodeBucket item.value : Option (Bucket K)) with
    | none => (some (.error .badBucket), [])
    | some state =>
      let blob := encodeBucket (putBack l state)
      let stored := applied w.srv .cas key blob item.cas
      match casCmd w.srv w.conn w.clock key blob item.cas ttl with
      | .error e => (some (.error (.client e)), stored)
      | .ok true => (some (.ok ()), stored)
      | .ok false => (none, stored)

end

/-- The loop over rounds, of which there are `maxCASRetries + 1`. -/
def loop {α : Type} (round : Round → Option (Except StoreError α) × List Bytes) :
    List Round → Except StoreError α × List Bytes
  | [] => (.error .exhausted, [])
  | r :: rounds =>
    match round r with
    | (some result, stored) => (result, stored)
    | (none, stored) =>
      let (result, later) := loop round rounds
      (result, stored ++ later)

/-! ## What the package says -/

/-- The first round that is not lost gives the result; what is written is what it writes. -/
def retried {α : Type} (outcome : Round → Option (α × List Bytes)) :
    List Round → Except StoreError α × List Bytes
  | [] => (.error .exhausted, [])
  | r :: rounds =>
    match outcome r with
    | some (x, stored) => (.ok x, stored)
    | none => retried outcome rounds

/-- Every round that is lost, up to the first that is not, is of some kind. -/
def Patient {α : Type} (outcome : Round → Option (α × List Bytes)) (kind : Round → Prop) :
    List Round → Prop
  | [] => True
  | r :: rounds => outcome r = none → kind r ∧ Patient outcome kind rounds

def Meeting.item (key : Bytes) (m : Meeting) : Option Item := m.srv.items key

def Meeting.bucket (key : Bytes) (m : Meeting) : Option (Bucket K) :=
  (m.item key).bind fun it => decodeBucket it.value

def Round.Changed (key : Bytes) (r : Round) : Prop := r.gets.item key ≠ r.write.item key

instance (key : Bytes) (r : Round) : Decidable (r.Changed key) :=
  inferInstanceAs (Decidable (_ ≠ _))

/-- A call decides by the bucket that it replaces, and replaces it. -/
def allowOutcome (l : Limit K) (key : Bytes) (now : Int) (r : Round) :
    Option (Decision × List Bytes) :=
  let next := memcachedRefill l ((r.write.bucket key).getD ⟨l.burst, now⟩) now
  if r.Changed key then none else some (allowDecision l now next.2 next.1, [encodeBucket next.2])

/-- A call puts a token back into the bucket that it replaces; without one there is nothing to
do. -/
def undoOutcome (l : Limit K) (key : Bytes) (r : Round) : Option (Unit × List Bytes) :=
  if r.gets.item key = none then some ((), [])
  else if r.Changed key then none
  else some ((), (r.write.bucket key).toList.map fun b => encodeBucket (putBack l b))

/-- A command works: the connection is idle, and under the key is a bucket or nothing. -/
structure Meeting.Works (binary : Bool) (key : Bytes) (m : Meeting) : Prop where
  idle : m.conn.Idle
  dialect : m.conn.binary = binary
  room : 16 ≤ m.srv.limit
  bucket : ∀ it ∈ m.item key, it.value.length = 16 ∧ it.cas ≠ 0

/-- The commands of a round work, and a token stays with its item. -/
structure Round.Works (binary : Bool) (key : Bytes) (r : Round) : Prop where
  gets : r.gets.Works binary key
  write : r.write.Works binary key
  token : ∀ it ∈ r.gets.item key, ∀ it' ∈ r.write.item key, it'.cas = it.cas → it' = it

/-! ## The commands -/

section

variable {binary : Bool} {key blob : Bytes} {m : Meeting} {cas : UInt64}

theorem gets_eq (h : m.Works binary key) (hk : validateKey key = .ok ()) :
    gets m.srv m.conn key = getsReply key (m.item key) := by
  have hl : ∀ it ∈ m.srv.items key, it.value.length = 16 := fun it hit => (h.bucket it hit).1
  unfold Meeting.item
  cases binary with
  | false =>
    rw [gets_text h.idle h.dialect hk]
    cases hi : m.srv.items key with
    | none => rfl
    | some it => exact if_pos ((hl it hi).le.trans (by decide))
  | true =>
    rw [gets_binary h.idle h.dialect hk]
    cases hi : m.srv.items key with
    | none => rfl
    | some it =>
      have hl := hl it hi
      refine if_neg (not_or.mpr ⟨fun hn => ?_, ?_⟩)
      · rw [hn] at hl
        cases hl
      · rw [hl]
        decide

theorem arrives_blob (hk : validateKey key = .ok ()) (hb : blob.length = 16) :
    arrives 8 key blob = some blob := by
  have hl := length_le_of_validateKey hk
  have hm : (8 + key.length + blob.length) % 2 ^ 32 = 8 + key.length + blob.length :=
    Nat.mod_eq_of_lt (by omega)
  rw [arrives, hm, if_neg (by omega), Nat.add_sub_cancel_left, take_length]

theorem store_blob (h : m.Works binary key) (hb : blob.length = 16) {cmd : Storage} :
    m.srv.store cmd key blob cas = m.srv.place cmd key blob cas := if_neg (by have := h.room; omega)

section

variable (ttl : Int) (h : m.Works binary key) (hk : validateKey key = .ok ())
  (hb : blob.length = 16)

include ttl h hk hb

theorem add_eq : storeCmd m.srv m.conn m.clock .add key blob ttl = addReply binary (m.item key) ∧
      applied m.srv .add key blob 0 = if m.item key = none then [blob] else [] := by
  unfold Meeting.item applied
  rw [store_blob h hb]
  cases binary with
  | false =>
    rw [storeCmd_text h.idle h.dialect hk, store_blob h hb]
    cases hi : m.srv.items key <;> simp [place, hi, addReply, textVerdict]
  | true =>
    rw [storeCmd_binary h.idle h.dialect hk (by decide), Storage.extras, arrives_blob hk hb,
      elim_some, store_blob h hb]
    · cases hi : m.srv.items key <;> simp [place, hi, addReply, binaryVerdict]
    all_goals
      intro he
      cases he

theorem cas_eq (hc : cas ≠ 0) :
    casCmd m.srv m.conn m.clock key blob cas ttl = casReply cas (m.item key) ∧
      applied m.srv .cas key blob cas = if casReply cas (m.item key) = .ok true then [blob]
        else [] := by
  rw [casCmd_eq hk hc, applied, store_blob h hb]
  unfold Meeting.item
  cases binary with
  | false =>
    rw [casBytes_text h.idle h.dialect, store_blob h hb]
    cases hi : m.srv.items key with
    | none => simp [place, hi, casReply, textVerdict]
    | some it => by_cases ht : it.cas = cas <;> simp [place, hi, casReply, textVerdict, ht]
  | true =>
    rw [casBytes_binary h.idle h.dialect (length_le_of_validateKey hk) hc, arrives_blob hk hb,
      elim_some, store_blob h hb]
    cases hi : m.srv.items key with
    | none => simp [place, hi, casReply, binaryVerdict]
    | some it => by_cases ht : it.cas = cas <;> simp [place, hi, casReply, binaryVerdict, ht]

end

end

/-! ## The rounds -/

theorem length_encodeBucket (b : Bucket K) : (encodeBucket b).length = 16 := by simp [encodeBucket]

/-- A round that is not lost does what it should; one that is lost is done again if it is of some
kind, and reported otherwise. -/
inductive Meets {α : Type} (round : Round → Option (Except StoreError α) × List Bytes)
    (outcome : Round → Option (α × List Bytes)) (kind : Round → Prop) (r : Round) : Prop
  | won {x : α} {stored : List Bytes} (houtcome : outcome r = some (x, stored))
    (hround : round r = (some (.ok x), stored))
  | again (houtcome : outcome r = none) (hkind : kind r) (hround : round r = (none, []))
  | reported (e : ClientError) (houtcome : outcome r = none) (hkind : ¬ kind r)
    (hround : round r = (some (.error (.client e)), []))

variable {α : Type} {rounds : List Round} {binary : Bool} {cas cas' : UInt64}

/-- The error of a command is not what should be returned. -/
theorem retried_ne {outcome : Round → Option (α × List Bytes)} {e : ClientError}
    {stored : List Bytes} : retried outcome rounds ≠ (.error (.client e), stored) := by
  induction rounds with
  | nil => exact nofun
  | cons r rounds ih =>
    rw [retried]
    split
    · exact nofun
    · exact ih

theorem loop_eq_iff {round : Round → Option (Except StoreError α) × List Bytes}
    {outcome : Round → Option (α × List Bytes)} {kind : Round → Prop}
    (h : ∀ r ∈ rounds, Meets round outcome kind r) :
    loop round rounds = retried outcome rounds ↔ Patient outcome kind rounds := by
  induction rounds with
  | nil => exact ⟨fun _ => trivial, fun _ => rfl⟩
  | cons r rounds ih =>
    obtain ⟨hr, h⟩ := forall_mem_cons.mp h
    rw [loop, retried, Patient]
    cases hr with rw [ho, hro]
    | won ho hro => exact ⟨fun _ => nofun, fun _ => rfl⟩
    | again ho hk hro =>
      simp only [nil_append, hk, true_and, forall_const]
      exact ih h
    | reported e ho hk hro =>
      simp only [hk, false_and, forall_const, iff_false]
      exact retried_ne.symm

section

variable {binary : Bool} {key : Bytes} {r : Round} {l : Limit K}

/-- A `cas` over the item that was read fails exactly if the key has changed. -/
theorem casReply_of_works {it : Item} (h : r.Works binary key) (hs : r.gets.item key = some it) :
    (¬ r.Changed key ∧ r.write.item key = some it) ∨
      (r.Changed key ∧ ∃ e, casReply it.cas (r.write.item key) = .error e) := by
  unfold Round.Changed
  rw [hs]
  cases hf : r.write.item key with
  | none => exact .inr ⟨nofun, _, rfl⟩
  | some it' =>
    by_cases ht : it'.cas = it.cas
    · obtain rfl := h.token it hs it' hf ht
      exact .inl ⟨not_not.mpr rfl, rfl⟩
    · refine .inr ⟨fun heq => ht ?_, _, if_neg ht⟩
      rw [some.inj heq]

theorem meets_allow (h : r.Works binary key) (hk : validateKey key = .ok ()) {now ttl : Int} :
    Meets (allowRound l key now ttl) (allowOutcome l key now) (fun r => binary = false ∧
      r.gets.item key = none) r := by
  have hg := gets_eq h.gets hk
  cases hs : r.gets.item key with
  | none =>
    have ha (b : Bucket K) := add_eq ttl h.write hk (length_encodeBucket b)
    cases hf : r.write.item key with
    | none =>
      have hsame : ¬ r.Changed key := not_not.mpr (hs.trans hf.symm)
      refine .won (if_neg hsame) ?_
      simp [allowRound, hg, hs, getsReply, got, ha, hf, addReply, added, Meeting.bucket]
    | some it =>
      have hc : r.Changed key := by simp [Round.Changed, hs, hf]
      cases binary with
      | false =>
        refine .again (if_pos hc) ⟨rfl, hs⟩ ?_
        simp [allowRound, hg, hs, getsReply, got, ha, hf, addReply, added, retry, maxCASRetries]
      | true =>
        refine .reported .casConflict (if_pos hc) (by simp) ?_
        simp [allowRound, hg, hs, getsReply, got, ha, hf, addReply, added]
  | some it =>
    have hz := (h.gets.bucket it hs).2
    have hcas (b : Bucket K) := cas_eq ttl h.write hk (length_encodeBucket b) hz
    obtain ⟨hsame, hf⟩ | ⟨hc, e, hr⟩ := casReply_of_works h hs
    · refine .won (if_neg hsame) ?_
      simp [allowRound, hg, hs, getsReply, got, hz, hcas, casReply, swapped, Meeting.bucket, hf]
    · refine .reported e (if_pos hc) (by simp [hs]) ?_
      simp [allowRound, hg, hs, getsReply, got, hz, hcas, hr, swapped]

theorem meets_undo (h : r.Works binary key) (hk : validateKey key = .ok ()) {ttl : Int} :
    Meets (undoRound l key ttl) (undoOutcome l key) (fun _ => False) r := by
  have hg := gets_eq h.gets hk
  cases hs : r.gets.item key with
  | none => exact .won (if_pos hs) (by simp [undoRound, hg, hs, getsReply])
  | some it =>
    obtain ⟨hl, hz⟩ := h.gets.bucket it hs
    have hcas (b : Bucket K) := cas_eq ttl h.write hk (length_encodeBucket b) hz
    have hsome : r.gets.item key ≠ none := by simp [hs]
    obtain ⟨b, hd⟩ : ∃ b : Bucket K, decodeBucket it.value = some b := ⟨_, if_neg (not_not.mpr hl)⟩
    obtain ⟨hsame, hf⟩ | ⟨hc, e, hr⟩ := casReply_of_works h hs
    · refine .won ((if_neg hsome).trans (if_neg hsame)) ?_
      simp [undoRound, hg, hs, getsReply, hd, hcas, casReply, Meeting.bucket, hf]
    · refine .reported e ((if_neg hsome).trans (if_pos hc)) not_false ?_
      simp [undoRound, hg, hs, getsReply, hd, hcas, hr]

end

/-! ## Contention -/

/-- Contention is done again, as the package says, exactly if every round that `Allow` loses before
it wins is a lost `add` of the text dialect, and `Undo` does not lose its first. -/
theorem contention_retried_iff (l : Limit K) {binary : Bool} {key : Bytes} (now ttl : Int)
    {rounds : List Round}
    (hkey : validateKey key = .ok ()) (hlen : rounds.length = maxCASRetries + 1)
    (hworks : ∀ r ∈ rounds, r.Works binary key) :
    (loop (allowRound l key now ttl) rounds = retried (allowOutcome l key now) rounds ↔
      Patient (allowOutcome l key now) (fun r => binary = false ∧ r.gets.item key = none) rounds) ∧
    (loop (undoRound l key ttl) rounds = retried (undoOutcome l key) rounds ↔
      ∀ r ∈ rounds.head?, r.gets.item key = none ∨ ¬ r.Changed key) := by
  refine ⟨loop_eq_iff fun r hr => meets_allow (hworks r hr) hkey, ?_⟩
  rw [loop_eq_iff fun r hr => meets_undo (hworks r hr) hkey]
  cases rounds with
  | nil => cases hlen
  | cons r rounds =>
    rw [Patient, undoOutcome]
    split_ifs <;> simp [*]

/-- A command that finds an empty bucket with a token, or none if it is 0. -/
def finding (binary : Bool) (cas : UInt64) : Meeting :=
  ⟨⟨fun _ => if cas = 0 then none else some ⟨List.replicate 16 0, 0, cas⟩, 1024, 1⟩, newConn binary,
    0⟩

/-- Between the commands of the first round the key changes, and then no more. -/
def changing (binary : Bool) (cas cas' : UInt64) : List Round :=
  ⟨finding binary cas, finding binary cas'⟩ ::
    List.replicate maxCASRetries ⟨finding binary cas', finding binary cas'⟩

theorem finding_works :
    Round.Works binary (ascii "k") ⟨finding binary cas, finding binary cas'⟩ := by
  have hi {n : UInt64} {it : Item} (h : it ∈ (finding binary n).item (ascii "k")) :
      n ≠ 0 ∧ ⟨replicate 16 0, 0, n⟩ = it := by
    simpa [finding, Meeting.item, ite_none_left_eq_some] using h
  have hw (n : UInt64) : (finding binary n).Works binary (ascii "k") := by
    refine ⟨newConn_idle, rfl, (by decide : 16 ≤ 1024), fun it hit => ?_⟩
    obtain ⟨hn, rfl⟩ := hi hit
    exact ⟨rfl, hn⟩
  refine ⟨hw cas, hw cas', fun it hit it' hit' ht => ?_⟩
  obtain ⟨-, rfl⟩ := hi hit
  obtain ⟨-, rfl⟩ := hi hit'
  rw [show cas' = cas from ht]

theorem changing_works : ∀ r ∈ changing binary cas cas', r.Works binary (ascii "k") := by
  refine forall_mem_cons.mpr ⟨finding_works, fun r hr => ?_⟩
  rw [eq_of_mem_replicate hr]
  exact finding_works

theorem contention_retried_iff_add : validateKey (ascii "k") = .ok () ∧
      loop (allowRound onePerSecond (ascii "k") 0 0) (changing false 0 1) =
        retried (allowOutcome onePerSecond (ascii "k") 0) (changing false 0 1) := by
  refine ⟨rfl, (contention_retried_iff onePerSecond 0 0 rfl rfl changing_works).1.mpr ?_⟩
  exact fun _ => ⟨⟨rfl, rfl⟩, nofun⟩

/-- A lost `cas` is reported by `Allow` and `Undo`, and a lost `add` by `Allow` in the binary
dialect, although the next round would do. -/
theorem conflict_reported : loop (allowRound onePerSecond (ascii "k") 0 0) (changing false 1 2) ≠
      retried (allowOutcome onePerSecond (ascii "k") 0) (changing false 1 2) ∧
    loop (undoRound onePerSecond (ascii "k") 0) (changing true 1 0) ≠
      retried (undoOutcome onePerSecond (ascii "k")) (changing true 1 0) ∧
    loop (allowRound onePerSecond (ascii "k") 0 0) (changing true 0 1) ≠
      retried (allowOutcome onePerSecond (ascii "k") 0) (changing true 0 1) := by
  have hc : loop (allowRound onePerSecond (ascii "k") 0 0) (changing false 1 2) =
    (.error (.client .casConflict), []) := by decide +kernel
  have hg : loop (undoRound onePerSecond (ascii "k") 0) (changing true 1 0) =
    (.error (.client .cacheMiss), []) := by decide +kernel
  have ha : loop (allowRound onePerSecond (ascii "k") 0 0) (changing true 0 1) =
    (.error (.client .casConflict), []) := by decide +kernel
  rw [hc, hg, ha]
  exact ⟨retried_ne.symm, retried_ne.symm, retried_ne.symm⟩

end Celeris.RateLimit
