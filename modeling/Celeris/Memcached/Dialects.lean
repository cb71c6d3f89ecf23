import Celeris.Memcached.Exchange

/-!
# The two dialects compared

The same operation on the same server, once over a connection of the text dialect and once
over one of the binary dialect. The results agree when both are the same value, or both are
errors with the same sentinel, if any.

They do not always. A refused `add` and a refused `replace` have statuses of their own in the
binary dialect, which are translated to other sentinels than `NOT_STORED`; `Gets` takes a hit
with an empty value for a miss; a value near the limit of the readers fails in one dialect
only, and the binary commands do not look at the error it leaves; and the length of a body is
written modulo 2^32.
-/

namespace Celeris.Memcached

open List Server State BigEndian ClientError BinaryRequest Operation Nat Function

/-! ## Agreement -/

/-- The sentinel of an error, which callers test for. -/
def ClientError.sentinel : ClientError → Option ClientError
  | .memcached .. | .connection _ | .opaqueMismatch .. => none
  | e => some e

def Agree {α : Type} : Except ClientError α → Except ClientError α → Prop
  | .ok x, .ok y => x = y
  | .error d, .error e => d.sentinel = e.sentinel
  | _, _ => False

theorem agree_map_iff {α β : Type} {f : α → β} (hf : Function.Injective f)
    {x y : Except ClientError α} : Agree (f <$> x) (f <$> y) ↔ Agree x y := by
  cases x with
  | error d => cases y <;> rfl
  | ok a =>
    cases y with
    | error e => rfl
    | ok b => exact hf.eq_iff

/-- The value that the server reads from the body of a request with so many bytes of extras:
the length of the body is written modulo 2^32. -/
def arrives (extras : Nat) (key value : Bytes) : Option Bytes :=
  let n := (extras + key.length + value.length) % 2 ^ 32
  if n < extras + key.length then none else some (value.take (n - (extras + key.length)))

/-- The store has room for a value exactly if it has room for the one that arrives. -/
def Server.SameRoom (srv : Server) (value : Bytes) (arrived : Option Bytes) : Prop :=
  srv.limit < value.length ↔ ∀ v ∈ arrived, srv.limit < v.length

/-- The arguments of an operation are accepted. -/
def Operation.Valid : Operation → Prop
  | .cas key _ casID _ => validateKey key = .ok () ∧ casID ≠ 0
  | .getMulti keys => ∀ key ∈ keys, validateKey key = .ok ()
  | .set key _ _ | .add key _ _ | .replace key _ _ | .append key _ | .prepend key _ | .get key
  | .gets key
  | .incr key _ | .decr key _ | .delete key | .touch key _ => validateKey key = .ok ()

/-- An item has room for more of a value exactly if it has room for the value that arrives. -/
def Server.SameConcat (srv : Server) (key value v : Bytes) : Prop :=
  ∀ it ∈ srv.items key, srv.limit < it.value.length + value.length ↔
    srv.limit < it.value.length + v.length

/-- Where the dialects agree on an operation whose arguments are accepted. -/
def Operation.Alike (srv : Server) : Operation → Prop
  | .set key value _ | .cas key value _ _ => srv.SameRoom value (arrives 8 key value)
  | .add key value _ =>
    srv.SameRoom value (arrives 8 key value) ∧ (srv.limit < value.length ∨ srv.items key = none)
  | .replace key value _ =>
    srv.SameRoom value (arrives 8 key value) ∧ (srv.limit < value.length ∨ srv.items key ≠ none)
  | .append key value | .prepend key value =>
    srv.SameRoom value (arrives 0 key value) ∧
      (srv.limit < value.length ∨ ∀ v ∈ arrives 0 key value, srv.SameConcat key value v)
  | .get key => ∀ it ∈ srv.items key, 4 + it.value.length ≤ maxValueLen
  | .gets key => ∀ it ∈ srv.items key, it.value ≠ [] ∧ 4 + it.value.length ≤ maxValueLen
  | .getMulti keys =>
    (∃ key ∈ keys, ∃ it ∈ srv.items key, maxValueLen < 4 + key.length + it.value.length) →
      ∃ key ∈ keys, ∃ it ∈ srv.items key, maxValueLen < it.value.length
  | .incr .. | .decr .. | .delete _ | .touch .. => True

/-! ## What the server reads -/

variable {key : Bytes}

theorem length_le_of_validateKey (h : validateKey key = .ok ()) : key.length ≤ 250 := by
  unfold validateKey at h
  split_ifs at h with hk
  exact not_lt.mp fun hl => hk (.inr (.inl hl))

theorem validateKey_error (h : validateKey key ≠ .ok ()) :
    validateKey key = .error .malformedKey := by
  unfold validateKey at h ⊢
  split_ifs at h ⊢ with hk
  · rfl
  · exact (h rfl).elim

theorem arrives_nil {n : Nat} (h : n + key.length < 2 ^ 32) : arrives n key [] = some [] := by
  simp only [arrives, length_nil, add_zero, mod_eq_of_lt h, lt_self_iff_false, if_false, take_nil]

section Wire

variable {srv : Server} {opcode : Opcode} {extras key value : Bytes} {cas : UInt64} {o : UInt32}

/-- The server reads the extras and the key that were written, and the value up to the length
that was. -/
theorem parts_appendRequest (he : extras.length ≤ 20) (hkey : key.length ≤ 250) :
    (appendRequest opcode extras key value cas o).parts =
      (arrives extras.length key value).map fun v => (extras, key, v) := by
  have hk : (UInt16.ofNat key.length).toNat = key.length :=
    UInt16.toNat_ofNat_of_lt' (by change key.length < 65536; omega)
  have hex : (UInt8.ofNat extras.length).toNat = extras.length :=
    UInt8.toNat_ofNat_of_lt' (by change extras.length < 256; omega)
  have hb : (UInt32.ofNat (extras.length + key.length + value.length)).toNat =
      (extras.length + key.length + value.length) % 2 ^ 32 := UInt32.toNat_ofNat'
  simp only [parts, appendRequest, arrives, hk, hex, hb]
  split_ifs with hn
  · rfl
  · have hf : (extras ++ key).length = extras.length + key.length := length_append
    simp only [Option.map_some, Option.some.injEq, Prod.mk.injEq]
    refine ⟨?_, ?_, ?_⟩
    · rw [take_take, min_eq_left (by omega), append_assoc, take_left]
    · rw [take_take, min_eq_left (by omega), ← hf, take_left, drop_left]
    · rw [drop_take, ← hf, drop_left]

theorem answerBinary_appendRequest (he : extras.length ≤ 20) (hk : key.length ≤ 250) :
    srv.answerBinary (appendRequest opcode extras key value cas o) =
      (arrives extras.length key value).elim
        [(appendRequest opcode extras key value cas o).reply 4 (ascii "Invalid arguments")]
        fun v => srv.answerParts (appendRequest opcode extras key value cas o) extras key v := by
  rw [answerBinary, parts_appendRequest he hk]
  cases arrives extras.length key value <;> rfl

/-- A request without a value is read as it was written. -/
theorem answerBinary_of_no_value (he : extras.length ≤ 20) (hk : key.length ≤ 250) :
    srv.answerBinary (appendRequest opcode extras key [] cas o) =
      srv.answerParts (appendRequest opcode extras key [] cas o) extras key [] := by
  rw [answerBinary_appendRequest he hk, arrives_nil (by omega)]
  rfl

end Wire

/-! ## The storage commands -/

/-- What the text client makes of the outcome of a storage command. -/
def textVerdict : Outcome → Except ClientError Unit
  | .stored => .ok ()
  | .present | .absent | .notStored => .error .notStored
  | .conflict => .error .casConflict
  | .notFound => .error .cacheMiss
  | .tooLarge => .error (.memcached "SERVER_ERROR" 0 (ascii "object too large for cache"))

/-- What the binary client makes of the outcome of a storage command. -/
def binaryVerdict : Outcome → Except ClientError Unit
  | .stored => .ok ()
  | .present | .conflict => .error .casConflict
  | .absent | .notFound => .error .cacheMiss
  | .notStored => .error .notStored
  | .tooLarge => .error (.memcached "" 3 (ascii "Too large."))

/-- What the binary client makes of a request that contradicts itself. -/
def invalidArguments : ClientError := .memcached "" 4 (ascii "Invalid arguments")

def Storage.extras : Storage → Nat
  | .append | .prepend => 0
  | _ => 8

section Storage

variable {srv : Server} {c d : Conn} {now ttl : Int} {cmd : Storage} {key value : Bytes}
  {out : Outcome}

theorem textOutcome_singleLine : (textOutcome out).kind.singleLine = true := by
  cases out <;> rfl

theorem storeCmd_text (h : c.Idle) (htext : c.binary = false) (hk : validateKey key = .ok ()) :
    storeCmd srv c now cmd key value ttl = textVerdict (srv.store cmd key value 0) := by
  have ha : srv.answerText (.storage cmd key 0 (exptime now ttl) value 0) =
      [textOutcome (srv.store cmd key value 0)] := rfl
  simp only [storeCmd, hk, htext, execText_single h ha textOutcome_singleLine]
  cases srv.store cmd key value 0 <;> rfl

variable {q : BinaryRequest} {arrived : Option Bytes}

theorem translate_binaryOutcome {r : Request} :
    translateBinaryStorage (settleBinary (srv.binaryOutcome q out) r) = binaryVerdict out := by
  cases out with
  | stored => exact if_pos (settleBinary_binStatus ..)
  | _ => rfl

variable {casID : UInt64} {v : Bytes}

/-- A storage request is answered by one packet, about the value that arrives. -/
theorem execBinary_storage (h : d.Idle) (hl : key.length ≤ 250) {opcode : Opcode} {extras : Bytes}
    (he : extras.length ≤ 20)
    (hp : ∀ q v, q.opcode = opcode → q.cas = casID →
      srv.answerParts q extras key v = [srv.binaryOutcome q (srv.store cmd key v casID)]) :
    ∃ q r, execBinary srv d (appendRequest opcode extras key value casID) =
      settleBinary ((arrives extras.length key value).elim (q.reply 4 (ascii "Invalid arguments"))
        fun v => srv.binaryOutcome q (srv.store cmd key v casID)) r := by
  refine ⟨appendRequest opcode extras key value casID (d.opaqueId + 1), _,
    execBinary_packet h ?_ ?_ ?_⟩
  · rw [answerBinary_appendRequest he hl]
    cases arrives extras.length key value with
    | none => rfl
    | some v => exact hp _ v rfl rfl
  · cases arrives extras.length key value with
    | none => rfl
    | some v =>
      rw [Option.elim_some]
      cases srv.store cmd key v casID <;> rfl
  · cases arrives extras.length key value with
    | none => exact of_decide_eq_true rfl
    | some v =>
      rw [Option.elim_some]
      cases srv.store cmd key v casID <;> exact of_decide_eq_true rfl

theorem storeCmd_binary (h : d.Idle) (hbinary : d.binary = true) (hk : validateKey key = .ok ())
    (hcmd : cmd ≠ .cas) :
    storeCmd srv d now cmd key value ttl = (arrives cmd.extras key value).elim
      (.error invalidArguments)
      fun v => binaryVerdict (srv.store cmd key v 0) := by
  have hx : cmd.extras ≤ 20 := by cases cmd <;> decide
  have hv : ∀ (opcode : Opcode) (extras : Bytes), extras.length = cmd.extras →
      (∀ q v, q.opcode = opcode → q.cas = 0 →
        srv.answerParts q extras key v = [srv.binaryOutcome q (srv.store cmd key v 0)]) →
      translateBinaryStorage (execBinary srv d (appendRequest opcode extras key value 0)) =
        (arrives cmd.extras key value).elim (.error invalidArguments)
          fun v => binaryVerdict (srv.store cmd key v 0) := by
    intro opcode extras he hp
    obtain ⟨q, r, hq⟩ := execBinary_storage h (length_le_of_validateKey hk) (he.trans_le hx) hp
    rw [hq, he]
    cases arrives cmd.extras key value with
    | none => rfl
    | some v => exact translate_binaryOutcome ..
  simp only [storeCmd, hk, hbinary]
  cases cmd with
  | set | add | replace =>
    apply hv
    · simp [Storage.extras]
    · intro q v hop hc
      simp [answerParts, hop, hc]
  | append | prepend =>
    apply hv
    · rfl
    · intro q v hop hc
      simp [answerParts, hop, hc]
  | cas => exact (hcmd rfl).elim

theorem casCmd_eq (hk : validateKey key = .ok ()) (hc : casID ≠ 0) :
    casCmd srv c now key value casID ttl = casBytes srv c now key value casID ttl := by
  simp only [casCmd, hk, hc, if_false]
  rfl

theorem casBytes_text (h : c.Idle) (htext : c.binary = false) :
    casBytes srv c now key value casID ttl = (fun _ => true) <$> textVerdict
      (srv.store .cas key value casID) := by
  have ha : srv.answerText (.storage .cas key 0 (exptime now ttl) value casID) =
      [textOutcome (srv.store .cas key value casID)] := rfl
  simp only [casBytes, htext, execText_single h ha textOutcome_singleLine]
  cases srv.store .cas key value casID <;> rfl

theorem store_cas_ne : srv.store .cas key value casID ≠ .notStored := by
  unfold store place
  cases srv.items key with
  | none => split_ifs <;> nofun
  | some it =>
    dsimp only
    split_ifs <;> nofun

theorem casBytes_binary (h : d.Idle) (hbinary : d.binary = true) (hl : key.length ≤ 250)
    (hc : casID ≠ 0) :
    casBytes srv d now key value casID ttl = (arrives 8 key value).elim (.error invalidArguments)
      fun v => (fun _ => true) <$> binaryVerdict (srv.store .cas key v casID) := by
  have hp : ∀ (extras : Bytes) (q : BinaryRequest) (v : Bytes), q.opcode = .set → q.cas = casID →
      srv.answerParts q extras key v = [srv.binaryOutcome q (srv.store .cas key v casID)] := by
    intro extras q v hop hq
    simp [answerParts, hop, hq, hc]
  obtain ⟨q, r, hq⟩ : ∃ q r,
      execBinary srv d (appendStorage .set key value 0 (exptimeFromSeconds (exptime now ttl))
        casID) = settleBinary ((arrives 8 key value).elim (q.reply 4 (ascii "Invalid arguments"))
          fun v => srv.binaryOutcome q (srv.store .cas key v casID)) r :=
    execBinary_storage h hl (by simp) (hp (_ ++ _))
  simp only [casBytes, hbinary, if_true, hq]
  cases arrives 8 key value with
  | none => rfl
  | some v =>
    simp only [Option.elim_some, settleBinary_binStatus]
    cases ho : srv.store .cas key v casID with
    | notStored => exact (store_cas_ne ho).elim
    | _ => rfl

/-! ### Where the verdicts agree -/

theorem place_ne : srv.place cmd key value casID ≠ .tooLarge := by
  unfold place
  cases cmd <;> cases srv.items key <;> dsimp only <;> (try split_ifs) <;> nofun

theorem agree_failure {k : String} {n : UInt16} {b : Bytes} :
    Agree (textVerdict out) (.error (.memcached k n b)) ↔ out = .tooLarge := by
  cases out <;> simp [Agree, textVerdict, sentinel]

theorem not_agree_tooLarge (h : out ≠ .tooLarge) :
    ¬ Agree (textVerdict .tooLarge) (binaryVerdict out) := by
  cases out <;> simp_all [Agree, textVerdict, binaryVerdict, sentinel]

theorem store_eq_tooLarge : srv.store cmd key value casID = .tooLarge ↔
    srv.limit < value.length := by
  rw [store, ite_eq_left_iff]
  exact ⟨fun h => not_not.mp fun hl => place_ne (h hl), fun h hl => (hl h).elim⟩

/-- The verdicts on a value and on the one that arrives. -/
theorem agree_store_iff :
    Agree (textVerdict (srv.store cmd key value casID))
      (binaryVerdict (srv.store cmd key v casID)) ↔
      (srv.limit < value.length ↔ srv.limit < v.length) ∧ (srv.limit < value.length ∨
        Agree (textVerdict (srv.place cmd key value casID))
          (binaryVerdict (srv.place cmd key v casID))) := by
  by_cases hv : srv.limit < v.length
  · rw [store_eq_tooLarge.mpr hv, binaryVerdict, agree_failure, store_eq_tooLarge]
    simp only [hv, iff_true]
    exact ⟨fun h => ⟨h, .inl h⟩, And.left⟩
  · by_cases hva : srv.limit < value.length
    · rw [store_eq_tooLarge.mpr hva]
      simp only [hv, hva, iff_false, not_true_eq_false, false_and]
      refine not_agree_tooLarge ?_
      rw [Ne, store_eq_tooLarge]
      exact hv
    · simp [store, hv, hva]

theorem agree_elim_iff :
    Agree (textVerdict (srv.store cmd key value casID)) (arrived.elim (.error invalidArguments)
      fun v => binaryVerdict (srv.store cmd key v casID)) ↔
    srv.SameRoom value arrived ∧ (srv.limit < value.length ∨ ∀ v ∈ arrived,
      Agree (textVerdict (srv.place cmd key value casID))
        (binaryVerdict (srv.place cmd key v casID))) := by
  cases arrived with
  | none =>
    rw [Option.elim_none, invalidArguments, agree_failure, store_eq_tooLarge]
    simp [Server.SameRoom]
  | some v =>
    rw [Option.elim_some, agree_store_iff]
    simp [Server.SameRoom]

/-- Where the verdicts on values that are not too long do not depend on what arrives. -/
theorem agree_elim_iff_of_place {Q : Prop}
    (hp : ∀ v, Agree (textVerdict (srv.place cmd key value casID))
      (binaryVerdict (srv.place cmd key v casID)) ↔ Q) :
    Agree (textVerdict (srv.store cmd key value casID)) (arrived.elim (.error invalidArguments)
      fun v => binaryVerdict (srv.store cmd key v casID)) ↔
    srv.SameRoom value arrived ∧ (srv.limit < value.length ∨ Q) := by
  rw [agree_elim_iff]
  refine and_congr_right fun hr => ?_
  cases arrived with
  | none =>
    have hl : srv.limit < value.length := hr.mpr nofun
    simp [hl]
  | some v => simp [hp]

theorem agree_place_add :
    Agree (textVerdict (srv.place .add key value casID))
      (binaryVerdict (srv.place .add key v casID)) ↔ srv.items key = none := by
  unfold place
  cases srv.items key <;> simp [Agree, textVerdict, binaryVerdict, sentinel]

theorem agree_place_replace :
    Agree (textVerdict (srv.place .replace key value casID))
      (binaryVerdict (srv.place .replace key v casID)) ↔ srv.items key ≠ none := by
  unfold place
  cases srv.items key <;> simp [Agree, textVerdict, binaryVerdict, sentinel]

theorem agree_place_cas :
    Agree (textVerdict (srv.place .cas key value casID))
      (binaryVerdict (srv.place .cas key v casID)) := by
  unfold place
  cases srv.items key with
  | none => rfl
  | some it =>
    dsimp only
    split_ifs <;> rfl

theorem place_prepend : srv.place .prepend key value casID = srv.place .append key value casID := by
  unfold place
  cases srv.items key <;> rfl

theorem agree_place_append :
    Agree (textVerdict (srv.place .append key value casID))
      (binaryVerdict (srv.place .append key v casID)) ↔ srv.SameConcat key value v := by
  unfold place Server.SameConcat
  cases srv.items key with
  | none => simp [Agree, textVerdict, binaryVerdict]
  | some it =>
    simp only [Option.mem_some_iff, forall_eq']
    split_ifs with hva hv hv <;> simp [Agree, textVerdict, binaryVerdict, hva, hv]

end Storage

/-! ## The retrieval commands -/

section Retrieval

variable {srv : Server} {c d : Conn} {key : Bytes}

theorem execText_retrieval (h : c.Idle) {cas : Bool} :
    execText srv c .get (.retrieval cas [key]) =
      (srv.items key).elim (.ok (ended { kind := .get })) fun it =>
        if it.value.length ≤ maxValueLen then
          .ok (ended { kind := .get, values :=
            [⟨key, it.flags, if cas then it.cas else 0, it.value⟩] })
        else .error readerError := by
  cases hi : srv.items key with
  | none =>
    have ha : srv.answerText (.retrieval cas [key]) = [] ++ [{ kind := .endMark }] := by
      simp [answerText, hi]
    rw [execText_values h ha nofun nofun]
    rfl
  | some it =>
    have ha : srv.answerText (.retrieval cas [key]) = [textItem cas key it] ++
        [{ kind := .endMark }] := by
      simp [answerText, hi]
    have hvs : ∀ v ∈ [textItem cas key it], v.kind = .value :=
      forall_mem_singleton.mpr rfl
    rw [Option.elim_some]
    split
    · rename_i hl
      rw [execText_values h ha hvs (forall_mem_singleton.mpr hl)]
      rfl
    · rename_i hl
      exact execText_values_refused h ha hvs ⟨_, mem_singleton_self _, not_le.mp hl⟩

theorem answerBinary_get (srv : Server) (hl : key.length ≤ 250) (o : UInt32) :
    srv.answerBinary (appendGet .get key o) =
      [(srv.items key).elim ((appendGet .get key o).reply 1 (ascii "Not found"))
        (binaryItem (appendGet .get key o) [])] := by
  refine (answerBinary_of_no_value (zero_le _) hl).trans ?_
  unfold answerParts
  cases srv.items key <;> rfl

theorem execBinary_get_miss (h : d.Idle) (hl : key.length ≤ 250) (hi : srv.items key = none) :
    (execBinary srv d (appendGet .get key)).binStatus = 1 := by
  have ha := answerBinary_get srv hl (d.opaqueId + 1)
  rw [hi] at ha
  rw [execBinary_packet h ha rfl (of_decide_eq_true rfl), settleBinary_binStatus]
  rfl

theorem packetItem_binaryItem (q : BinaryRequest) (key : Bytes) (it : Item) :
    packetItem (binaryItem q key it) = ⟨key, it.flags, it.cas, it.value⟩ := by
  have hl : (bytes 4 it.flags.toNat).length = 4 := length_bytes ..
  have hf : packetFlags (binaryItem q key it) = it.flags := by
    simp only [packetFlags, binaryItem, hl, le_refl, if_true, take_of_length_le]
    rw [value_bytes it.flags.toNat_lt]
    exact UInt32.ofNat_toNat
  rw [packetItem, hf]
  rfl

theorem bodyLen_binaryItem (q : BinaryRequest) (key : Bytes) (it : Item) :
    (binaryItem q key it).bodyLen = 4 + key.length + it.value.length := by
  simp [BinaryPacket.bodyLen, binaryItem, reply]

/-- A hit has the status of a success and leaves its value, unless it is empty or its body is
too long. -/
theorem execBinary_get_hit (h : d.Idle) (hl : key.length ≤ 250) {it : Item}
    (hi : srv.items key = some it) :
    (execBinary srv d (appendGet .get key)).binStatus = 0 ∧
      (execBinary srv d (appendGet .get key)).values =
        if it.value = [] ∨ maxValueLen < 4 + it.value.length then []
          else [⟨[], it.flags, it.cas, it.value⟩] := by
  have ha := answerBinary_get srv hl (d.opaqueId + 1)
  rw [hi] at ha
  have hb := bodyLen_binaryItem (appendGet .get key (d.opaqueId + 1)) [] it
  by_cases hr : 4 + it.value.length ≤ maxValueLen
  · rw [execBinary_packet h ha rfl (hb.le.trans hr), settleBinary_binStatus,
      settleBinary_values rfl]
    refine ⟨rfl, ?_⟩
    simp only [hr.not_gt, or_false, nil_append, Option.elim_some, packetItem_binaryItem]
    rfl
  · rw [execBinary_refused h ha (hb.symm ▸ hr), if_pos (.inr (not_le.mp hr))]
    exact ⟨rfl, rfl⟩

theorem getBytes_text (h : c.Idle) (htext : c.binary = false) (hk : validateKey key = .ok ()) :
    getBytes srv c key = (srv.items key).elim (.error .cacheMiss) fun it =>
      if it.value.length ≤ maxValueLen then .ok it.value else .error readerError := by
  simp only [getBytes, hk, htext, Bool.false_eq_true, if_false, execText_retrieval h]
  cases srv.items key with
  | none => rfl
  | some it =>
    rw [Option.elim_some, Option.elim_some]
    split_ifs <;> rfl

/-- A hit that is too long is an empty value. -/
theorem getBytes_binary (h : d.Idle) (hbinary : d.binary = true) (hk : validateKey key = .ok ()) :
    getBytes srv d key = (srv.items key).elim (.error .cacheMiss) fun it =>
      .ok (if 4 + it.value.length ≤ maxValueLen then it.value else []) := by
  have hl := length_le_of_validateKey hk
  simp only [getBytes, hk, hbinary, if_true]
  cases hi : srv.items key with
  | none =>
    simp only [execBinary_get_miss h hl hi]
    rfl
  | some it =>
    obtain ⟨hs, hv⟩ := execBinary_get_hit h hl hi
    simp only [hs, if_true, hv, Option.elim_some]
    by_cases hva : it.value = []
    · simp only [hva, true_or, if_true, head?_nil, Option.elim_none, ite_self]
      rfl
    · by_cases hr : 4 + it.value.length ≤ maxValueLen
      · simp only [hva, hr, hr.not_gt, or_self, if_false, if_true]
        rfl
      · simp only [hr, not_le.mp hr, or_true, if_true, if_false]
        rfl

theorem gets_text (h : c.Idle) (htext : c.binary = false) (hk : validateKey key = .ok ()) :
    gets srv c key = (srv.items key).elim (.error .cacheMiss) fun it =>
      if it.value.length ≤ maxValueLen then .ok ⟨key, it.value, it.flags, it.cas⟩
        else .error readerError := by
  simp only [gets, hk, htext, Bool.false_eq_true, if_false, execText_retrieval h]
  cases srv.items key with
  | none => rfl
  | some it =>
    rw [Option.elim_some, Option.elim_some]
    split_ifs <;> rfl

/-- A hit with an empty value, and one that is too long, are misses. -/
theorem gets_binary (h : d.Idle) (hbinary : d.binary = true) (hk : validateKey key = .ok ()) :
    gets srv d key = (srv.items key).elim (.error .cacheMiss) fun it =>
      if it.value = [] ∨ maxValueLen < 4 + it.value.length then .error .cacheMiss
      else .ok ⟨key, it.value, it.flags, it.cas⟩ := by
  have hl := length_le_of_validateKey hk
  simp only [gets, hk, hbinary, if_true]
  cases hi : srv.items key with
  | none =>
    simp only [execBinary_get_miss h hl hi]
    rfl
  | some it =>
    obtain ⟨hs, hv⟩ := execBinary_get_hit h hl hi
    simp only [hs, if_true, hv, Option.elim_some]
    split_ifs <;> rfl

/-! ### Many keys -/

/-- The keys that are found, with their items. -/
def Server.hits (srv : Server) (keys : List Bytes) : List (Bytes × Item) :=
  keys.filterMap fun key => (srv.items key).map (key, ·)

variable {keys : List Bytes}

theorem mem_hits {x : Bytes × Item} : x ∈ srv.hits keys ↔ x.1 ∈ keys ∧ x.2 ∈ srv.items x.1 := by
  obtain ⟨key, it⟩ := x
  simp only [hits, mem_filterMap, Option.map_eq_some_iff, Prod.mk.injEq, Option.mem_def]
  refine ⟨?_, fun h => ⟨key, h.1, it, h.2, rfl, rfl⟩⟩
  rintro ⟨k, hk, i, hi, rfl, rfl⟩
  exact ⟨hk, hi⟩

theorem valueMap_congr {xs ys : List ValueItem}
    (h : xs.map (fun v => (v.key, v.data)) = ys.map fun v => (v.key, v.data)) :
    valueMap xs = valueMap ys := by
  have hf : ∀ xs : List ValueItem, valueMap xs = (xs.map fun v => (v.key, v.data)).foldl
      (fun (out : Bytes → Option Bytes) x => update out x.1 (some x.2)) fun _ => none :=
    fun xs => by rw [valueMap, foldl_map]
  rw [hf, hf, h]

/-- The map that both clients fill. -/
def Server.found (srv : Server) (keys : List Bytes) : Bytes → Option Bytes :=
  valueMap ((srv.hits keys).map fun x => ⟨x.1, x.2.flags, x.2.cas, x.2.value⟩)

theorem forM_validateKey (h : ∀ key ∈ keys, validateKey key = .ok ()) :
    keys.forM validateKey = .ok () := by
  induction keys with
  | nil => rfl
  | cons key keys ih =>
    rw [List.forM, h key List.mem_cons_self]
    exact ih fun k hk => h k (mem_cons_of_mem key hk)

theorem forM_validateKey_error (h : ¬ ∀ key ∈ keys, validateKey key = .ok ()) :
    keys.forM validateKey = .error .malformedKey := by
  induction keys with
  | nil => exact (h nofun).elim
  | cons key keys ih =>
    rw [List.forM]
    by_cases hkey : validateKey key = .ok ()
    · rw [hkey]
      refine ih fun hkeys => h fun k hk => ?_
      rcases mem_cons.mp hk with rfl | hk
      · exact hkey
      · exact hkeys k hk
    · rw [validateKey_error hkey]
      rfl

theorem getMultiBytes_text (h : c.Idle) (htext : c.binary = false)
    (hk : ∀ key ∈ keys, validateKey key = .ok ()) :
    ((∀ x ∈ srv.hits keys, x.2.value.length ≤ maxValueLen) →
      getMultiBytes srv c keys = .ok (srv.found keys)) ∧
      ((∃ x ∈ srv.hits keys, maxValueLen < x.2.value.length) →
        getMultiBytes srv c keys = .error readerError) := by
  set vs := (srv.hits keys).map fun x => textItem false x.1 x.2 with hvs'
  have hans : srv.answerText (.retrieval false keys) = vs ++ [{ kind := .endMark }] := by
    simp only [answerText, hvs', hits, map_filterMap, Option.map_map]
    rfl
  have hvs : ∀ v ∈ vs, v.kind = .value := forall_mem_map.mpr fun _ _ => rfl
  refine ⟨fun hr => ?_, fun ⟨x, hx, hl⟩ => ?_⟩
  · by_cases hnil : keys = []
    · rw [hnil]
      rfl
    · have hr' : ∀ v ∈ vs, v.data.length ≤ maxValueLen := forall_mem_map.mpr hr
      simp only [getMultiBytes, hnil, if_false, forM_validateKey hk, htext, Bool.false_eq_true,
        execText_values h hans hvs hr']
      refine congrArg Except.ok (valueMap_congr ?_)
      simp only [ended, Request.withValues, nil_append, hvs', map_map]
      rfl
  · have hnil : keys ≠ [] := ne_nil_of_mem (mem_hits.mp hx).1
    simp only [getMultiBytes, hnil, if_false, forM_validateKey hk, htext, Bool.false_eq_true,
      execText_values_refused h hans hvs ⟨_, mem_map_of_mem hx, hl⟩]
    rfl

/-- The hits come in the order of the keys, and then the answer to the no-op. -/
theorem answer_batch (srv : Server) (hkeys : ∀ key ∈ keys, key.length ≤ 250) (o : UInt32) :
    ∃ ps o', (encodeGetMultiBatch o keys).flatMap srv.answerBinary =
      ps ++ [{ opcode := .noop, opaqueId := o' }] ∧ (∀ p ∈ ps, State.Hit p) ∧
      ps.map packetItem = (srv.hits keys).map (fun x => ⟨x.1, x.2.flags, x.2.cas, x.2.value⟩) ∧
      ps.map BinaryPacket.bodyLen = (srv.hits keys).map fun x => 4 + x.1.length +
        x.2.value.length := by
  induction keys generalizing o with
  | nil =>
    refine ⟨[], o + 1, ?_, nofun, rfl, rfl⟩
    rw [encodeGetMultiBatch, flatMap_singleton]
    exact answerBinary_of_no_value (zero_le _) (zero_le _)
  | cons key keys ih =>
    obtain ⟨ps, o', hans, hps, hi, hl⟩ := ih (fun k hk => hkeys k (mem_cons_of_mem key hk)) (o + 1)
    have hget : srv.answerBinary (appendGet .getKQ key (o + 1)) =
        ((srv.items key).map (binaryItem (appendGet .getKQ key (o + 1)) key)).toList :=
      answerBinary_of_no_value (zero_le _) (hkeys key mem_cons_self)
    rw [encodeGetMultiBatch, flatMap_cons, hget, hans]
    cases hitem : srv.items key with
    | none =>
      have hh : srv.hits (key :: keys) = srv.hits keys := by simp only [hits, filterMap_cons, hitem,
        Option.map_none]
      rw [hh]
      exact ⟨ps, o', rfl, hps, hi, hl⟩
    | some it =>
      have hh : srv.hits (key :: keys) = (key, it) :: srv.hits keys := by
        simp [hits, hitem]
      rw [hh]
      refine ⟨binaryItem (appendGet .getKQ key (o + 1)) key it :: ps, o', rfl,
        forall_mem_cons.mpr ⟨⟨rfl, rfl⟩, hps⟩, ?_, ?_⟩
      · rw [map_cons, map_cons, packetItem_binaryItem, hi]
      · rw [map_cons, map_cons, bodyLen_binaryItem, hl]

theorem getMultiBytes_binary (h : d.Idle) (hbinary : d.binary = true)
    (hk : ∀ key ∈ keys, validateKey key = .ok ()) :
    ((∀ x ∈ srv.hits keys, 4 + x.1.length + x.2.value.length ≤ maxValueLen) →
        getMultiBytes srv d keys = .ok (srv.found keys)) ∧
      ((∃ x ∈ srv.hits keys, maxValueLen < 4 + x.1.length + x.2.value.length) →
        getMultiBytes srv d keys = .error readerError) := by
  obtain ⟨ps, o, ha, hps, hi, hl⟩ :=
    answer_batch srv (fun key hkey => length_le_of_validateKey (hk key hkey)) (d.opaqueId + 1)
  refine ⟨fun hr => ?_, fun ⟨x, hx, hlong⟩ => ?_⟩
  · by_cases hn : keys = []
    · rw [hn]
      rfl
    · have hr' : ∀ p ∈ ps, p.bodyLen ≤ maxValueLen := by
        intro p hp
        obtain ⟨x, hx, hlen⟩ := mem_map.mp (hl ▸ mem_map_of_mem hp)
        exact hlen ▸ hr x hx
      obtain ⟨he, hv⟩ := execBinaryMulti_hits (encodeGetMultiBatch · keys) h ha hps hr'
      simp only [getMultiBytes, hn, if_false, forM_validateKey hk, hbinary, if_true, otherwise, he,
        hv, hi]
      rfl
  · have hn : keys ≠ [] := ne_nil_of_mem (mem_hits.mp hx).1
    obtain ⟨p, hp, hlen⟩ : ∃ p ∈ ps, p.bodyLen = 4 + x.1.length + x.2.value.length :=
      mem_map.mp (hl ▸ mem_map_of_mem hx)
    have he := execBinaryMulti_refused (encodeGetMultiBatch · keys) h ha hps ⟨p, hp, hlen ▸ hlong⟩
    simp only [getMultiBytes, hn, if_false, forM_validateKey hk, hbinary, if_true, otherwise, he]
    rfl

end Retrieval

/-! ## The other commands -/

section Others

variable {srv : Server} {c d : Conn} {now ttl : Int} {key : Bytes} {delta : UInt64}

variable {incr : Bool}

theorem arith_text (h : c.Idle) (htext : c.binary = false) (hk : validateKey key = .ok ()) :
    arith srv c incr key delta =
      match srv.count incr key delta with
      | .number n => .ok n
      | .missing => .error .cacheMiss
      | .notNumeric =>
        .error (.memcached "CLIENT_ERROR" 0
          (ascii "cannot increment or decrement non-numeric value")) := by
  simp only [arith, hk, htext, Bool.false_eq_true, if_false]
  have ha : srv.answerText (.arith incr key delta) = _ := rfl
  cases hc : srv.count incr key delta with
  | number n | missing | notNumeric =>
    conv_rhs at ha => rw [answerText, hc]
    rw [execText_single h ha rfl]
    rfl

/-- The extras of an `incr` or a `decr`. -/
def arithExtras (delta : UInt64) : Bytes :=
  bytes 8 delta.toNat ++ bytes 8 (0 : UInt64).toNat ++
    bytes 4 (0xFFFFFFFF : UInt32).toNat

theorem delta_arithExtras : UInt64.ofNat (value ((arithExtras delta).take 8)) = delta := by
  rw [arithExtras, append_assoc, take_left' (length_bytes ..), value_bytes delta.toNat_lt]
  exact UInt64.ofNat_toNat

theorem expiration_arithExtras : value ((arithExtras delta).drop 16) = 0xFFFFFFFF := by
  rfl

/-- The packet that answers an `incr` or a `decr`; the expiration keeps the server from making
a counter that is missing. -/
theorem answerBinary_arith (srv : Server) (hl : key.length ≤ 250) (incr : Bool) (delta : UInt64)
    {q : BinaryRequest} {o : UInt32}
    (hq : q = appendArith (if incr then .increment else .decrement) key delta 0 0xFFFFFFFF o) :
    srv.answerBinary q = [match srv.count incr key delta with
        | .number n => q.reply 0 (bytes 8 n.toNat)
        | .missing => q.reply 1 (ascii "Not found")
        | .notNumeric => q.reply 6 (ascii "Non-numeric server-side value for incr or decr")] := by
  have ha : srv.answerBinary q = srv.answerParts q (arithExtras delta) key [] := by
    rw [hq]
    exact answerBinary_of_no_value (by simp) hl
  have ho : q.opcode = if incr then .increment else .decrement := by rw [hq]; rfl
  rw [ha]
  cases hc : srv.count incr key delta <;> cases incr <;>
    simp [answerParts, ho, delta_arithExtras, expiration_arithExtras, hc]

theorem arith_binary (h : d.Idle) (hbinary : d.binary = true) (hk : validateKey key = .ok ()) :
    arith srv d incr key delta =
      match srv.count incr key delta with
      | .number n => .ok n
      | .missing => .error .cacheMiss
      | .notNumeric => .error (.memcached "" 6
          (ascii "Non-numeric server-side value for incr or decr")) := by
  have ha := answerBinary_arith srv (length_le_of_validateKey hk) incr delta
    (o := d.opaqueId + 1) rfl
  simp only [arith, hk, hbinary, if_true]
  cases hc : srv.count incr key delta with
  | number n =>
    rw [hc] at ha
    have hb : bytes 8 n.toNat ≠ [] := ne_nil_of_length_eq_add_one (length_bytes ..)
    have hl : (bytes 8 n.toNat).length = 8 := length_bytes ..
    have hv : UInt64.ofNat (value ((bytes 8 n.toNat).take 8)) = n := by
      rw [take_of_length_le hl.le, value_bytes n.toNat_lt]
      exact UInt64.ofNat_toNat
    have hr : (reply (appendArith (if incr then .increment else .decrement) key delta 0 0xFFFFFFFF
        (d.opaqueId + 1)) 0 (bytes 8 n.toNat)).bodyLen ≤ maxValueLen := by
      simp only [BinaryPacket.bodyLen, reply, hl]
      exact of_decide_eq_true rfl
    rw [execBinary_packet h ha rfl hr]
    simp only [settleBinary_binStatus, settleBinary_values, reply, if_true, hb,
      if_false, nil_append, packetItem, hl, lt_self_iff_false, hv]
    rfl
  | missing | notNumeric =>
    rw [hc] at ha
    rw [execBinary_packet h ha rfl (of_decide_eq_true rfl)]
    rfl

/-- `Delete` and `Touch` are answered by whether the key is there. -/
theorem execBinary_found (h : d.Idle) {opcode : Opcode} (ho : opcode = .delete ∨ opcode = .touch)
    {extras : Bytes} (he : extras.length ≤ 20) (hl : key.length ≤ 250) :
    (execBinary srv d (appendRequest opcode extras key [] 0)).binStatus =
      if (srv.items key).isSome then 0 else 1 := by
  set q := appendRequest opcode extras key [] 0 (d.opaqueId + 1)
  have ha : srv.answerBinary q =
      [if (srv.items key).isSome then q.reply 0 [] else q.reply 1 (ascii "Not found")] := by
    refine (answerBinary_of_no_value he hl).trans ?_
    rcases ho with rfl | rfl <;> rfl
  cases hi : (srv.items key).isSome with
  | false | true =>
    rw [hi] at ha
    rw [execBinary_packet h ha rfl (of_decide_eq_true rfl), settleBinary_binStatus]
    rfl

/-- `Delete` does the same in both dialects. -/
theorem deleteCmd_eq (h : c.Idle) (hk : validateKey key = .ok ()) :
    deleteCmd srv c key = if (srv.items key).isSome then .ok () else .error .cacheMiss := by
  have hb : (execBinary srv c (appendDelete key 0)).binStatus = if (srv.items key).isSome then 0
      else 1 :=
    execBinary_found h (.inl rfl) (zero_le _) (length_le_of_validateKey hk)
  have ha : srv.answerText (.delete key) =
    [{ kind := if (srv.items key).isSome then .deleted else .notFound }] := rfl
  simp only [deleteCmd, hk, hb]
  cases hi : (srv.items key).isSome with
  | false | true =>
    rw [hi] at ha
    rw [execText_single h ha rfl]
    cases c.binary <;> rfl

/-- `Touch` does the same in both dialects. -/
theorem touchCmd_eq (h : c.Idle) (hk : validateKey key = .ok ()) :
    touchCmd srv c now key ttl = if (srv.items key).isSome then .ok () else .error .cacheMiss := by
  have hb : (execBinary srv c (appendTouch key (exptimeFromSeconds (exptime now ttl)))).binStatus =
      if (srv.items key).isSome then 0 else 1 :=
    execBinary_found h (.inr rfl) (by simp) (length_le_of_validateKey hk)
  have ha : srv.answerText (.touch key (exptime now ttl)) =
      [{ kind := if (srv.items key).isSome then .touched else .notFound }] := rfl
  simp only [touchCmd, hk, hb]
  cases hi : (srv.items key).isSome with
  | false | true =>
    rw [hi] at ha
    rw [execText_single h ha rfl]
    cases c.binary <;> rfl

end Others

/-! ## The operations -/

/-- Where the arguments are not accepted, both clients return the same error. -/
theorem agree_of_not_valid {srv : Server} {c d : Conn} {now : Int} {op : Operation}
    (h : ¬ op.Valid) : Agree (op.run srv c now) (op.run srv d now) := by
  cases op with
  | set key value ttl | add key value ttl | replace key value ttl | append key value
  | prepend key value
  | get key | gets key | incr key delta | decr key delta | delete key | touch key ttl =>
    simp only [run, storeCmd, getBytes, Memcached.gets, arith, deleteCmd, touchCmd,
      validateKey_error h]
    rfl
  | cas key value casID ttl =>
    simp only [run, casCmd]
    by_cases hk : validateKey key = .ok ()
    · have hc : casID = 0 := not_not.mp fun hc => h ⟨hk, hc⟩
      simp only [hk, hc, if_true]
      rfl
    · rw [validateKey_error hk]
      rfl
  | getMulti keys =>
    have hn : keys ≠ [] := by
      rintro rfl
      exact h nofun
    simp only [run, getMultiBytes, hn, if_false, forM_validateKey_error h]
    rfl

section Main

variable {srv : Server} {c d : Conn} {now ttl : Int} {key value : Bytes}

theorem agree_done_iff {x y : Except ClientError Unit} :
    Agree ((fun _ => Answer.done) <$> x) ((fun _ => Answer.done) <$> y) ↔ Agree x y :=
  agree_map_iff (injective_of_subsingleton _)

section

variable (h : c.Idle) (h' : d.Idle) (htext : c.binary = false) (hbinary : d.binary = true)

include h h' htext hbinary

section

variable (hk : validateKey key = .ok ())

include hk

/-- A storage command, by what the verdicts on values that are not too long depend on. -/
theorem agree_storeCmd_iff {cmd : Storage} (hc : cmd ≠ .cas) :
    Agree ((fun _ => Answer.done) <$> storeCmd srv c now cmd key value ttl)
        ((fun _ => Answer.done) <$> storeCmd srv d now cmd key value ttl) ↔
      Agree (textVerdict (srv.store cmd key value 0))
        ((arrives cmd.extras key value).elim (.error invalidArguments)
        fun v => binaryVerdict (srv.store cmd key v 0)) := by
  rw [agree_done_iff, storeCmd_text h htext hk, storeCmd_binary h' hbinary hk hc]

theorem agree_cas_iff {casID : UInt64} (hc : casID ≠ 0) :
    Agree (casCmd srv c now key value casID ttl) (casCmd srv d now key value casID ttl) ↔
      srv.SameRoom value (arrives 8 key value) := by
  have hm : (arrives 8 key value).elim (.error invalidArguments)
      (fun v => (fun _ => true) <$> binaryVerdict (srv.store .cas key v casID)) =
      (fun _ => true) <$> (arrives 8 key value).elim (.error invalidArguments)
        fun v => binaryVerdict (srv.store .cas key v casID) := by
    cases arrives 8 key value <;> rfl
  rw [casCmd_eq hk hc, casCmd_eq hk hc, casBytes_text h htext,
    casBytes_binary h' hbinary (length_le_of_validateKey hk) hc, hm,
    agree_map_iff (injective_of_subsingleton _), agree_elim_iff_of_place (Q := True)
      fun v => iff_true_intro agree_place_cas]
  simp

theorem agree_get_iff :
    Agree (getBytes srv c key) (getBytes srv d key) ↔ ∀ it ∈ srv.items key,
      4 + it.value.length ≤ maxValueLen := by
  rw [getBytes_text h htext hk, getBytes_binary h' hbinary hk]
  cases srv.items key with
  | none => simp [Agree]
  | some it =>
    simp only [Option.elim_some, Option.mem_some_iff, forall_eq']
    by_cases hr : 4 + it.value.length ≤ maxValueLen
    · have htext : it.value.length ≤ maxValueLen := by omega
      simp [hr, htext, Agree]
    · by_cases htext : it.value.length ≤ maxValueLen
      · have hv : it.value ≠ [] := by
          intro hn
          rw [hn] at hr
          exact hr (of_decide_eq_true rfl)
        simp [htext, Agree, hv]
      · simp [hr, htext, Agree]

theorem agree_gets_iff : Agree (gets srv c key) (gets srv d key) ↔
      ∀ it ∈ srv.items key, it.value ≠ [] ∧ 4 + it.value.length ≤ maxValueLen := by
  rw [gets_text h htext hk, gets_binary h' hbinary hk]
  cases srv.items key with
  | none => simp [Agree]
  | some it =>
    simp only [Option.elim_some, Option.mem_some_iff, forall_eq']
    by_cases hr : it.value ≠ [] ∧ 4 + it.value.length ≤ maxValueLen
    · have htext : it.value.length ≤ maxValueLen := by omega
      simp [hr.1, hr.2, hr.2.not_gt, htext, Agree]
    · have hm : it.value = [] ∨ maxValueLen < 4 + it.value.length := by
        by_contra hm
        obtain ⟨hv, hl⟩ := not_or.mp hm
        exact hr ⟨hv, not_lt.mp hl⟩
      simp only [hr, hm, if_true, iff_false]
      split_ifs <;> simp [Agree, sentinel, readerError]

end

theorem agree_getMulti_iff {keys : List Bytes} (hk : ∀ key ∈ keys, validateKey key = .ok ()) :
    Agree (getMultiBytes srv c keys) (getMultiBytes srv d keys) ↔
      ((∃ x ∈ srv.hits keys, maxValueLen < 4 + x.1.length + x.2.value.length) →
        ∃ x ∈ srv.hits keys, maxValueLen < x.2.value.length) := by
  obtain ⟨hok, hl⟩ := getMultiBytes_text h htext hk
  obtain ⟨hok', hl'⟩ := getMultiBytes_binary h' hbinary hk
  by_cases hb : ∃ x ∈ srv.hits keys, maxValueLen < 4 + x.1.length + x.2.value.length
  · rw [hl' hb]
    by_cases ht : ∃ x ∈ srv.hits keys, maxValueLen < x.2.value.length
    · rw [hl ht]
      exact iff_of_true rfl fun _ => ht
    · rw [hok fun x hx => not_lt.mp fun hlt => ht ⟨x, hx, hlt⟩]
      exact iff_of_false id fun hi => ht (hi hb)
  · have hf : ∀ x ∈ srv.hits keys, 4 + x.1.length + x.2.value.length ≤ maxValueLen :=
      fun x hx => not_lt.mp fun hlt => hb ⟨x, hx, hlt⟩
    rw [hok' hf, hok fun x hx => (le_add_left ..).trans (hf x hx)]
    exact iff_of_true rfl fun hi => (hb hi).elim

end

/-- The two clients agree on an operation exactly if its arguments are refused, or the server
is one that they see alike. -/
theorem agree_run_iff (srv : Server) (h : c.Idle) (h' : d.Idle) (htext : c.binary = false)
    (hbinary : d.binary = true)
    (now : Int) (op : Operation) : Agree (op.run srv c now) (op.run srv d now) ↔
      (op.Valid → op.Alike srv) := by
  by_cases hv : op.Valid
  swap
  · exact iff_of_true (agree_of_not_valid hv) fun h => (hv h).elim
  rw [forall_prop_of_true hv]
  cases op with
  | set key value ttl =>
    refine (agree_storeCmd_iff h h' htext hbinary hv (by decide)).trans ?_
    rw [agree_elim_iff_of_place (Q := True) fun v => iff_true_intro (by rfl)]
    simp only [or_true, and_true]
    rfl
  | add key value ttl =>
    refine (agree_storeCmd_iff h h' htext hbinary hv (by decide)).trans ?_
    exact agree_elim_iff_of_place fun v => agree_place_add
  | replace key value ttl =>
    refine (agree_storeCmd_iff h h' htext hbinary hv (by decide)).trans ?_
    exact agree_elim_iff_of_place fun v => agree_place_replace
  | append key value | prepend key value =>
    refine (agree_storeCmd_iff h h' htext hbinary hv (by decide)).trans ?_
    simp only [agree_elim_iff, place_prepend, agree_place_append]
    rfl
  | cas key value casID ttl =>
    rw [run, run, agree_map_iff fun _ _ hok => by cases hok; rfl]
    exact agree_cas_iff h h' htext hbinary hv.1 hv.2
  | get key =>
    rw [run, run, agree_map_iff fun _ _ hok => by cases hok; rfl]
    exact agree_get_iff h h' htext hbinary hv
  | gets key =>
    rw [run, run, agree_map_iff fun _ _ hok => by cases hok; rfl]
    exact agree_gets_iff h h' htext hbinary hv
  | getMulti keys =>
    rw [run, run, agree_map_iff fun _ _ hok => by cases hok; rfl]
    refine (agree_getMulti_iff h h' htext hbinary hv).trans ?_
    simp [mem_hits, Operation.Alike, and_assoc]
  | incr key delta | decr key delta =>
    rw [run, run, agree_map_iff fun _ _ hok => by cases hok; rfl, arith_text h htext hv,
      arith_binary h' hbinary hv]
    refine iff_of_true ?_ trivial
    cases srv.count _ key delta <;> rfl
  | delete key =>
    rw [run, run, agree_done_iff, deleteCmd_eq h hv, deleteCmd_eq h' hv]
    exact iff_of_true (by split_ifs <;> rfl) trivial
  | touch key ttl =>
    rw [run, run, agree_done_iff, touchCmd_eq h hv, touchCmd_eq h' hv]
    exact iff_of_true (by split_ifs <;> rfl) trivial

end Main

/-- A server with an empty value under `k`. -/
def emptyValue : Server :=
  { items := fun key => if key = ascii "k" then some ⟨[], 0, 7⟩ else none, limit := 1024 }

def newConn (binary : Bool) : Conn := ⟨binary, {}, 0, 0⟩

theorem newConn_idle {binary : Bool} : (newConn binary).Idle := ⟨rfl, rfl, rfl⟩

theorem agree_run_iff_get : Agree ((Operation.get (ascii "k")).run emptyValue (newConn false) 0)
    ((Operation.get (ascii "k")).run emptyValue (newConn true) 0) := by
  refine (agree_run_iff emptyValue newConn_idle newConn_idle rfl rfl 0 _).mpr fun _ it hit => ?_
  cases hit
  exact of_decide_eq_true rfl

/-- An `add` of a key that is there, a `replace` of one that is not, and the `gets` of an empty
value. -/
theorem dialects_disagree :
    (Operation.add (ascii "k") [] 0).run emptyValue (newConn false) 0 = .error .notStored ∧
    (Operation.add (ascii "k") [] 0).run emptyValue (newConn true) 0 = .error .casConflict ∧
    (Operation.replace (ascii "l") [] 0).run emptyValue (newConn false) 0 = .error .notStored ∧
    (Operation.replace (ascii "l") [] 0).run emptyValue (newConn true) 0 = .error .cacheMiss ∧
    (Operation.gets (ascii "k")).run emptyValue (newConn false) 0 =
      .ok (.item ⟨ascii "k", [], 0, 7⟩) ∧
    (Operation.gets (ascii "k")).run emptyValue (newConn true) 0 = .error .cacheMiss :=
  ⟨rfl, rfl, rfl, rfl, rfl, rfl⟩

end Celeris.Memcached
