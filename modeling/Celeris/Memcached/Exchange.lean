import Celeris.Memcached.Commands
import Celeris.Memcached.Pending

/-!
# What a request holds after its replies

A connection with one request on its bridge receives the replies of the server: one line or
one packet, or values and the mark that ends them. The request is finished in each case,
with what the replies carry or with the error of the reader.
-/

namespace Celeris.Memcached

open List State TextReply Request Memcached.Conn

/-! ## The text decoder on one reply -/

def Request.withValues (q : Request) (values : List ValueItem) : Request :=
  { q with values := q.values ++ values }

theorem Request.withValues_withValues {q : Request} {v : ValueItem} {values : List ValueItem} :
    (q.withValues [v]).withValues values = q.withValues (v :: values) := by
  simp [withValues]

namespace State

variable {s : State} {r : Nat} {v : TextReply} {f : Request → Request} {vs : List TextReply}
  {q : Request} {ps : List BinaryPacket}

@[simp] theorem modify_heap : (s.modify r f).heap r = f (s.heap r) :=
  Function.update_self ..

@[simp] theorem enqueue_heap (s : State) (r : Nat) (q : Request) : (s.enqueue r q).heap r = q :=
  Function.update_self ..

theorem drainWithError_heap (hb : r ∈ s.bridge) {e : ClientError} :
    (s.drainWithError e).heap r = { s.heap r with resultErr := some e, finished := true } :=
  if_pos hb

theorem dispatchText_single (hb : s.bridge = [r]) (hv : v.kind.singleLine = true) :
    s.dispatchText v = .ok (s.pop.modify r (settle v)) := by
  unfold dispatchText
  rw [hb]
  cases hk : v.kind with
  | value | endMark | stat =>
    rw [hk] at hv
    cases hv
  | _ => rfl

theorem dispatchText_value (hb : s.bridge = [r]) (hg : s.pendingGet = none ∨ s.pendingGet = some r)
    (hv : v.kind = .value) :
    s.dispatchText v = .ok ({ s with pendingGet := some r }.modify r (addValue v)) := by
  obtain ⟨heap, owned, bridge, pendingGet, pendingStats⟩ := s
  cases hb
  unfold dispatchText
  rw [hv]
  rcases hg with hg | hg
  · cases hg
    rfl
  · cases hg
    rfl

/-- The request is finished by `END`. -/
def ended (q : Request) : Request := { q with status := .endMark, finished := true }

theorem dispatchText_end (hb : s.bridge = [r]) (hg : s.pendingGet = none ∨ s.pendingGet = some r)
    (hs : s.pendingStats = none) :
    s.dispatchText { kind := .endMark } =
      .ok ({ s with pendingGet := none }.pop.modify r ended) := by
  obtain ⟨heap, owned, bridge, pendingGet, pendingStats⟩ := s
  cases hb
  cases hs
  rcases hg with hg | hg
  · cases hg
    exact if_pos rfl
  · cases hg
    exact if_pos rfl

theorem readable_value (hv : v.kind = .value) :
    v.readable = true ↔ v.data.length ≤ maxValueLen := by
  rw [readable, decide_eq_true_iff, hv]
  exact ⟨fun h => h.resolve_left (· rfl), .inr⟩

/-- Values and `END`, none of them too long. -/
theorem onRecv_values (hb : s.bridge = [r])
    (hg : s.pendingGet = none ∨ s.pendingGet = some r) (hs : s.pendingStats = none)
    (hvs : ∀ v ∈ vs, v.kind = .value) (hr : ∀ v ∈ vs, v.data.length ≤ maxValueLen) :
    (onRecv (s.process TextReply.readable dispatchText (vs ++ [{ kind := .endMark }]))).heap r =
      ended ((s.heap r).withValues (vs.map fun v => ⟨v.key, v.flags, v.cas, v.data⟩)) := by
  induction vs generalizing s with
  | nil =>
    rw [nil_append, process, dispatchText_end hb hg hs]
    simp only [readable, process, onRecv, withValues, map_nil, append_nil]
    exact modify_heap ..
  | cons v vs ih =>
    have hk := hvs v mem_cons_self
    rw [cons_append, process, if_pos ((readable_value hk).mpr (hr v mem_cons_self)),
      dispatchText_value hb hg hk]
    refine (ih (s := { s with pendingGet := some r }.modify r (addValue v)) hb (.inr rfl) hs
      (fun w hw => hvs w (mem_cons_of_mem v hw)) fun w hw => hr w (mem_cons_of_mem v hw)).trans ?_
    rw [modify_heap]
    exact congrArg ended (withValues_withValues ..)

section Refused

variable {α : Type} {readable : α → Bool} {dispatch : State → α → Except ClientError State}

/-- Replies that are dispatched while the request waits, up to one that the reader refuses. -/
theorem onRecv_refused {P : State → Prop} {vs : List α} {rest : List α}
    (hP : ∀ s, P s → s.bridge = [r])
    (hstep : ∀ s, P s → ∀ v ∈ vs, ∃ t, dispatch s v = .ok t ∧ P t) (hs : P s)
    (hb : ∃ v ∈ vs, readable v = false) :
    ∃ q : Request, (onRecv (s.process readable dispatch (vs ++ rest))).heap r =
      { q with resultErr := some readerError, finished := true } := by
  induction vs generalizing s with
  | nil =>
    obtain ⟨v, hv, -⟩ := hb
    cases hv
  | cons v vs ih =>
    rw [cons_append, process]
    by_cases hr : readable v = true
    · obtain ⟨t, ht, hPt⟩ := hstep s hs v mem_cons_self
      rw [if_pos hr, ht]
      refine ih (fun s hs w hw => hstep s hs w (mem_cons_of_mem v hw)) hPt ?_
      obtain ⟨w, hw, hb⟩ := hb
      rcases mem_cons.mp hw with rfl | hw
      · rw [hr] at hb
        cases hb
      · exact ⟨w, hw, hb⟩
    · rw [if_neg hr, onRecv]
      refine ⟨s.heap r, drainWithError_heap ?_⟩
      rw [hP s hs]
      exact mem_singleton_self r

end Refused

/-- A value that is too long ends the connection. -/
theorem onRecv_values_refused {rest : List TextReply} (hb : s.bridge = [r])
    (hg : s.pendingGet = none)
    (hvs : ∀ v ∈ vs, v.kind = .value) (hl : ∃ v ∈ vs, maxValueLen < v.data.length) :
    ((onRecv (s.process TextReply.readable dispatchText (vs ++ rest))).heap r).resultErr =
      some readerError := by
  obtain ⟨v, hv, hlen⟩ := hl
  have hbad : v.readable = false := by
    rw [← Bool.not_eq_true, readable_value (hvs v hv)]
    exact hlen.not_ge
  obtain ⟨q, hq⟩ :=
    onRecv_refused (P := fun s => s.bridge = [r] ∧ (s.pendingGet = none ∨ s.pendingGet = some r))
    (fun s hs => hs.1) (fun s hs v hv => ⟨_, dispatchText_value hs.1 hs.2 (hvs v hv), hs.1,
      .inr rfl⟩)
    ⟨hb, .inl hg⟩ ⟨v, hv, hbad⟩
  rw [hq]

/-! ## The binary decoder on one reply -/

variable {p : BinaryPacket}

theorem readable_iff : p.readable = true ↔ p.bodyLen ≤ maxValueLen := decide_eq_true_iff

theorem onRecv_packet (hb : s.bridge = [r]) (hk : (s.heap r).kind = .binary)
    (hop : p.opaqueId = (s.heap r).opaqueId) (hr : p.bodyLen ≤ maxValueLen) :
    (onRecv (s.process BinaryPacket.readable dispatchBinary [p])).heap r =
      settleBinary p (s.heap r) := by
  have hd : s.dispatchBinary p = .ok (s.pop.modify r (settleBinary p)) := by
    unfold dispatchBinary
    rw [hb]
    simp [hk, hop]
  rw [process, if_pos (readable_iff.mpr hr), hd]
  exact modify_heap ..

/-- A body that is too long ends the connection. -/
theorem onRecv_packet_refused (hb : s.bridge = [r]) (hr : ¬ p.bodyLen ≤ maxValueLen) :
    (onRecv (s.process BinaryPacket.readable dispatchBinary [p])).heap r =
      { s.heap r with resultErr := some readerError, finished := true } := by
  have hm : r ∈ s.bridge := by
    rw [hb]
    exact mem_singleton_self r
  rw [process, if_neg (readable_iff.not.mpr hr)]
  exact drainWithError_heap hm

theorem settleBinary_binStatus : (settleBinary p q).binStatus = p.status := by
  unfold settleBinary
  by_cases hs : p.status = 0
  · by_cases hv : p.value = []
    · by_cases hc : p.cas = 0 <;> simp only [hs, hv, hc, ne_eq, not_true_eq_false, if_true,
        if_false, not_false_eq_true]
    · simp [hs, hv]
  · simp [hs]

theorem settleBinary_values (hs : p.status = 0) :
    (settleBinary p q).values = q.values ++ if p.value = [] then [] else [packetItem p] := by
  unfold settleBinary
  by_cases hv : p.value = []
  · by_cases hc : p.cas = 0 <;> simp only [hs, hv, hc, ne_eq, not_true_eq_false, if_true, if_false,
      not_false_eq_true, append_nil]
  · simp [hs, hv]

/-- A hit in the middle of the reply to many `get`s. -/
structure Hit (p : BinaryPacket) : Prop where
  opcode : p.opcode = .getKQ
  status : p.status = 0

section

variable (hb : s.bridge = [r]) (hk : (s.heap r).kind = .binaryMulti false)

include hb hk

theorem dispatchBinary_hit (hp : Hit p) :
    s.dispatchBinary p = .ok (s.modify r (·.withValues [packetItem p])) := by
  have ha : accumulate p = (·.withValues [packetItem p]) := by
    funext q
    rw [accumulate, if_pos hp.status, if_neg (by rw [hp.opcode]; decide)]
    rfl
  unfold dispatchBinary
  rw [hb]
  simp [hk, terminates, hp.opcode, ha]

/-- Hits and the answer to a no-op, none of them too long. -/
theorem onRecv_hits (hps : ∀ p ∈ ps, Hit p) (hr : ∀ p ∈ ps, p.bodyLen ≤ maxValueLen) {o : UInt32} :
    (onRecv (s.process BinaryPacket.readable dispatchBinary
      (ps ++ [{ opcode := .noop, opaqueId := o }]))).heap r =
      { (s.heap r).withValues (ps.map packetItem) with binStatus := 0, finished := true } := by
  induction ps generalizing s with
  | nil =>
    have hd : s.dispatchBinary { opcode := .noop, opaqueId := o } =
        .ok (s.pop.modify r (terminate { opcode := .noop, opaqueId := o })) := by
      unfold dispatchBinary
      rw [hb]
      simp [hk, terminates]
    rw [nil_append, process, if_pos (readable_iff.mpr (Nat.zero_le _)), hd, map_nil, withValues,
      append_nil]
    exact modify_heap ..
  | cons p ps ih =>
    rw [cons_append, process, if_pos (readable_iff.mpr (hr p mem_cons_self)),
      dispatchBinary_hit hb hk (hps p mem_cons_self)]
    refine (ih (s := s.modify r _) hb ((congrArg Request.kind (modify_heap ..)).trans hk)
      (fun q hq => hps q (mem_cons_of_mem p hq)) fun q hq => hr q (mem_cons_of_mem p hq)).trans ?_
    rw [modify_heap, withValues_withValues, map_cons]

/-- A hit that is too long ends the connection. -/
theorem onRecv_hits_refused {rest : List BinaryPacket} (hps : ∀ p ∈ ps, Hit p)
    (hl : ∃ p ∈ ps, maxValueLen < p.bodyLen) :
    ((onRecv (s.process BinaryPacket.readable dispatchBinary (ps ++ rest))).heap r).resultErr =
      some readerError := by
  obtain ⟨p, hp, hlen⟩ := hl
  have hbad : p.readable = false := decide_eq_false hlen.not_ge
  obtain ⟨q, hq⟩ :=
    onRecv_refused (P := fun s => s.bridge = [r] ∧ (s.heap r).kind = .binaryMulti false)
    (fun s hs => hs.1) (fun s hs p hp => ⟨_, dispatchBinary_hit hs.1 hs.2 (hps p hp), hs.1,
      (congrArg Request.kind (modify_heap ..)).trans hs.2⟩)
    ⟨hb, hk⟩ ⟨p, hp, hbad⟩
  rw [hq]

end

end State

/-! ## The exchange -/

section Exchange

variable {srv : Server} {c : Conn} {kind : ReplyKind} {cmd : TextCommand}

theorem Conn.Idle.enqueue_bridge (h : c.Idle) {q : Request} :
    (c.state.enqueue c.request q).bridge = [c.request] := by
  rw [enqueue, h.bridge, nil_append]

theorem execText_single (h : c.Idle) {v : TextReply} (ha : srv.answerText cmd = [v])
    (hv : v.kind.singleLine = true) :
    execText srv c kind cmd = otherwise (settle v { kind := kind })
      (settle v { kind := kind }) := by
  have hr : v.readable = true := by
    refine decide_eq_true (.inl fun hk => ?_)
    rw [hk] at hv
    cases hv
  have hq : c.exchange readable dispatchText { kind := kind } [v] =
      settle v { kind := kind } := by
    rw [exchange, process, if_pos hr, dispatchText_single h.enqueue_bridge hv]
    refine (modify_heap ..).trans (congrArg _ ?_)
    exact enqueue_heap ..
  unfold execText
  rw [ha, hq]
  rfl

/-- The values of a reply to `get`. -/
theorem execText_values (h : c.Idle) {vs : List TextReply}
    (ha : srv.answerText cmd = vs ++ [{ kind := .endMark }])
    (hvs : ∀ v ∈ vs, v.kind = .value) (hr : ∀ v ∈ vs, v.data.length ≤ maxValueLen) :
    execText srv c kind cmd =
      .ok (ended (Request.withValues { kind := kind }
        (vs.map fun v => ⟨v.key, v.flags, v.cas, v.data⟩))) := by
  unfold execText
  rw [ha, exchange, onRecv_values h.enqueue_bridge (.inl h.pendingGet) h.pendingStats hvs hr,
    enqueue_heap]
  rfl

theorem execText_values_refused (h : c.Idle) {vs rest : List TextReply}
    (ha : srv.answerText cmd = vs ++ rest)
    (hvs : ∀ v ∈ vs, v.kind = .value) (hl : ∃ v ∈ vs, maxValueLen < v.data.length) :
    execText srv c kind cmd = .error readerError := by
  unfold execText
  rw [ha]
  simp [exchange, onRecv_values_refused h.enqueue_bridge h.pendingGet hvs hl]

variable {encode : UInt32 → BinaryRequest} {p : BinaryPacket}

section

variable (h : c.Idle) (ha : srv.answerBinary (encode (c.opaqueId + 1)) = [p])

include h ha

theorem execBinary_packet (hop : p.opaqueId = c.opaqueId + 1) (hr : p.bodyLen ≤ maxValueLen) :
    execBinary srv c encode = settleBinary p { kind := .binary, opaqueId := c.opaqueId + 1 } := by
  have hh := enqueue_heap c.state c.request { kind := .binary, opaqueId := c.opaqueId + 1 }
  unfold execBinary
  rw [ha, exchange, onRecv_packet h.enqueue_bridge (by rw [hh]) (by rw [hh, hop]) hr, hh]

/-- The error of the reader is left in the request, with the status that a request has before. -/
theorem execBinary_refused (hr : ¬ p.bodyLen ≤ maxValueLen) : execBinary srv c encode =
      { kind := .binary, opaqueId := c.opaqueId + 1, resultErr := some readerError,
        finished := true } := by
  unfold execBinary
  rw [ha, exchange, onRecv_packet_refused h.enqueue_bridge hr, enqueue_heap]

end

variable (batch : UInt32 → List BinaryRequest) {ps : List BinaryPacket}

theorem execBinaryMulti_hits (h : c.Idle) {o : UInt32}
    (ha : (batch (c.opaqueId + 1)).flatMap srv.answerBinary =
      ps ++ [{ opcode := .noop, opaqueId := o }])
    (hps : ∀ p ∈ ps, State.Hit p) (hr : ∀ p ∈ ps, p.bodyLen ≤ maxValueLen) :
    (execBinaryMulti srv c batch).resultErr = none ∧
      (execBinaryMulti srv c batch).values = ps.map packetItem := by
  have hh := enqueue_heap c.state c.request
    { kind := .binaryMulti false, opaqueId := c.opaqueId + 1 }
  unfold execBinaryMulti
  rw [ha, exchange, onRecv_hits h.enqueue_bridge (by rw [hh]) hps hr, hh]
  exact ⟨rfl, rfl⟩

theorem execBinaryMulti_refused (h : c.Idle) {rest : List BinaryPacket}
    (ha : (batch (c.opaqueId + 1)).flatMap srv.answerBinary = ps ++ rest)
    (hps : ∀ p ∈ ps, State.Hit p) (hl : ∃ p ∈ ps, maxValueLen < p.bodyLen) :
    (execBinaryMulti srv c batch).resultErr = some readerError := by
  have hh := enqueue_heap c.state c.request
    { kind := .binaryMulti false, opaqueId := c.opaqueId + 1 }
  unfold execBinaryMulti
  rw [ha, exchange]
  exact onRecv_hits_refused h.enqueue_bridge (by rw [hh]) hps hl

end Exchange

end Celeris.Memcached
