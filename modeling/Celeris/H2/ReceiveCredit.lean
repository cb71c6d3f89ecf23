import Celeris.H2.Events

/-!
# Credit for what the peer has sent

Every byte of a `DATA` frame, padding and all, takes from the connection's receive
window, whether the stream takes the frame or not. The server gives it back in the
connection's `WINDOW_UPDATE`s, or has it in `pendingConnWindowUpdate` to give later.
The two together are what the peer has sent, as long as the connection goes on, so the
window does not leak.
-/

namespace Celeris.H2

namespace Manager

/-- So many bytes are given back or will be. -/
structure Credited (total : Nat) (m : Manager) : Prop where
  sum : m.increments.sum + m.pendingConnWindowUpdate = total
  small : m.pendingConnWindowUpdate < windowUpdateThreshold
  range : ∀ x ∈ m.increments, 1 ≤ x ∧ (x : Int) ≤ maxWindow

namespace Credited

variable {m t : Manager} {total n : Nat}

/-- The increments stay. -/
theorem same (h : Credited total m) (hi : t.increments.Perm m.increments)
    (hp : t.pendingConnWindowUpdate = m.pendingConnWindowUpdate) : Credited total t where
  sum := by rw [hi.sum_eq, hp, h.sum]
  small := hp ▸ h.small
  range x hx := h.range x (hi.mem_iff.mp hx)

theorem credits (h : Credited total m) (hp : ∀ u ∈ m.pendingStreamUpdates, u.1 ≠ 0)
    (hc : Credits n m t) : Credited (total + n) t := by
  obtain ⟨hs, given, hperm, hsum, hr⟩ := hc.gives hp h.small
  refine ⟨?_, hs, fun x hx => ?_⟩
  · rw [hperm.sum_eq, List.sum_append, ← h.sum]
    omega
  · rcases List.mem_append.mp (hperm.mem_iff.mp hx) with hx | hx
    · exact h.range x hx
    · exact hr x hx

end Credited

end Manager

namespace Processor

open Manager

variable {T : Scope} {p q : Processor} {total n : Nat}

/-- A change gives back what it weighs. -/
theorem Change.credited (hinv : Inv T p) (hc : Change T n p q) (h : Credited total p.manager) :
    Credited (total + n) q.manager := by
  cases hc with
  | books hb => rwa [hb.manager]
  | respond hr =>
    exact h.same (.of_eq (hr.writes.increments fun _ ho => ho.connIncrement))
      (congrArg Manager.pendingConnWindowUpdate hr.core :)
  | write hout => exact h.same (.of_eq
      ((Writes.write hout).increments fun _ => Output.IsControl.connIncrement)) rfl
  | goAway =>
    refine h.same (.of_eq (Writes.increments (P := fun o => o.connIncrement = none) (fun _ ho => ho)
      (.write (List.forall_mem_singleton.mpr ?_)))) rfl
    rfl
  | flushOut => exact h.same (.of_eq (by simp [increments, sent, Manager.flushOut])) rfl
  | drain => exact h.same increments_drainWriteQueue rfl
  | leave hl =>
    exact h.same (.of_eq (hl.writes.increments fun _ ho => ho.connIncrement))
      (congrArg Manager.pendingConnWindowUpdate hl.frame :)
  | opened hi hodd hf hopen hfree =>
    have hop := opens_of_tryOpenStream hopen hfree
    exact h.same (.of_eq (congrArg (List.filterMap Output.connIncrement) hop.sent))
      (congrArg Manager.pendingConnWindowUpdate hop.frame :)
  | credit hcr => exact h.credits hinv.pending hcr
  | _ => exact h.same (.refl _) rfl

theorem Change.received (hc : Change T n p q) : q.received = p.received := by
  cases hc with
  | books hb => exact hb.received
  | _ => rfl

theorem changes_credited (hi : Inv T p) (hch : Changes T n p q) (h : Credited total p.manager) :
    Inv T q ∧ Credited (total + n) q.manager ∧ q.received = p.received := by
  induction hch with
  | refl => exact ⟨hi, h, rfl⟩
  | tail _ hc ih =>
    obtain ⟨hi', h', hr⟩ := ih hi h
    rw [← Nat.add_assoc]
    exact ⟨hc.inv hi', hc.credited hi' h', hc.received.trans hr⟩

/-- One event gives back the length of its frame, unless it ends the connection. -/
theorem credited_step {e : Event} (hi : Inv T p) (hT : EventOk T p e) (hs : step p e = some q)
    (ho : q.ended = false) (h : Credited p.received p.manager) : Credited q.received q.manager := by
  obtain ⟨n, u, hch, hn, hq⟩ := step_changes hi hT hs
  have hr := resizes_resizedBy p e
  have hc : Credited p.received (p.resizedBy e).manager :=
    h.same (.of_eq (hr.manager.writes.increments fun _ ⟨_, ho⟩ => ho.connIncrement))
      (congrArg Manager.pendingConnWindowUpdate hr.manager.core :)
  obtain ⟨-, hu, hre⟩ := changes_credited (hi.resizes hr) hch hc
  rw [hn ho] at hu
  rw [hq]
  rwa [hre, hr.received]

/-- Whatever the frames, the flushes and the handlers: as long as the connection goes on, the
increments of its `WINDOW_UPDATE`s and what is pending add up to the flow-controlled
length of the `DATA` it has received, and every increment is one the peer takes. -/
theorem receiveCredit_conserved {cfg : Config}
    (h : Transition.Runs step (fun _ _ => True) (newProcessor cfg) p) (hopen : p.ended = false) :
    p.manager.increments.sum + p.manager.pendingConnWindowUpdate = p.received ∧
      ∀ x ∈ p.manager.increments, 1 ≤ x ∧ (x : Int) ≤ 2 ^ 31 - 1 := by
  have hc : Credited p.received p.manager := open_of_runs
    (P := fun p => Credited p.received p.manager) ⟨rfl, Nat.zero_lt_succ _, nofun⟩ credited_step h
      hopen
  exact ⟨hc.sum, hc.range⟩

/-- A padded frame on an open stream, one on the stream the server has refused, one that is
over the limit of the body, and the flushes: nothing is lost. -/
theorem fourFrames_conserved : let post : List Field :=
      [(ascii ":method", ascii "POST"), (ascii ":scheme", ascii "http"), (ascii ":path", ascii "/")]
    let headers (id : Nat) : Frame := .headers ⟨id, false, true, none, [], 0⟩
    let events : List Event :=
      [.frame { decoded := .fields post } (headers 1),
        .frame {} (.data ⟨1, false, ascii "abc", 9000, by decide, by decide⟩),
        .frame { decoded := .fields [] } (headers 3),
        .frame {} (.data ⟨3, false, ascii "abc", 200, by decide, by decide⟩),
          .flushWindowUpdates true,
        .frame {} (.data ⟨1, false, ascii "abcdef", 7, by decide, by decide⟩),
        .frame {} (.data ⟨1, true, [], 5, by decide, by decide⟩)]
    ∃ p, Transition.exec step (fun _ _ => True) (newProcessor { maxRequestBodySize := 8 }) events =
      some p ∧
      p.ended = false ∧ (p.manager.increments, p.manager.pendingConnWindowUpdate) =
        ([9000, 200], 12) ∧
      p.manager.increments.sum + p.manager.pendingConnWindowUpdate = p.received := by
  intro post headers events
  obtain ⟨p, he, ho, hp⟩ : ∃ p ∈ Transition.exec step (fun _ _ => True)
    (newProcessor { maxRequestBodySize := 8 })
      events, p.ended = false ∧ (p.manager.increments, p.manager.pendingConnWindowUpdate) =
    ([9000, 200], 12) := by decide +kernel
  exact ⟨p, he, ho, hp, (receiveCredit_conserved (Transition.runs_of_exec he) ho).1⟩

end Processor

end Celeris.H2
