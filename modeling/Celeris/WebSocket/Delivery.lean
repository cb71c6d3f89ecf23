import Celeris.WebSocket.ChanReader

/-!
# What the inbound reader delivers

The spill only ever holds what came after everything in the channel: `Append` sends
only while the spill is empty, and chunks leave the spill at its front. So the bytes
that `Read` returned, the rest of the chunk it is in, the channel and the spill are
together what was accepted, in this order (`Ordered`). `Closing` says what the handler
knows once it has loaded a set `closed`.
-/

namespace Celeris.WebSocket

open Transition List Nat

/-! ## The order of the stream -/

/-- The chunk of an `Append` that has queued it and has not returned. -/
def Producer.queued : Producer → List Bytes
  | .unlockSpill chunk _ | .depth chunk | .lockPaused chunk | .pause chunk | .recheckDepth chunk
  | .recheckSpill chunk | .unlockPaused chunk => [chunk]
  | _ => []

/-- The worker is about to send, and saw the spill empty. -/
def Producer.sending : Producer → Prop
  | .send _ => True
  | _ => False

/-- The chunks at the front of the spill that are in the channel already. -/
def Consumer.promotedCount : Consumer → Nat
  | .promote _ n | .promoted _ n => n
  | _ => 0

/-- The promotion is the one in `next`. -/
def Promotion.inNext : Promotion → Bool
  | .next _ => true
  | .refill => false

/-- The handler is in `next`. -/
def Consumer.inNext : Consumer → Bool
  | .loadClosed | .receive _ | .report _ | .block => true
  | .lockSpill site | .promote site _ | .promoted site _ | .unlockSpill site _ => site.inNext
  | _ => false

namespace ChanReader

variable {w : Watermarks} {s t : ChanReader}

def behind (s : ChanReader) : List Bytes := s.spill.drop s.consumer.promotedCount

/-- The chunks that were accepted, or will be when their `Append` returns. -/
def taken (s : ChanReader) : List Bytes := s.accepted ++ s.producer.queued

/-- Every byte that was taken is delivered, in the chunk being read, in the channel or in
the spill, in this order. -/
structure Ordered (w : Watermarks) (s : ChanReader) : Prop where
  stream : s.delivered ++ s.cur ++ (s.ch ++ s.behind).flatten = s.taken.flatten
  spillLen_eq : s.spillLen = s.spill.length
  promoted_le : s.consumer.promotedCount ≤ s.spill.length
  sending : s.producer.sending → s.spill = []
  inNext : s.consumer.inNext = true → s.cur = []
  ch_le : s.ch.length ≤ w.capacity
  spill_le : s.spill.length ≤ w.spillMax

variable {chunks : List Bytes} {chunk : Bytes}

/-- A chunk that is queued last is last in the stream. -/
theorem stream_concat {front : Bytes} {accepted : List Bytes}
    (h : front ++ chunks.flatten = (accepted ++ []).flatten) :
    front ++ (chunks ++ [chunk]).flatten = (accepted ++ [chunk]).flatten := by
  rw [append_nil] at h
  rw [flatten_concat, ← append_assoc, h, flatten_concat]

theorem length_concat_le {n : Nat} (h : chunks.length < n) : (chunks ++ [chunk]).length ≤ n := by
  rw [length_append]
  exact h

/-- A chunk goes to the channel when nothing is spilled. -/
theorem Ordered.stream_send {p q : Producer} (h : Ordered w { s with producer := p })
    (hsp : s.spill = []) (hp : p.queued = []) (hq : q.queued = [chunk]) :
    s.delivered ++ s.cur ++ (s.ch ++ [chunk] ++ s.behind).flatten =
      (s.accepted ++ q.queued).flatten := by
  have hb : s.behind = [] := by
    rw [behind, hsp]
    exact drop_nil
  have hs : s.delivered ++ s.cur ++ (s.ch ++ s.behind).flatten = (s.accepted ++ p.queued).flatten :=
    h.stream
  rw [hb, hp, append_nil s.ch] at hs
  rw [hb, hq, append_nil]
  exact stream_concat hs

theorem Ordered.produced (h : s.Ordered w) (hst : Produced w s t) : t.Ordered w := by
  cases hst with
  | refused | opened | behind | full | locked | stillFull | overflowed | unlocked | unlockedSpilled
  | unlockedDropped | high | lockedPaused | notPaused | paused | drained | deep | behindSpill
  | lifted
  | closedBefore | closed | storedErr | closedDone => exact { h with sending := nofun }
  | front hl => exact { h with sending := fun _ => eq_nil_of_length_eq_zero (h.spillLen_eq ▸ hl) }
  | @sent chunk s hr =>
    have hs : s.spill = [] := h.sending trivial
    exact { h with
      stream := h.stream_send hs rfl rfl, sending := nofun, ch_le := length_concat_le hr }
  | @retried chunk s hs hr =>
    exact { h with
      stream := h.stream_send hs rfl rfl, sending := nofun, ch_le := length_concat_le hr }
  | @spilled chunk s hm =>
    refine { h with
      stream := ?_, spillLen_eq := ?_, promoted_le := ?_, sending := nofun, spill_le := ?_ }
    · have hb : (s.spill ++ [chunk]).drop s.consumer.promotedCount =
          s.spill.drop s.consumer.promotedCount ++ [chunk] := drop_append_of_le_length h.promoted_le
      simp only [behind, hb, ← append_assoc s.ch]
      exact stream_concat h.stream
    · rw [length_append]
      rfl
    · exact Nat.le_trans h.promoted_le (length_append ▸ Nat.le_add_right ..)
    · exact length_concat_le hm
  | @low chunk s | @unlockedPaused chunk s =>
    refine { h with stream := h.stream.trans ?_, sending := nofun }
    exact congrArg flatten (append_nil (s.accepted ++ [chunk])).symm

theorem Ordered.consumed (h : s.Ordered w) (hst : Consumed w s t) : t.Ordered w := by
  cases hst with
  | loadedClosed | empty | ended | none | blocked | woken => exact { h with }
  | noRefill | refill | noResume | mayResume | lockedPaused | resumed | deep | unlockedPaused
  | reported =>
    exact { h with inNext := nofun }
  | locked => exact { h with promoted_le := zero_le _ }
  | @received chunk rest s closed | @handed chunk rest s =>
    have hcur : s.cur = [] := h.inNext rfl
    refine { h with stream := ?_, inNext := nofun, ch_le := le_of_succ_le h.ch_le }
    have hs : s.delivered ++ s.cur ++ (chunk ++ (rest ++ s.spill).flatten) = s.taken.flatten :=
      h.stream
    rw [hcur, append_nil, ← append_assoc] at hs
    exact hs
  | @moved n chunk site s hn hr =>
    obtain ⟨hlt, hc⟩ := List.getElem?_eq_some_iff.mp hn
    refine { h with stream := ?_, promoted_le := hlt, ch_le := length_concat_le hr }
    have hs : s.delivered ++ s.cur ++ (s.ch ++ s.spill.drop n).flatten = s.taken.flatten := h.stream
    rw [drop_eq_getElem_cons hlt, hc, append_cons] at hs
    exact hs
  | @some site n s =>
    refine { h with
      spillLen_eq := rfl, promoted_le := zero_le _, sending := fun hsend => ?_, spill_le := ?_ }
    · have hsp : s.spill = [] := h.sending hsend
      simp [hsp]
    · exact Nat.le_trans (length_drop ▸ Nat.sub_le ..) h.spill_le
  | @unlocked moved s site =>
    cases site with
    | next closed => cases moved <;> exact { h with }
    | refill => exact { h with inNext := nofun }
  | @copied s =>
    refine { h with stream := ?_, inNext := nofun }
    have hs : s.delivered ++ s.cur ++ (s.ch ++ s.spill).flatten = s.taken.flatten := h.stream
    rw [← s.cur.take_append_drop s.room, ← append_assoc] at hs
    exact hs

theorem Ordered.stepped (h : s.Ordered w) (hst : Stepped w s t) : t.Ordered w := by
  cases hst with
  | append | closeWith => exact { h with sending := nofun }
  | produce hst => exact h.produced hst
  | read hc => exact { h with inNext := fun _ => hc }
  | readRest => exact { h with inNext := nofun }
  | consume hst => exact h.consumed hst

end ChanReader

/-! ## The close

Only the worker closes, so what it queued was queued before. A handler that has loaded
`closed` finds everything that there will ever be in the channel and in the spill. -/

/-- The worker is in `Append` and has found the reader open. -/
def Producer.appending : Producer → Bool
  | .idle | .loadClosed _ | .swapClosed .. | .storeErr .. | .closeDone _ => false
  | _ => true

/-- The handler had loaded a set `closed` when it began to promote. -/
def Promotion.sawClosed : Promotion → Bool
  | .next closed => closed
  | .refill => false

/-- The handler has loaded a set `closed`. -/
def Consumer.sawClosed : Consumer → Bool
  | .receive closed | .report closed => closed
  | .lockSpill site | .promote site _ | .promoted site _ | .unlockSpill site _ => site.sawClosed
  | _ => false

/-- The handler has loaded a set `closed`, and found the channel empty after that. -/
def Consumer.foundEmpty : Consumer → Bool
  | .report closed => closed
  | .lockSpill site | .promote site 0 | .promoted site 0 | .unlockSpill site false => site.sawClosed
  | _ => false

/-- The handler has loaded a set `closed`, and found nothing to promote after that. -/
def Consumer.foundNothing : Consumer → Bool
  | .report closed => closed
  | .promoted site 0 | .unlockSpill site false => site.sawClosed
  | _ => false

theorem Consumer.sawClosed_of_foundEmpty {c : Consumer} (h : c.foundEmpty = true) :
    c.sawClosed = true := by
  unfold foundEmpty at h
  split at h
  · exact h
  · exact h
  · exact h
  · exact h
  · exact h
  · cases h

theorem Consumer.foundEmpty_of_foundNothing {c : Consumer} (h : c.foundNothing = true) :
    c.foundEmpty = true := by
  unfold foundNothing at h
  split at h
  · exact h
  · exact h
  · exact h
  · cases h

namespace ChanReader

variable {w : Watermarks} {s t : ChanReader}

/-- What a set `closed` promises. -/
structure Closing (s : ChanReader) : Prop where
  appending : s.closed = true → s.producer.appending = false
  sawClosed : s.consumer.sawClosed = true → s.closed = true
  foundEmpty : s.consumer.foundEmpty = true → s.ch = []
  foundNothing : s.consumer.foundNothing = true → s.spill = []
  reported : s.reported ≠ [] → s.closed = true ∧ s.cur = [] ∧ s.ch = [] ∧ s.spill = []

/-- A handler that has not loaded a set `closed` has found nothing out. -/
theorem Closing.of_not_saw (hs : s.consumer.sawClosed = false)
    (ha : s.closed = true → s.producer.appending = false)
    (hr : s.reported ≠ [] → s.closed = true ∧ s.cur = [] ∧ s.ch = [] ∧ s.spill = []) :
    s.Closing := by
  have hn : s.consumer.sawClosed ≠ true := Bool.eq_false_iff.mp hs
  have he : s.consumer.foundEmpty ≠ true := fun hf => hn (Consumer.sawClosed_of_foundEmpty hf)
  exact ⟨ha, fun h => (hn h).elim, fun h => (he h).elim,
    fun h => (he (Consumer.foundEmpty_of_foundNothing h)).elim, hr⟩

theorem Closing.of_open (hc : s.closed = false) (hs : s.consumer.sawClosed = false)
    (hr : s.reported = []) : s.Closing := by
  refine .of_not_saw hs (fun h => ?_) fun h => (h hr).elim
  rw [hc] at h
  cases h

/-- The reader is open while `Append` is past its test. -/
theorem Closing.open_of_appending (h : s.Closing) (hp : s.producer.appending = true) :
    s.closed = false ∧ s.consumer.sawClosed = false ∧ s.reported = [] := by
  have ho : s.closed ≠ true := by
    intro hc
    rw [h.appending hc] at hp
    cases hp
  refine ⟨Bool.not_eq_true _ ▸ ho, Bool.not_eq_true _ ▸ fun hs => ho (h.sawClosed hs), ?_⟩
  by_contra hr
  exact ho (h.reported hr).1

theorem Closing.produced (h : s.Closing) (hst : Produced w s t) : t.Closing := by
  cases hst with
  | behind | front | full | locked | stillFull | overflowed | unlocked | unlockedSpilled | high
  | lockedPaused | notPaused | paused | drained | deep | behindSpill | lifted | storedErr =>
    exact { h with }
  | refused | unlockedDropped | low | unlockedPaused | closedBefore | closedDone =>
    exact { h with appending := fun _ => rfl }
  | opened ho =>
    refine { h with appending := fun hc => ?_ }
    rw [ho] at hc
    cases hc
  | sent | retried | spilled =>
    obtain ⟨ho, hs, hr⟩ := h.open_of_appending rfl
    exact .of_open ho hs hr
  | closed =>
    exact { h with
      appending := fun _ => rfl
      sawClosed := fun _ => rfl
      reported := fun hr => ⟨rfl, (h.reported hr).2⟩ }

/-- A promotion into an empty channel stops when nothing is spilled. -/
theorem spill_eq_nil (hend : s.spill.length ≤ 0 ∨ w.capacity ≤ s.ch.length) (hch : s.ch = []) :
    s.spill = [] := by
  rw [hch] at hend
  have hle := hend.resolve_right (Nat.not_le_of_lt w.capacity_pos)
  exact eq_nil_of_length_eq_zero (eq_zero_of_le_zero hle)

theorem Closing.consumed (h : s.Closing) (ho : s.Ordered w) (hst : Consumed w s t) : t.Closing := by
  cases hst with
  | loadedClosed => exact { h with sawClosed := id, foundEmpty := nofun, foundNothing := nofun }
  | received | handed =>
    refine .of_not_saw rfl h.appending fun hne => ?_
    cases (h.reported hne).2.2.1
  | empty hch => exact { h with foundEmpty := fun _ => hch, foundNothing := nofun }
  | locked => exact { h with foundNothing := nofun }
  | @moved n chunk site s hn =>
    refine { h with foundEmpty := nofun, foundNothing := nofun, reported := fun hne => ?_ }
    have hs : s.spill = [] := (h.reported hne).2.2.2
    rw [hs] at hn
    cases hn
  | @ended n site s hend =>
    cases n with
    | succ n => exact { h with foundEmpty := nofun, foundNothing := nofun }
    | zero =>
      exact { h with foundNothing := fun hsaw => spill_eq_nil hend (h.foundEmpty hsaw) }
  | none => exact { h with }
  | @some site n s =>
    refine { h with foundEmpty := nofun, foundNothing := nofun, reported := fun hne => ?_ }
    obtain ⟨hc, hcur, hch, hs⟩ := h.reported hne
    refine ⟨hc, hcur, hch, ?_⟩
    have hnil : s.spill = [] := hs
    simp [hnil]
  | @unlocked moved s site =>
    cases site with
    | next closed =>
      cases moved with
      | false => exact { h with }
      | true => exact .of_not_saw rfl h.appending h.reported
    | refill => exact .of_not_saw rfl h.appending h.reported
  | reported =>
    refine .of_not_saw rfl h.appending fun _ => ?_
    exact ⟨h.sawClosed rfl, ho.inNext rfl, h.foundEmpty rfl, h.foundNothing rfl⟩
  | @copied s =>
    refine .of_not_saw rfl h.appending fun hne => ?_
    obtain ⟨hc, hcur, hr⟩ := h.reported hne
    have hnil : s.cur = [] := hcur
    refine ⟨hc, ?_, hr⟩
    simp [hnil]
  | blocked | woken | noRefill | refill | noResume | mayResume | lockedPaused | resumed | deep
  | unlockedPaused =>
    exact .of_not_saw rfl h.appending h.reported

theorem Closing.stepped (h : s.Closing) (ho : s.Ordered w) (hst : Stepped w s t) : t.Closing := by
  cases hst with
  | append | closeWith => exact { h with appending := fun _ => rfl }
  | produce hst => exact h.produced hst
  | read | readRest => exact .of_not_saw rfl h.appending h.reported
  | consume hst => exact h.consumed ho hst

/-! ## Runs -/

theorem ordered_init : Ordered w {} where
  stream := rfl
  spillLen_eq := rfl
  promoted_le := Nat.le_refl _
  sending := nofun
  inNext := nofun
  ch_le := zero_le _
  spill_le := zero_le _

theorem Reachable.invariant (h : Reachable w s) : s.Ordered w ∧ s.Closing := by
  refine Runs.invariant (P := fun s => s.Ordered w ∧ s.Closing) (fun hi _ hst => ?_)
    ⟨ordered_init, .of_open rfl rfl rfl⟩ h
  have hs := stepped hst
  exact ⟨hi.1.stepped hs, hi.2.stepped hi.1 hs⟩

theorem Produced.taken (h : Produced w s t) : s.taken <+: t.taken := by
  cases h with
  | @sent chunk s | @retried chunk s | @spilled chunk s =>
    have ht : s.accepted ++ [] <+: s.accepted ++ [chunk] := by simp
    exact ht
  | low | unlockedPaused => exact prefix_append ..
  | _ => exact prefix_rfl

theorem Consumed.taken (h : Consumed w s t) : t.taken = s.taken := by
  cases h <;> rfl

/-- What was taken stays taken: an `Append` that has queued its chunk returns true. -/
theorem Stepped.taken (h : Stepped w s t) : s.taken <+: t.taken := by
  cases h with
  | append | closeWith | read | readRest => exact prefix_rfl
  | produce hst => exact hst.taken
  | consume hst => exact hst.taken ▸ prefix_rfl

/-- The chunks that the reader holds, with the one being read. -/
def buffered (s : ChanReader) : Nat :=
  s.ch.length + s.behind.length + if s.cur = [] then 0 else 1

theorem Ordered.buffered_le (h : s.Ordered w) : s.buffered ≤ 2 * w.capacity + 1 := by
  have hch := h.ch_le
  have hs := w.spillMax_eq ▸ h.spill_le
  have hb : s.behind.length ≤ s.spill.length := length_drop ▸ sub_le ..
  unfold buffered
  split_ifs <;> omega

theorem taken_of_not_appending (h : s.producer.appending = false) : s.taken = s.accepted := by
  unfold taken
  cases hp : s.producer <;> rw [hp] at h <;> first | exact append_nil _ | cases h

/-- The bytes that `Read` returned are a prefix of the chunks whose `Append` returned
true, or will: the call that has queued its chunk, if there is one, cannot return false
any more. An error is reported only after every chunk whose `Append` returned true has
been delivered, and what is buffered is bounded by twice the capacity and the chunk
being read. -/
theorem append_delivered (capacity highPct lowPct : Int) (pauser : Bool)
    (h : Reachable (newChanReader capacity highPct lowPct pauser) s) :
      s.delivered <+: s.taken.flatten ∧ (s.producer = .idle → s.delivered <+: s.accepted.flatten) ∧
      (∀ a t, s.step (newChanReader capacity highPct lowPct pauser) a = some t →
        s.taken <+: t.taken) ∧
      (s.reported ≠ [] → s.delivered = s.accepted.flatten) ∧
        s.buffered ≤ 2 * newCapacity capacity + 1 := by
  obtain ⟨ho, hc⟩ := h.invariant
  have hf : s.delivered <+: s.taken.flatten := by
    rw [← ho.stream, append_assoc]
    exact prefix_append ..
  refine ⟨hf, fun hi => ?_, fun a t hst => (stepped hst).taken, fun hr => ?_,
    ho.buffered_le⟩
  · rwa [taken_of_not_appending (by rw [hi]; rfl)] at hf
  · obtain ⟨hcl, hcur, hch, hsp⟩ := hc.reported hr
    have hs := ho.stream
    rw [taken_of_not_appending (hc.appending hcl), behind, hcur, hch, hsp, drop_nil] at hs
    simpa using hs

/-- A worker appends two chunks to a reader of capacity one, the second of which is
spilled, and closes it; the handler reads one byte, then the rest, then the error. -/
def spilledRun : List Action :=
  Action.append [104, 101] :: List.replicate 8 .produce ++ Action.append [108] ::
    List.replicate 10 .produce ++
    Action.closeWith none :: List.replicate 3 .produce ++ Action.read 1 :: List.replicate 13
      (.consume true) ++
    Action.read 9 :: .consume true :: .read 9 :: List.replicate 8 (.consume true) ++
    Action.read 9 :: List.replicate 7 (.consume true)

theorem append_delivered_spilled : ∃ s, Reachable (newChanReader 1 75 25 true) s ∧
    s.accepted = [[104, 101], [108]] ∧ s.reported = [.eof] ∧ s.delivered = s.accepted.flatten := by
  obtain ⟨s, hre, ha, hr⟩ : ∃ s, Reachable (newChanReader 1 75 25 true) s ∧
    s.accepted = [[104, 101], [108]] ∧
    s.reported = [.eof] := exists_runs spilledRun (by decide +kernel)
  refine ⟨s, hre, ha, hr, ?_⟩
  refine (append_delivered 1 75 25 true hre).2.2.2.1 ?_
  rw [hr]
  exact cons_ne_nil _ _

end ChanReader

end Celeris.WebSocket
