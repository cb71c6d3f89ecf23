import Celeris.WebSocket.Delivery

/-!
# Backpressure on the inbound reader

A reader that paused the engine must lift the pause before its handler blocks on an empty
channel, since nothing else will come. `Pausing` follows who is still going to look: as
long as `pausedState` is set there is a chunk to come, or the handler stands between a
receive and its test of the watermark, or the worker stands between its call of `pause`
and its own test. `Awake` follows who wakes a handler that blocks.
-/

namespace Celeris.WebSocket

open Transition List

/-! ## The calls of the engine -/

/-- Pauses and resumes in turn, a pause first. -/
def Alternates (calls : List Callback) : Prop :=
  ∀ i c, calls[i]? = some c → c = if i % 2 = 0 then .pause else .resume

variable {calls : List Callback}

theorem Alternates.concat {c : Callback} (h : Alternates calls)
    (hc : c = if calls.length % 2 = 0 then .pause else .resume) : Alternates (calls ++ [c]) := by
  intro i d hd
  rw [getElem?_append] at hd
  split_ifs at hd with hi
  · exact h i d hd
  · rw [getElem?_singleton] at hd
    split_ifs at hd with hz
    cases hd
    have hl : i = calls.length := by omega
    rw [hl]
    exact hc

/-- The last call tells the number of calls. -/
theorem Alternates.getLast?_eq_pause (h : Alternates calls) :
    calls.getLast? = some .pause ↔ calls.length % 2 = 1 := by
  rw [getLast?_eq_getElem?]
  constructor
  · intro hl
    have hlt := (List.getElem?_eq_some_iff.mp hl).1
    have hc := h _ _ hl
    split_ifs at hc with hi
    omega
  · intro ho
    have hlt : calls.length - 1 < calls.length := by omega
    have hg := getElem?_eq_getElem hlt
    rw [hg, h _ _ hg, if_pos (by omega)]

/-! ## Who will look at the watermark -/

/-- The worker is in a call of `Append`. -/
def Producer.inAppend : Producer → Bool
  | .idle => false
  | .swapClosed appending _ | .storeErr appending _ | .closeDone appending => appending
  | _ => true

/-- The worker has paused the engine and will test the watermark. -/
def Producer.rechecking : Producer → Bool
  | .recheckDepth _ | .recheckSpill _ => true
  | _ => false

/-- The handler has received a chunk and will test the watermark. -/
def Consumer.willTest : Consumer → Bool
  | .lockSpill site | .promote site _ | .promoted site _ | .unlockSpill site _ => !site.inNext
  | .loadSpillLen | .hasSpill | .lockPaused | .resume => true
  | _ => false

/-- The handler has found nothing to promote, and will block unless the reader is closed. -/
def Consumer.parks : Consumer → Bool
  | .promoted site 0 | .unlockSpill site false => site.inNext
  | .report _ | .block => true
  | _ => false

/-- The worker has found no way to the channel. -/
def Producer.spills : Producer → Prop
  | .spill _ => True
  | _ => False

theorem holdsSpill_of_spills {p : Producer} (h : p.spills) : p.holdsSpill = true := by
  cases p <;> first | rfl | cases h

namespace ChanReader

variable {w : Watermarks} {s t : ChanReader}

/-- A pause is looked after. -/
structure Pausing (s : ChanReader) : Prop where
  exclusive : s.producer.holdsPaused = true → s.consumer.holdsPaused = false
  rechecking : s.producer.rechecking = true → s.pausedState = true
  promoting : 0 < s.consumer.promotedCount → s.ch ≠ []
  watched : s.pausedState = true →
    s.ch ≠ [] ∨ s.behind ≠ [] ∨ s.consumer.willTest = true ∨ s.producer.rechecking = true
  alternates : Alternates s.calls
  parity : s.pausedState = decide (s.calls.length % 2 = 1)

/-- The engine is paused when it runs, and resumed when it is paused. -/
theorem Pausing.signal (h : s.Pausing) (c : Callback) (hc : s.pausedState = (c == .resume)) :
    Alternates (s.calls ++ [c]) ∧ (c == .pause) = decide ((s.calls ++ [c]).length % 2 = 1) := by
  have hp := h.parity
  rw [hc] at hp
  rw [length_append, length_singleton]
  cases c with
  | pause =>
    have he : s.calls.length % 2 ≠ 1 := of_decide_eq_false hp.symm
    refine ⟨h.alternates.concat (if_pos (by omega)).symm, ?_⟩
    exact (decide_eq_true (by omega)).symm
  | resume =>
    have ho : s.calls.length % 2 = 1 := of_decide_eq_true hp.symm
    refine ⟨h.alternates.concat (if_neg (by omega)).symm, ?_⟩
    exact (decide_eq_false (by omega)).symm

theorem Pausing.produced (h : s.Pausing) (ho : s.Ordered w) (hst : Produced w s t) : t.Pausing := by
  cases hst with
  | refused | opened | behind | front | full | locked | stillFull | overflowed | unlocked
  | unlockedSpilled
  | unlockedDropped | high | closedBefore | closed | storedErr | closedDone | low
  | unlockedPaused =>
    exact { h with exclusive := nofun, rechecking := nofun }
  | sent | retried =>
    exact { h with
      exclusive := nofun, rechecking := nofun
      promoting := fun _ => append_ne_nil_of_right_ne_nil _ (cons_ne_nil _ _)
      watched := fun _ => .inl (append_ne_nil_of_right_ne_nil _ (cons_ne_nil _ _)) }
  | @spilled chunk s =>
    refine { h with exclusive := nofun, rechecking := nofun, watched := fun _ => .inr (.inl ?_) }
    have hb : (s.spill ++ [chunk]).drop s.consumer.promotedCount =
        s.spill.drop s.consumer.promotedCount ++ [chunk] := drop_append_of_le_length ho.promoted_le
    rw [ChanReader.behind, hb]
    exact append_ne_nil_of_right_ne_nil _ (cons_ne_nil _ _)
  | lockedPaused hh => exact { h with
      exclusive := fun _ => hh, rechecking := fun h => (by cases h) }
  | notPaused => exact { h with rechecking := fun h => (by cases h) }
  | paused hset =>
    obtain ⟨ha, hp⟩ := h.signal .pause hset
    exact { h with
      rechecking := fun _ => rfl, watched := fun _ => .inr (.inr (.inr rfl))
      alternates := ha, parity := hp }
  | drained => exact { h with }
  | deep hch => exact { h with rechecking := fun h => (by cases h), watched := fun _ => .inl hch }
  | @behindSpill chunk s hlen =>
    refine { h with rechecking := fun h => (by cases h), watched := fun _ => ?_ }
    have hs : 0 < s.spill.length := ho.spillLen_eq ▸ hlen
    -- The chunks that the handler is promoting are in the channel already.
    rcases Nat.lt_or_eq_of_le ho.promoted_le with hlt | heq
    · exact .inr (.inl fun hnil => Nat.not_le_of_lt hlt (drop_eq_nil_iff.mp hnil))
    · exact .inl (h.promoting (heq ▸ hs))
  | lifted =>
    obtain ⟨ha, hp⟩ := h.signal .resume (h.rechecking rfl)
    exact { h with
      rechecking := fun h => (by cases h), watched := fun h => (by cases h), alternates :=
        ha, parity := hp }

theorem holdsPaused_of_rechecking {p : Producer} (h : p.rechecking = true) :
    p.holdsPaused = true := by
  cases p <;> first | rfl | cases h

theorem Pausing.consumed (hpa : w.pauser = true) (h : s.Pausing) (ho : s.Ordered w)
    (hst : Consumed w s t) : t.Pausing := by
  cases hst with
  | loadedClosed | empty | ended | none | reported | blocked | woken | noRefill | refill
  | mayResume =>
    exact { h with }
  | locked | some => exact { h with promoting := nofun }
  | received | handed =>
    exact { h with
      exclusive := fun _ => rfl, promoting := nofun
      watched := fun _ => .inr (.inr (.inl rfl)) }
  | moved =>
    exact { h with
      promoting := fun _ => append_ne_nil_of_right_ne_nil _ (cons_ne_nil _ _)
      watched := fun _ => .inl (append_ne_nil_of_right_ne_nil _ (cons_ne_nil _ _)) }
  | @unlocked moved s site =>
    cases site with
    | next closed => cases moved <;> exact { h with }
    | refill => exact { h with }
  | @noResume s hc =>
    refine { h with watched := fun _ => .inr (.inl fun hnil => ?_) }
    have hlen : 0 < s.spillLen := hc.resolve_left (by rw [hpa]; exact Bool.noConfusion)
    have hs : s.spill = [] := hnil
    rw [ho.spillLen_eq] at hlen
    simp [hs] at hlen
  | lockedPaused hh =>
    refine { h with exclusive := fun hp => ?_ }
    rw [hh] at hp
    cases hp
  | resumed hset =>
    obtain ⟨ha, hparity⟩ := h.signal .resume hset
    refine { h with
      rechecking := fun hp => ?_, watched := nofun, alternates := ha, parity := hparity }
    cases h.exclusive (holdsPaused_of_rechecking hp)
  | deep hch =>
    refine { h with watched := fun hset => .inl (hch.resolve_left ?_) }
    rw [show _ = true from hset]
    exact Bool.noConfusion
  | unlockedPaused => exact { h with exclusive := fun _ => rfl }
  | copied => exact { h with }

theorem Pausing.stepped (hp : w.pauser = true) (h : s.Pausing) (ho : s.Ordered w)
    (hst : Stepped w s t) : t.Pausing := by
  cases hst with
  | append | closeWith => exact { h with exclusive := nofun, rechecking := nofun }
  | produce hst => exact h.produced ho hst
  | read | readRest => exact { h with }
  | consume hst => exact h.consumed hp ho hst

theorem pausing_init : Pausing {} where
  exclusive := nofun
  rechecking := nofun
  promoting := nofun
  watched := nofun
  alternates := nofun
  parity := rfl

theorem Reachable.pausing (hp : w.pauser = true) (h : Reachable w s) : s.Pausing := by
  refine (Runs.invariant (P := fun s => s.Ordered w ∧ s.Pausing) (fun hi _ hst => ?_)
    ⟨ordered_init, pausing_init⟩ h).2
  have hs := ChanReader.stepped hst
  exact ⟨hi.1.stepped hs, hi.2.stepped hp hi.1 hs⟩

theorem inAppend_of_rechecking {p : Producer} (h : p.rechecking = true) : p.inAppend = true := by
  cases p <;> first | rfl | cases h

/-- With the callbacks installed, the engine sees pauses and resumes in turn, the last of
which agrees with `pausedState`, and it is not paused while the handler is blocked, with
nothing buffered and no call of `Append` in progress. -/
theorem pause_never_sticks (capacity highPct lowPct : Int)
    (h : Reachable (newChanReader capacity highPct lowPct true) s) : Alternates s.calls ∧
      (s.pausedState = true ↔ s.calls.getLast? = some .pause) ∧
      ¬ (s.consumer = .block ∧ s.ch = [] ∧ s.spill = [] ∧ s.producer.inAppend = false ∧
        s.pausedState = true) := by
  have hp := h.pausing rfl
  refine ⟨hp.alternates, ?_, ?_⟩
  · rw [hp.alternates.getLast?_eq_pause, hp.parity, decide_eq_true_iff]
  · rintro ⟨hb, hch, hs, ho, hpa⟩
    rcases hp.watched hpa with hne | hne | ht | hr
    · exact hne hch
    · rw [behind, hs, drop_nil] at hne
      exact hne rfl
    · rw [hb] at ht
      cases ht
    · rw [inAppend_of_rechecking hr] at ho
      cases ho

/-- A chunk fills the channel, the engine is paused, and the handler takes the chunk and
blocks for the next. -/
def drainedRun : List Action :=
  Action.append [104, 101] :: List.replicate 8 .produce ++ Action.read 9 :: List.replicate 8
    (.consume true) ++ Action.read 9 :: List.replicate 7 (.consume true)

theorem pause_never_sticks_drained : ∃ s, Reachable (newChanReader 1 75 25 true) s ∧
    s.consumer = .block ∧ s.calls = [.pause, .resume] ∧ s.pausedState = false := by
  obtain ⟨s, hr, hb, hch, hsp, hi, hc⟩ : ∃ s, Reachable (newChanReader 1 75 25 true) s ∧
    s.consumer = .block ∧
    s.ch = [] ∧ s.spill = [] ∧ s.producer = .idle ∧ s.calls = [.pause, .resume] :=
      exists_runs drainedRun (by decide +kernel)
  refine ⟨s, hr, hb, hc, ?_⟩
  have hn := (pause_never_sticks 1 75 25 hr).2.2
  by_contra hp
  exact hn ⟨hb, hch, hsp, hi ▸ rfl, Bool.not_eq_false _ ▸ hp⟩

/-! ## Who wakes the handler -/

/-- A handler that parks has a chunk to wake it if there is one in the spill, or about to be. -/
structure Awake (s : ChanReader) : Prop where
  exclusive : s.producer.holdsSpill = true → s.consumer.holdsSpill = false
  woken : s.consumer.parks = true → s.spill ≠ [] ∨ s.producer.spills → s.ch ≠ []

theorem Awake.spill_nil (ha : s.Awake) (hp : s.consumer.parks = true) (hch : s.ch = []) :
    s.spill = [] := by
  by_contra hs
  exact ha.woken hp (.inl hs) hch

theorem Awake.produced (ha : s.Awake) (h : s.produce w = some t) : t.Awake := by
  cases ChanReader.produced h with
  | @locked chunk s =>
    refine ⟨fun _ => ?_, fun hp hs => ha.woken hp (.inl (hs.resolve_right nofun))⟩
    by_contra hc
    simp [produce, hc] at h
  | retried | sent => exact ⟨ha.exclusive,
      fun _ _ => append_ne_nil_of_right_ne_nil _ (cons_ne_nil _ _)⟩
  | @stillFull chunk s =>
    refine { ha with woken := fun hp _ hch => ?_ }
    -- With nothing spilled, an empty channel has room.
    have hs : s.spill = [] := ha.spill_nil hp hch
    have hch : s.ch = [] := hch
    simp [produce, hasRoom, hs, hch, w.capacity_pos] at h
  | spilled => exact { ha with woken := fun hp _ => ha.woken hp (.inr trivial) }
  | overflowed => exact { ha with
      woken := fun hp hs => ha.woken hp (.inl (hs.resolve_right nofun)) }
  | _ => exact ⟨nofun, fun hp hs => ha.woken hp (.inl (hs.resolve_right nofun))⟩

theorem Awake.consumed {wake : Bool} (ha : s.Awake) (h : s.consume w wake = some t) : t.Awake := by
  cases ChanReader.consumed h with
  | @locked site s =>
    refine ⟨fun hp => ?_, nofun⟩
    simp [consume, show s.producer.holdsSpill = true from hp] at h
  | @ended n site s hend =>
    cases n with
    | succ n => exact ⟨ha.exclusive, nofun⟩
    | zero =>
      refine ⟨ha.exclusive, fun _ hs hch => ?_⟩
      have hp := hs.resolve_left (not_not.mpr (spill_eq_nil hend hch))
      cases ha.exclusive (holdsSpill_of_spills hp)
  | moved | some => exact ⟨ha.exclusive, nofun⟩
  | none | blocked => exact { ha with }
  | @unlocked moved s site =>
    cases site with
    | next closed =>
      cases moved with
      | false => exact ⟨fun _ => rfl, ha.woken⟩
      | true => exact ⟨fun _ => rfl, nofun⟩
    | refill => exact ⟨fun _ => rfl, nofun⟩
  | _ => exact ⟨fun _ => rfl, nofun⟩

theorem Awake.stepped {a : Action} (ha : s.Awake) (h : s.step w a = some t) : t.Awake := by
  cases a with
  | produce => exact ha.produced h
  | consume wake => exact ha.consumed h
  | append | closeWith =>
    rw [step] at h
    split_ifs at h
    cases h
    exact ⟨fun hp => (by cases hp), fun hp hs => ha.woken hp (.inl (hs.resolve_right id))⟩
  | read =>
    rw [step] at h
    split_ifs at h <;> cases h <;> exact ⟨fun _ => rfl, fun hp => (by cases hp)⟩

theorem Reachable.awake (h : Reachable w s) : s.Awake :=
  Runs.invariant (fun ha _ hst => ha.stepped hst) (show Awake {} from ⟨nofun, nofun⟩) h

theorem produce_eq_none (h : s.produce w = none) :
    s.producer = .idle ∨ s.consumer.holdsSpill = true ∨ s.consumer.holdsPaused = true := by
  unfold produce at h
  split at h <;> (try split_ifs at h) <;> simp_all

/-- A handler that cannot go on holds neither lock. -/
theorem consume_eq_none {wake : Bool} (h : s.consume w wake = none) :
    s.consumer.holdsSpill = false ∧ s.consumer.holdsPaused = false ∧
      (s.consumer = .idle ∨ s.producer.holdsSpill = true ∨ s.producer.holdsPaused = true ∨
        s.consumer = .block ∧ s.ch = [] ∧ s.done = false) := by
  unfold consume at h
  split at h <;> (try split at h) <;> (try split_ifs at h) <;> simp_all [Consumer.holdsSpill,
    Consumer.holdsPaused]

/-- The worker and the handler never wait for each other, and nothing is left behind: when neither
can go on, the worker is not in a call, and the handler is not in `Read`, or waits there for more
with all that came delivered and the reader open. -/
theorem never_stranded (h : Reachable w s) (hp : s.produce w = none)
    (hc : s.consume w false = none) : s.producer = .idle ∧
      (s.consumer = .idle ∨ s.consumer = .block ∧ s.done = false ∧
        s.delivered = s.accepted.flatten) := by
  obtain ⟨hsp, hpa, hco⟩ := consume_eq_none hc
  have hi : s.producer = .idle := by
    rcases produce_eq_none hp with hi | hh | hh
    · exact hi
    · cases hsp.symm.trans hh
    · cases hpa.symm.trans hh
  refine ⟨hi, ?_⟩
  rw [hi] at hco
  rcases hco with hr | hh | hh | ⟨hb, hch, hd⟩
  · exact .inl hr
  · cases hh
  · cases hh
  · have hs := h.awake.spill_nil (by rw [hb]; rfl) hch
    have hst := h.invariant.1.stream
    rw [behind, taken, hi, h.invariant.1.inNext (by rw [hb]; rfl), hch, hs, drop_nil] at hst
    exact .inr ⟨hb, hd, by simpa [Producer.queued] using hst⟩

theorem never_stranded_drained : ∃ s, Reachable (newChanReader 1 75 25 true) s ∧
    s.consumer = .block ∧ s.accepted = [[104, 101]] ∧ s.delivered = s.accepted.flatten := by
  obtain ⟨s, hr, hb, ha, hp, hc⟩ : ∃ s, Reachable (newChanReader 1 75 25 true) s ∧
    s.consumer = .block ∧
    s.accepted = [[104, 101]] ∧ s.produce (newChanReader 1 75 25 true) = none ∧
      s.consume (newChanReader 1 75 25 true) false = none :=
        exists_runs drainedRun (by decide +kernel)
  obtain ⟨-, hi | ⟨-, -, hd⟩⟩ := never_stranded hr hp hc
  · cases hb.symm.trans hi
  · exact ⟨s, hr, hb, ha, hd⟩

end ChanReader

end Celeris.WebSocket
