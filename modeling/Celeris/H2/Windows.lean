import Celeris.H2.Events

/-!
# The books of the send windows

The send window of a stream is the initial window size, as the peer has last set it, with
the increments of its `WINDOW_UPDATE`s and without the bytes that were sent. A
`SETTINGS_INITIAL_WINDOW_SIZE` changes the windows of all streams together and may make
them negative; a window that would pass `2^31 - 1` ends the connection with
`FLOW_CONTROL_ERROR`. The arithmetic is that of an `int32`, and no step of it wraps.
-/

namespace Celeris.H2

open List Manager Option Transition Subset Bool Function

/-- A frame that says `FLOW_CONTROL_ERROR`. -/
def Output.isFlowControlError : Output → Bool
  | .rstStream _ .flowControlError => true
  | .goAway _ .flowControlError _ => true
  | _ => false

/-- The window of a stream is what the peer gives it less what was sent. -/
structure Stream.Exact (initial : Int) (s : Stream) : Prop where
  base : s.base = initial
  window : s.windowSize = s.base + s.credited - s.dataSent
  low : -maxWindow ≤ s.credited - s.dataSent
  high : s.windowSize ≤ maxWindow

namespace Stream.Exact

variable {initial : Int} {s t : Stream}

theorem of_account (h : Exact initial s) (ha : t.account = s.account) : Exact initial t := by
  obtain ⟨hw, hb, hc, hs⟩ : _ ∧ _ ∧ _ ∧ _ := by
    simpa only [Stream.account, Prod.mk.injEq] using ha
  refine ⟨hb.trans h.base, ?_, ?_, hw ▸ h.high⟩
  · rw [hw, hb, hc, hs, h.window]
  · rw [hc, hs]
    exact h.low

/-- What is sent is paid for: the window does not go below 0 by it. -/
theorem pay (h : Exact initial s) (hm : initial ≤ maxWindow) (hp : Manager.Paid 0 s t) :
    Exact initial t := by
  obtain ⟨hsum, hs⟩ := hp.pays h.high
  have hb := hp.base
  have hc := hp.credited
  obtain ⟨hi, hw, hl, hh⟩ := h
  constructor <;> omega

/-- The window stays within an `int32`. -/
theorem bounds (h : Exact initial s) (hi : 0 ≤ initial) :
    -maxWindow ≤ s.windowSize ∧ s.windowSize ≤ maxWindow := by
  have hb := h.base
  have hw := h.window
  have hl := h.low
  exact ⟨by omega, h.high⟩

/-- An increment that is not too large. -/
theorem credit (h : Exact initial s) (hi : 0 ≤ initial) {increment : Nat}
    (hm : s.windowSize + increment ≤ maxWindow) : Exact initial
      { s with windowSize := int32 (s.windowSize +
        increment), credited := s.credited + increment } := by
  have hb := h.bounds hi
  have hw := h.window
  have hl := h.low
  have hint : int32 (s.windowSize + increment) = s.windowSize + increment := by
    unfold maxWindow at hb hm
    exact int32_eq (by omega) (by omega)
  refine ⟨h.base, ?_, ?_, ?_⟩ <;> dsimp only <;> omega

/-- A change of the initial window size that does not take the window too high. -/
theorem adjust {delta : Int} (h : Exact initial s) (hn : 0 ≤ initial + delta)
    (ho : ¬(delta > 0 ∧ s.windowSize > maxWindow - delta)) :
    Exact (initial + delta) { s with
      windowSize := int32 (s.windowSize + delta), base := s.base + delta } := by
  obtain ⟨hb, hw, hl, hh⟩ := h
  have hle : s.windowSize + delta ≤ maxWindow := by omega
  have hint : int32 (s.windowSize + delta) = s.windowSize + delta := by
    unfold maxWindow at hle hl
    exact int32_eq (by omega) (by omega)
  constructor <;> dsimp only <;> omega

end Stream.Exact

namespace Manager

/-- The books of all streams. -/
structure Booked (m : Manager) : Prop where
  initial : 0 ≤ m.initialWindowSize ∧ m.initialWindowSize ≤ maxWindow
  streams : ∀ {i}, i ∈ m.ids → (m.stream i).Exact m.initialWindowSize

variable {m t : Manager} {i : Nat}

theorem exact_newStream (h : 0 ≤ m.initialWindowSize ∧ m.initialWindowSize ≤ maxWindow) :
    (newStream m.initialWindowSize).Exact m.initialWindowSize := by
  refine ⟨rfl, ?_, ?_, h.2⟩
  · show m.initialWindowSize = m.initialWindowSize + 0 - 0
    omega
  · show -maxWindow ≤ 0 - 0
    decide

/-- One stream changes, and its books are right. -/
theorem Booked.of_others (h : Booked m) (hi : t.initialWindowSize = m.initialWindowSize)
    (ha : Processor.Apart i m t) (hs : i ∈ t.ids → (t.stream i).Exact m.initialWindowSize) :
    Booked t where
  initial := hi ▸ h.initial
  streams {j} hj := by
    rw [hi]
    by_cases hji : j = i
    · rw [hji] at hj ⊢
      exact hs hj
    · exact (h.streams ((ha.ids hji).mp hj)).of_account (by rw [ha.stream hji])

theorem booked_responds (h : Booked m) (hr : Responds i 0 m t) : Booked t := by
  refine h.of_others hr.initialWindowSize ⟨hr.others, fun _ => by rw [hr.ids]⟩ fun hi => ?_
  exact (h.streams (hr.ids ▸ hi)).pay h.initial.2 hr.paid

/-- The objects change but for their books. -/
theorem Booked.same (h : Booked m) (hi : t.initialWindowSize = m.initialWindowSize)
    (hids : t.ids ⊆ m.ids) (ha : ∀ j, (t.stream j).account = (m.stream j).account) : Booked t where
  initial := hi ▸ h.initial
  streams {j} hj := by
    rw [hi]
    exact (h.streams (hids hj)).of_account (ha j)

theorem account_update {s : Stream} (hs : s.account = (m.stream i).account) (j : Nat) :
    (Function.update m.stream i s j).account = (m.stream j).account := by
  by_cases hj : j = i
  · rw [hj, update_self, hs]
  · rw [update_of_ne hj]

end Manager

namespace Processor

open Manager

variable {T : Scope} {m t : Manager} {p : Processor} {val : Nat} {x : SettingsPass} {env : Env}
  {f : Frame}

variable {q : Processor} {initial : Int} {order : List Nat} {k increment : Nat}
  {before : List Setting}

/-- Every change keeps the books. -/
theorem Change.booked {n : Nat} (hinv : Inv T p) (hch : Change T n p q)
    (h : Booked p.manager) : Booked q.manager := by
  cases hch with
  | books hb => rwa [hb.manager]
  | respond hr => exact booked_responds h hr
  | write | goAway | flushOut | drain | pass hi => exact ⟨h.initial, h.streams⟩
  | setState | request | dropData | submit
  | handOff => exact h.same rfl (refl _) (account_update (by rfl))
  | leave hl =>
    refine h.of_others (congrArg initialWindowSize hl.frame :) (apart_erase hl.ids hl.others)
      fun hi => ?_
    rw [hl.ids] at hi
    exact absurd hi hinv.valid.nodup.not_mem_erase
  | @opened _ t i hi hodd hf hopen hfree =>
    have ho := opens_of_tryOpenStream hopen hfree
    refine Booked.of_others (i := i) h (congrArg initialWindowSize ho.frame :)
      (apart_enter ho.ids ho.stream) fun _ => ?_
    rw [ho.stream, update_self]
    exact (exact_newStream h.initial).of_account rfl
  | @placeholder _ i hfree hi hodd ids =>
    refine Booked.of_others (i := i) h rfl (apart_enter rfl rfl) fun _ => ?_
    rw [insert_stream_self]
    exact (exact_newStream h.initial).of_account rfl
  | @endRequest _ i hi hopen he =>
    refine h.same rfl (refl _) fun j => ?_
    by_cases hj : j = i
    · rw [hj, endRequest_stream_self]
      rfl
    · rw [endRequest_stream_ne hj]
  | credit hc =>
    have hcore := hc.core
    have hids : _ = p.manager.ids := (congrArg ids hcore :)
    exact h.same (congrArg initialWindowSize hcore :) (fun j hj => hids ▸ hj)
      fun j => by rw [hc.stream]
  | @window _ i increment hmax =>
    refine Booked.of_others (i := i) h rfl (apart_update rfl rfl) fun hi => ?_
    rw [modify_stream_self]
    exact (h.streams hi).credit h.initial.1 hmax
  | retire => exact h.same rfl erase_subset (account_update (by rfl))
  | serve | defer | cleaned | stage => exact h

/-! ## SETTINGS -/

/-- The streams a new initial window size has reached have the new books, the others the old. -/
theorem adjustWindows_spec (delta initial : Int) (hnew : 0 ≤ initial + delta)
    (hmax : initial + delta ≤ maxWindow)
    (l : List Nat) (hn : l.Nodup) (m : Manager) (finished : List Nat)
    (h : ∀ i ∈ l, (m.stream i).Exact initial)
    (hnone : (adjustWindows delta l (m, finished)).2 = none) :
    (∀ j ∉ l, (adjustWindows delta l (m, finished)).1.1.stream j = m.stream j) ∧
      ∀ i ∈ l, ((adjustWindows delta l (m, finished)).1.1.stream i).Exact (initial + delta) := by
  induction l generalizing m finished with
  | nil => exact ⟨fun _ _ => rfl, nofun⟩
  | cons i l ih =>
    obtain ⟨hi, hl⟩ := forall_mem_cons.mp h
    obtain ⟨hnot, hn⟩ := nodup_cons.mp hn
    by_cases hover : delta > 0 ∧ (m.stream i).windowSize > maxWindow - delta
    · rw [adjustWindows, if_pos hover] at hnone
      cases hnone
    · -- The round for `i`: the rest of the loop starts where it ends.
      obtain ⟨t, finished', ho, hs, heq⟩ : ∃ t finished', (∀ {j}, j ≠ i → t.stream j = m.stream j) ∧
          (t.stream i).Exact (initial + delta) ∧
          adjustWindows delta (i :: l) (m, finished) = adjustWindows delta l (t, finished') := by
        have ha := hi.adjust hnew hover
        rw [adjustWindows, if_neg hover]
        dsimp only
        split
        · refine ⟨_, _, fun hj => ?_, ?_, rfl⟩
          · rw [responds_flushOutbound.others hj, modify_stream_ne m _ hj]
          · refine Stream.Exact.pay ?_ hmax responds_flushOutbound.paid
            rw [modify_stream_self]
            exact ha
        · refine ⟨_, _, fun hj => modify_stream_ne m _ hj, ?_, rfl⟩
          rw [modify_stream_self]
          exact ha
      rw [heq] at hnone ⊢
      obtain ⟨hk, hd⟩ := ih hn t finished'
        (fun j hj => by rw [ho (ne_of_mem_of_not_mem hj hnot)]; exact hl j hj) hnone
      refine ⟨fun j hj => ?_, fun j hj => ?_⟩
      · rw [hk j (not_mem_of_not_mem_cons hj), ho (ne_of_not_mem_cons hj)]
      · rcases mem_cons.mp hj with rfl | hj
        · rw [hk j hnot]
          exact hs
        · exact hd j hj

/-- The difference of two window sizes is exact. -/
theorem int32_delta (h : 0 ≤ initial ∧ initial ≤ maxWindow)
    (hv : ¬(val : Int) > maxWindow) : int32 (val - initial) = val - initial := by
  unfold maxWindow at h hv
  exact int32_eq (by omega) (by omega)

/-- The new initial window size reaches every stream. -/
theorem booked_adjustWindows {d : Int} (hsize : m.initialWindowSize = initial + d)
    (hra : 0 ≤ m.initialWindowSize ∧ m.initialWindowSize ≤ maxWindow) (hn : m.ids.Nodup)
    (h : ∀ {i}, i ∈ m.ids → (m.stream i).Exact initial) (order finished : List Nat)
    (hnone : (adjustWindows d (m.range order) (m, finished)).2 = none) :
    Booked (adjustWindows d (m.range order) (m, finished)).1.1 := by
  have hm := mem_range (m := m) order
  have hs := adjustWindows_eq (f := initialWindowSize) (fun _ _ _ => rfl)
    (fun _ _ => responds_flushOutbound.initialWindowSize) d (m.range order) m finished
  obtain ⟨hr, -⟩ := resizes_adjustWindows d (fun i hi => (hm i).mp hi) finished
  obtain ⟨-, hd⟩ :=
    adjustWindows_spec d initial (by omega) (by omega) _ (nodup_range order hn) m finished
    (fun i hi => h ((hm i).mp hi)) hnone
  refine ⟨hs ▸ hra, fun {i} hi => ?_⟩
  rw [hs, hsize]
  exact hd i ((hm i).mpr (hr.ids ▸ hi))

section

variable (hn : x.processor.manager.ids.Nodup) (h : Booked x.processor.manager)

include hn h

theorem booked_applyInitialWindowSize (he : (applyInitialWindowSize x val order).err = none) :
    Booked (applyInitialWindowSize x val order).processor.manager := by
  unfold applyInitialWindowSize at he ⊢
  dsimp only at he ⊢
  split at he
  · cases he
  · rename_i hv
    rw [if_neg hv]
    have hd := int32_delta h.initial hv
    have hb := booked_adjustWindows (m := { x.processor.manager with
      initialWindowSize := (val : Int) })
      (d := int32 (val - x.processor.manager.initialWindowSize)) (by dsimp only; omega)
        (by dsimp only; omega)
      hn h.streams order x.finished
    generalize adjustWindows _ _ _ = r at hb he ⊢
    rcases r with ⟨⟨t, finished⟩, _ | id⟩
    · exact hb rfl
    · cases he

theorem booked_applySetting {entry : Setting} (he : (applySetting x order entry).err = none) :
    Booked (applySetting x order entry).processor.manager := by
  cases entry with
  | initialWindowSize val => exact booked_applyInitialWindowSize hn h he
  | enablePush val =>
    unfold applySetting
    dsimp only
    split_ifs
    all_goals exact h
  | maxFrameSize val =>
    unfold applySetting
    dsimp only
    split_ifs
    · exact h
    · exact h
    · exact h.same rfl (refl _) fun _ => rfl
  | _ => exact h

end

/-- A `SETTINGS` frame that is not refused keeps the books. -/
theorem booked_applySettings {order : Nat → List Nat}
    {entries : List Setting} (ha : Applies p x) (hx : x.processor = x.windows p)
    (hn : p.manager.ids.Nodup) (h : Booked x.processor.manager)
    (herr : (applySettings order k x entries).err = none) :
    Booked (applySettings order k x entries).processor.manager := by
  induction entries generalizing k x with
  | nil => exact h
  | cons entry entries ih =>
    have hi : x.processor.manager.ids = p.manager.ids := ha.resizes.ids
    have he := applies_applySetting ha hx (order k) entry
    unfold applySettings at herr ⊢
    dsimp only at herr ⊢
    split_ifs at herr ⊢ with hs
    · rw [herr] at hs
      cases hs
    · refine ih he (he.goAway.resolve_right fun hr => hs hr.1) (booked_applySetting (hi ▸ hn) h ?_)
        herr
      exact not_isSome_iff_eq_none.mp hs

/-- What a frame that does not end the connection has done to the windows. -/
theorem booked_resized (hn : p.manager.ids.Nodup) (h : Booked p.manager)
    (he : (p.processFrame env f).2 = none) : Booked (p.resized env f).manager := by
  unfold resized
  split
  · rename_i entries hcs
    refine Booked.same (booked_applySettings (applies_init p) rfl hn h ?_) rfl (refl _) fun _ => rfl
    unfold processFrame at he
    rw [hcs] at he
    simp only [handleFrame, handleSettings, false_eq_true, if_false] at he
    cases hx : (applySettings env.order 0 { processor := p } entries).err with
    | none => rfl
    | some text =>
      rw [hx] at he
      cases he
  · exact h

theorem booked_step {e : Event} (hi : Inv T p) (hT : EventOk T p e) (hs : step p e = some q)
    (ho : q.ended = false) (h : Booked p.manager) : Booked q.manager := by
  have hr : Booked (p.resizedBy e).manager := by
    cases e with
    | frame env f =>
      refine booked_resized (p := p.setHasMoreFrames env.hasMoreFrames) hi.valid.nodup h ?_
      rcases step_cases hs with ⟨_, _, hpool, -⟩ | ⟨-, hl⟩
      · cases hpool
      · cases hl
        have he := (or_eq_false_iff.mp ho).2
        rwa [isSome_eq_false_iff, isNone_iff_eq_none] at he
    | _ => exact h
  obtain ⟨n, u, hc, -, hq⟩ := step_changes hi hT hs
  rw [hq]
  exact (hc.invariant (P := fun p => Inv T p ∧ Booked p.manager)
    (fun ⟨hi, hp⟩ hone => ⟨hone.inv hi, hone.booked hi hp⟩)
    ⟨hi.resizes (resizes_resizedBy p e), hr⟩).2

/-! ## Windows that would be too high -/

/-- The frame would take a send window above `2^31 - 1`; the initial window size is set by any
entry of a `SETTINGS` frame that is reached. -/
inductive Overflows (p : Processor) (env : Env) : Frame → Prop
  | stream {id increment : Nat} (hmem : id ∈ p.manager.ids)
      (hstate : (p.manager.stream id).state ≠ .closed)
      (h : (p.manager.stream id).windowSize + increment > 2 ^ 31 - 1) :
      Overflows p env (.windowUpdate id increment)
  | connection {increment : Nat} (h : p.manager.connectionWindow + increment > 2 ^ 31 - 1)
      (hpos : increment ≠ 0) : Overflows p env (.windowUpdate 0 increment)
  | settings {before after : List Setting} {val : Nat}
      (hbefore : (applySettings env.order 0 { processor := p.setHasMoreFrames env.hasMoreFrames }
        before).err = none)
      (h : let m := (applySettings env.order 0 { processor := p.setHasMoreFrames env.hasMoreFrames }
          before).processor.manager
        (val : Int) > 2 ^ 31 - 1 ∨
          ∃ i ∈ m.ids, (m.stream i).windowSize + (val - m.initialWindowSize) > 2 ^ 31 - 1) :
      Overflows p env (.settings false (before ++ .initialWindowSize val :: after))

/-- The frame is refused with `FLOW_CONTROL_ERROR`, which ends the connection. -/
structure Answered (wire : List Output) (r : Result) : Prop where
  error : r.2.isSome
  wire_eq : r.1.manager.wire = wire
  tells : ∃ o ∈ r.1.manager.outBuf, o.isFlowControlError

theorem answered_updateStreamWindow {id : Nat} (hm : id ∈ p.manager.ids)
    (hs : (p.manager.stream id).state ≠ .closed)
    (h : (p.manager.stream id).windowSize + increment > maxWindow) :
    Answered p.manager.wire (p.updateStreamWindow id increment) := by
  unfold updateStreamWindow
  rw [if_neg (not_not.mpr hm), if_neg hs, if_pos h]
  obtain ⟨hw, ho⟩ := sendRSTStreamAndMarkClosed_wire p id .flowControlError
  refine ⟨rfl, hw, .rstStream id .flowControlError, ?_, rfl⟩
  rw [ho]
  exact mem_append_right _ (mem_singleton.mpr rfl)

theorem answered_updateConnWindow (h : p.manager.connectionWindow + increment > maxWindow) :
    Answered p.manager.wire (p.updateConnWindow env increment) := by
  unfold updateConnWindow
  rw [if_pos h]
  exact ⟨rfl, rfl, _, mem_append_right _ (mem_singleton.mpr rfl), rfl⟩

/-- The entries up to one that is refused. -/
theorem applySettings_append {order : Nat → List Nat}
    (entry : Setting) (after : List Setting) (hb : (applySettings order k x before).err = none)
    (he : (applySetting (applySettings order k x before) (order (k + before.length))
      entry).err.isSome) :
    applySettings order k x (before ++ entry :: after) =
      applySetting (applySettings order k x before) (order (k + before.length)) entry := by
  induction before generalizing k x with
  | nil => exact if_pos he
  | cons first before ih =>
    have hf : ¬(applySetting x (order k) first).err.isSome = true := by
      intro hs
      rw [applySettings, if_pos hs] at hb
      rw [hb] at hs
      cases hs
    have hn : ∀ rest, applySettings order k x (first :: rest) =
        applySettings order (k + 1) (applySetting x (order k) first) rest := fun _ => if_neg hf
    have hl : k + (first :: before).length = k + 1 + before.length := by
      rw [length_cons]
      omega
    rw [hn] at hb he
    rw [hl] at he
    rw [cons_append, hn, hn, hl]
    exact ih hb he

theorem adjustWindows_overflow (delta : Int) (l : List Nat) (hn : l.Nodup) (m : Manager)
    (finished : List Nat)
    {i : Nat} (hi : i ∈ l) (ho : delta > 0 ∧ (m.stream i).windowSize > maxWindow - delta) :
    (adjustWindows delta l (m, finished)).2.isSome := by
  induction l generalizing m finished with
  | nil => cases hi
  | cons j l ih =>
    obtain ⟨hnot, hn⟩ := nodup_cons.mp hn
    rw [adjustWindows]
    dsimp only
    split
    · rfl
    · rename_i hj
      rcases mem_cons.mp hi with rfl | hi
      · exact absurd ho hj
      · have hne : i ≠ j := ne_of_mem_of_not_mem hi hnot
        split
        · refine ih hn _ _ hi ?_
          rwa [responds_flushOutbound.others hne, modify_stream_ne m _ hne]
        · refine ih hn _ _ hi ?_
          rwa [modify_stream_ne m _ hne]

/-- An initial window size that is too high, or takes a window too high, is refused. -/
theorem applyInitialWindowSize_refused (hn : x.processor.manager.ids.Nodup)
    (hb : Booked x.processor.manager) (h : (val : Int) > maxWindow ∨ ∃ i ∈ x.processor.manager.ids,
      (x.processor.manager.stream i).windowSize + (val - x.processor.manager.initialWindowSize) >
        maxWindow) :
    (applyInitialWindowSize x val order).err.isSome ∧
      ∃ o ∈ (applyInitialWindowSize x val order).processor.manager.outBuf,
        o.isFlowControlError := by
  have hr : ∀ p finished text, (refuseWindow x p finished text).err.isSome ∧
      ∃ o ∈ (refuseWindow x p finished text).processor.manager.outBuf, o.isFlowControlError :=
    fun p finished text => ⟨rfl, _, mem_append_right _ (mem_singleton.mpr rfl), rfl⟩
  unfold applyInitialWindowSize
  dsimp only
  split_ifs with hv
  · exact hr _ _ _
  · obtain ⟨i, hi, hw⟩ := h.resolve_left hv
    have hd := int32_delta hb.initial hv
    have hh := (hb.streams hi).high
    have ho := adjustWindows_overflow (int32 (val - x.processor.manager.initialWindowSize))
      ({ x.processor.manager with initialWindowSize := (val : Int) }.range order)
      (nodup_range order hn) { x.processor.manager with initialWindowSize := (val : Int) }
        x.finished
      ((mem_range order i).mpr hi) (by dsimp only; omega)
    obtain ⟨id, hid⟩ := isSome_iff_exists.mp ho
    rw [hid]
    exact hr _ _ _

theorem answered_handleSettings {after : List Setting} (hn : p.manager.ids.Nodup)
    (hbo : Booked p.manager) (hb : (applySettings env.order 0 { processor := p } before).err = none)
    (h : let m := (applySettings env.order 0 { processor := p } before).processor.manager
      (val : Int) > maxWindow ∨ ∃ i ∈ m.ids, (m.stream i).windowSize + (val - m.initialWindowSize) >
        maxWindow) :
    Answered p.manager.wire (p.handleSettings env false
      (before ++ .initialWindowSize val :: after)) := by
  have hi : (applySettings env.order 0 { processor := p } before).processor.manager.ids =
      p.manager.ids :=
    (applies_applySettings env.order 0 (applies_init p) rfl before).resizes.ids
  obtain ⟨herr, o, ho, hf⟩ := applyInitialWindowSize_refused
    (hi ▸ hn) (booked_applySettings (applies_init p) rfl hn hbo hb) h
  have he := applySettings_append (.initialWindowSize val) after hb herr
  have hw : (applySettings env.order 0 { processor := p }
      (before ++ .initialWindowSize val :: after)).processor.manager.wire = p.manager.wire :=
    (applies_applySettings env.order 0 (applies_init p) rfl _).resizes.writes.wire
  simp only [handleSettings, false_eq_true, if_false]
  rw [he] at hw ⊢
  obtain ⟨text, ht⟩ := isSome_iff_exists.mp herr
  rw [show (applySetting _ _ (.initialWindowSize val)).err = some text from ht]
  exact ⟨rfl, hw, o, mem_append_left _ ho, hf⟩

theorem answered_processFrame (hi : Inv T p) (hb : Booked p.manager)
    (hcs : p.continuationState = none) (h : Overflows p env f) :
    Answered p.manager.wire ((p.setHasMoreFrames env.hasMoreFrames).processFrame env f) := by
  unfold processFrame
  rw [show (p.setHasMoreFrames env.hasMoreFrames).continuationState = none from hcs]
  cases h with
  | @stream id increment hm hs ho =>
    have hh := (hb.streams hm).high
    have hodd := (hi.valid.streams hm).odd
    unfold maxWindow at hh
    simp only [handleFrame, handleWindowUpdate]
    rw [if_neg (by omega), if_neg (by omega)]
    exact answered_updateStreamWindow (p := p.setHasMoreFrames env.hasMoreFrames) hm hs ho
  | connection ho hp =>
    simp only [handleFrame, handleWindowUpdate]
    rw [if_neg hp, if_pos trivial]
    exact answered_updateConnWindow (p := p.setHasMoreFrames env.hasMoreFrames) ho
  | settings hbe ho =>
    exact answered_handleSettings (p := p.setHasMoreFrames env.hasMoreFrames) hi.valid.nodup hb hbe
      ho

/-- A frame in the middle of a header block ends the connection. -/
theorem interrupts_of_overflows {cs : ContinuationState} (hcs : p.continuationState = some cs)
    (h : Overflows p env f) :
    ((p.setHasMoreFrames env.hasMoreFrames).processFrame env f).2.isSome := by
  have ho : continues cs.streamID f = false := by cases h <;> rfl
  unfold processFrame
  rw [show (p.setHasMoreFrames env.hasMoreFrames).continuationState = some cs from hcs]
  dsimp only
  rw [ho, if_neg Bool.false_ne_true]
  unfold interrupts
  dsimp only
  split_ifs
  all_goals rfl

theorem booked_newProcessor {cfg : Config} : Booked (newProcessor cfg).manager where
  initial := by
    show (0 : Int) ≤ 65535 ∧ (65535 : Int) ≤ maxWindow
    decide
  streams := nofun

/-- Whatever the frames and the handlers: as long as the connection goes on, the window of
every stream is the initial window size with its increments and without what was sent,
and between `-(2^31 - 1)` and `2^31 - 1`. A frame that would take a window above that
ends the connection, and is answered with `FLOW_CONTROL_ERROR`, unless it breaks into a
header block. -/
theorem windows_exact {cfg : Config} {p : Processor}
    (h : Transition.Runs step (fun _ _ => True) (newProcessor cfg) p) (hopen : p.ended = false) :
    (∀ i ∈ p.manager.ids, (p.manager.stream i).windowSize =
        p.manager.initialWindowSize +
          (p.manager.stream i).credited - (p.manager.stream i).dataSent ∧
      -(2 ^ 31 - 1) ≤ (p.manager.stream i).windowSize ∧
        (p.manager.stream i).windowSize ≤ 2 ^ 31 - 1) ∧
    ∀ {env f q}, Overflows p env f → step p (.frame env f) = some q → q.ended = true ∧
      (p.continuationState = none → ∃ before o after,
        q.manager.wire = p.manager.wire ++ before ++ o :: after ∧ o.isFlowControlError) := by
  have hb : Booked p.manager := open_of_runs (P := fun p => Booked p.manager) booked_newProcessor
    booked_step h hopen
  have hinv : Inv .all p := inv_of_runs (fun _ => eventOk_all _ _) h
  refine ⟨fun i hi => ?_, fun {env f q} hover hs => ?_⟩
  · have he := hb.streams hi
    exact ⟨by rw [he.window, he.base], he.bounds hb.initial.1⟩
  · rcases step_cases hs with ⟨_, _, hp, -⟩ | ⟨-, hl⟩
    · cases hp
    · cases hl
      cases hcs : p.continuationState with
      | some cs =>
        refine ⟨or_eq_true_iff.mpr (.inr (interrupts_of_overflows hcs hover)), nofun⟩
      | none =>
        have ha := answered_processFrame hinv hb hcs hover
        refine ⟨or_eq_true_iff.mpr (.inr ha.error), fun _ => ?_⟩
        obtain ⟨o, ho, hf⟩ := ha.tells
        obtain ⟨before, after, hw⟩ := processH2_wire ha.wire_eq ho
        exact ⟨before, o, after, hw, hf⟩

/-- A response of eight bytes on a window of five, and then a frame that sets the window to two
and to three: the window is negative, and one more after an increment. -/
theorem negativeWindow_exact : let get : List Field :=
      [(ascii ":method", ascii "GET"), (ascii ":scheme", ascii "http"), (ascii ":path", ascii "/")]
    let events : List Event :=
      [.frame {} (.settings false [.initialWindowSize 5]),
        .frame { decoded := .fields get, run := { calls := [.writeResponse 200
          (ascii "abcdefgh")] } } (.headers ⟨1, true, true, none, [], 0⟩),
        .frame {} (.settings false [.initialWindowSize 2, .initialWindowSize 3]),
          .frame {} (.windowUpdate 1 1)]
    ∃ p, exec step (fun _ _ => True) (newProcessor {}) events = some p ∧ p.ended = false ∧
      p.manager.ids = [1] ∧ (p.manager.stream 1).windowSize = -1 ∧
      (p.manager.stream 1).windowSize =
        p.manager.initialWindowSize +
          (p.manager.stream 1).credited - (p.manager.stream 1).dataSent := by
  intro get events
  obtain ⟨p, he, ho, hi, hw⟩ : ∃ p ∈ exec step (fun _ _ => True) (newProcessor {}) events,
    p.ended = false ∧ p.manager.ids = [1] ∧
      (p.manager.stream 1).windowSize = -1 := by decide +kernel
  exact ⟨p, he, ho, hi, hw,
    ((windows_exact (runs_of_exec he) ho).1 1 (by rw [hi]; exact mem_singleton.mpr rfl)).1⟩

end Processor

end Celeris.H2
