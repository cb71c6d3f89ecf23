import Mathlib.Algebra.Order.Group.Nat
import Mathlib.Algebra.Ring.Nat
import Mathlib.Tactic.SplitIfs

/-!
# The write deadline (`internal/protocol/h2/stream/write_deadline.go`)

A stream whose response waits for the peer's window is judged at the end of every window of
`WriteTimeout`: `holdsLocked` holds it if it has released its floor, with the help of what it
has in its bank, or for a while if the connection as a whole moves.

A `Window` is what `holdsLocked` is given at the end of one. A record exists only as long as
its stream holds bytes.
-/

namespace Celeris.H2

open Option Nat List

/-- `writeMinRelease`: the floor. -/
def writeMinRelease : Nat := 65536

def writeBankWindows : Nat := 4

def writeIdleWindows : Nat := 3

def writeIdleCapWindows : Nat := 12

/-- What has happened in a window, and what the stream and the connection hold at its end. -/
structure Window where
  released : Nat
  pending : Nat
  holds : 0 < pending
  /-- What the connection has released. -/
  connRel : Nat
  starved : Bool
  /-- The number of streams that are stalled. -/
  stalls : Nat
  /-- `connInFlight`. -/
  inFlight : Nat
  /-- `outboundHeld` and what the waiting handlers have still to send. -/
  connPending : Nat

/-- `stall`: the record of a stream that holds buffered bytes, at the begin of a window. -/
structure Stall where
  held : Nat
  holds : 0 < held
  bank : Nat
  connHeld : Nat
  idle : Nat := 0
  idleMax : Nat := 0
  prevRel : Nat := 0
  win : Nat := 0
  lastMove : Nat := 0

namespace Stall

/-- `seedLocked`; `seedSince` is 0 before the first record of the stream. -/
def seed (initWin windowSize : Int) (seedSince : Nat) : Nat :=
  let seed := min (initWin - windowSize).toNat (writeBankWindows * writeMinRelease)
  if seedSince > 0 then min seed (seedSince - 1) else seed

def idleAllowance (inFlight connRel : Nat) : Nat :=
  if connRel = 0 then writeIdleWindows
  else min (max ((inFlight + connRel - 1) / connRel) writeIdleWindows) writeIdleCapWindows

/-- The cases of `holdsLocked`: whether the stream is held, and its bank, `idle` and `idleMax`
then. -/
def verdict (st : Stall) (w : Window) (moving movingH : Bool) (connFloor : Nat) :
    Bool × Nat × Nat × Nat :=
  let total := w.released + st.bank
  let floor := min writeMinRelease st.held
  if w.starved then (moving, st.bank, 0, st.idleMax)
  else if total ≥ floor then
    let charge := if w.released < floor then writeMinRelease else floor
    (true, min (total - charge) (writeBankWindows * writeMinRelease), 0, st.idleMax)
  else if movingH then
    if w.released > 0 ∧ w.released ≥ connFloor / (2 * max w.stalls 1) then (true, 0, 0, st.idleMax)
    else
      let idleMax := max (if st.idle = 0 then 0 else st.idleMax)
        (idleAllowance w.inFlight (max w.connRel st.prevRel))
      (st.idle + 1 ≤ idleMax, 0, st.idle + 1, idleMax)
  else if (st.held < writeMinRelease ∧ w.released * 2 ≥ floor) ∨ st.connHeld < writeMinRelease then
    (st.idle + 1 ≤ writeIdleWindows, 0, st.idle + 1, st.idleMax)
  else (false, st.bank, st.idle, st.idleMax)

/-- `holdsLocked`: the record of the next window, or none if the stream is to be reset. -/
def holdsLocked (st : Stall) (w : Window) : Option Stall :=
  let connFloor := min writeMinRelease st.connHeld
  let moving := decide (w.connRel ≥ connFloor)
  let win := st.win + 1
  let others := w.connRel - w.released
  let lastMove := if others ≥ connFloor then win else st.lastMove
  let movingH := moving || (decide (lastMove > 0) && decide (win - lastMove < writeBankWindows))
  match st.verdict w moving movingH connFloor with
  | (true, bank, idle, idleMax) => some ⟨w.pending, w.holds, bank, max w.connPending w.pending,
      idle, idleMax, max others (st.prevRel / 2), win, lastMove⟩
  | (false, _) => none

/-- The record after some windows, if the stream is held in all of them. -/
def heldFor (st : Stall) (ws : List Window) : Option Stall := ws.foldlM holdsLocked st

variable {st st' : Stall} {w : Window} {ws : List Window}

theorem holdsLocked_eq_some (h : st.holdsLocked w = some st') :
    st'.held = w.pending ∧ ∃ moving movingH connFloor,
      st.verdict w moving movingH connFloor = (true, st'.bank, st'.idle, st'.idleMax) := by
  unfold holdsLocked at h
  dsimp only at h
  split at h
  · rename_i hv
    cases h
    exact ⟨rfl, _, _, _, hv⟩
  · cases h

/-! ## A stream that is not read -/

/-- What every record keeps: a bank, or a run of idle windows that is not longer than the cap. -/
structure Sound (st : Stall) : Prop where
  bank : st.bank ≤ writeBankWindows * writeMinRelease
  idle : st.idle = 0 ∨ st.bank = 0
  idleMax : st.idleMax ≤ writeIdleCapWindows
  le : st.idle ≤ writeIdleCapWindows

theorem idleAllowance_le (inFlight connRel : Nat) :
    idleAllowance inFlight connRel ≤ writeIdleCapWindows := by
  unfold idleAllowance
  split_ifs
  · decide
  · exact min_le_right _ _

theorem Sound.holdsLocked (h : Sound st) (hs : st.holdsLocked w = some st') : Sound st' := by
  obtain ⟨-, moving, movingH, connFloor, hv⟩ := holdsLocked_eq_some hs
  have ha := idleAllowance_le w.inFlight (max w.connRel st.prevRel)
  obtain ⟨hb, hi, hm, hl⟩ := h
  suffices st'.bank ≤ 262144 ∧ (st'.idle = 0 ∨ st'.bank = 0) ∧ st'.idleMax ≤ 12 ∧ st'.idle ≤ 12 from
    ⟨this.1, this.2.1, this.2.2.1, this.2.2.2⟩
  unfold verdict writeBankWindows writeMinRelease writeIdleCapWindows writeIdleWindows at *
  dsimp only at hv
  split_ifs at hv <;> simp only [Prod.mk.injEq, decide_eq_true_eq] at hv <;> omega

/-- The windows for which a stream that releases nothing can still be held. -/
def left (st : Stall) : Nat :=
  (st.bank + (writeMinRelease - 1)) / writeMinRelease + (writeIdleCapWindows - st.idle)

theorem Sound.left_lt (h : Sound st) (hs : st.holdsLocked w = some st') (hr : w.released = 0)
    (hst : w.starved = false) : st'.left < st.left := by
  obtain ⟨-, moving, movingH, connFloor, hv⟩ := holdsLocked_eq_some hs
  have ha := idleAllowance_le w.inFlight (max w.connRel st.prevRel)
  have hp := st.holds
  obtain ⟨hb, hi, hm, hl⟩ := h
  unfold verdict left writeBankWindows writeMinRelease writeIdleCapWindows writeIdleWindows at *
  rw [hst, hr, if_neg nofun] at hv
  split_ifs at hv <;> simp only [Prod.mk.injEq, decide_eq_true_eq, Bool.false_eq_true,
    false_and] at hv <;> omega

theorem Sound.heldFor (h : Sound st) (hs : st.heldFor ws = some st') : Sound st' := by
  induction ws generalizing st with
  | nil => exact some.inj hs ▸ h
  | cons w ws ih =>
    obtain ⟨s, hw, hs⟩ := bind_eq_some_iff.mp hs
    exact ih (h.holdsLocked hw) hs

theorem Sound.length_le (h : Sound st) (hi : ∀ w ∈ ws, w.released = 0 ∧ w.starved = false)
    (hs : st.heldFor ws = some st') : ws.length ≤ st.left := by
  induction ws generalizing st with
  | nil => exact zero_le _
  | cons w ws ih =>
    obtain ⟨s, hw, hs⟩ := bind_eq_some_iff.mp hs
    obtain ⟨⟨hr, hst⟩, hi⟩ := forall_mem_cons.mp hi
    exact (Nat.add_le_add_right (ih (h.holdsLocked hw) hi hs) 1).trans (h.left_lt hw hr hst)

/-- Whatever the windows before and whatever the rest of the connection does: a stream that releases
nothing and is not starved by the connection's window is held for at most `4 + 12` windows. -/
theorem unread_reset (initWin windowSize : Int) (seedSince held connHeld : Nat) (holds : 0 < held)
    (before idle : List Window) (hi : ∀ w ∈ idle, w.released = 0 ∧ w.starved = false)
    (hs : (heldFor ⟨held, holds, seed initWin windowSize seedSince, connHeld, 0, 0, 0, 0, 0⟩
      (before ++ idle)).isSome) : idle.length ≤ writeBankWindows + writeIdleCapWindows := by
  obtain ⟨st', hst'⟩ := isSome_iff_exists.mp hs
  rw [heldFor, foldlM_append] at hst'
  obtain ⟨st, hst, hst'⟩ := bind_eq_some_iff.mp hst'
  have h : Sound st := by
    refine Sound.heldFor ⟨?_, .inl rfl, zero_le _, zero_le _⟩ hst
    unfold seed
    dsimp only
    split_ifs <;> omega
  refine (h.length_le hi hst').trans ?_
  obtain ⟨hb, -⟩ := h
  unfold left writeBankWindows writeMinRelease writeIdleCapWindows at *
  omega

/-- A stream that holds one byte: four windows on its bank, three as the tail of its connection. -/
theorem tail_unread_reset : (heldFor ⟨1, Nat.one_pos, seed 262144 0 0, 1, 0, 0, 0, 0, 0⟩
      ([] ++ List.replicate 7 ⟨0, 1, Nat.one_pos, 0, false, 1, 0, 1⟩)).isSome ∧ 7 ≤ 16 :=
  have h : (heldFor _ _).isSome := by decide +kernel
  ⟨h, unread_reset 262144 0 0 1 1 one_pos [] _ (by decide +kernel) h⟩

/-! ## A stream that is read at the floor's rate -/

/-- What a window that begins with a floor does to the bank. -/
theorem holdsLocked_floor (hh : writeMinRelease ≤ st.held) (hw : w.starved = false)
    (hr : writeMinRelease ≤ st.bank + w.released) :
    ∃ st', st.holdsLocked w = some st' ∧ st'.held = w.pending ∧
      st'.bank = min (st.bank + w.released - writeMinRelease)
        (writeBankWindows * writeMinRelease) := by
  have hv : ∀ moving movingH connFloor, st.verdict w moving movingH connFloor =
      (true, min (st.bank + w.released - writeMinRelease) (writeBankWindows * writeMinRelease), 0,
        st.idleMax) := by
    intro moving movingH connFloor
    unfold verdict
    rw [min_eq_left hh, hw, add_comm w.released, if_neg Bool.false_ne_true, if_pos hr, ite_self]
  unfold holdsLocked
  dsimp only
  rw [hv]
  exact ⟨_, rfl, rfl, rfl⟩

/-- A stream that has a floor to send in every window and releases a floor per window on average,
lagging behind by no more than the bank, is held in all of them. -/
theorem steady_held (hh : writeMinRelease ≤ st.held)
    (hf : ∀ w ∈ ws.dropLast, writeMinRelease ≤ w.pending) (hstarved : ∀ w ∈ ws, w.starved = false)
    (hr : ∀ j ≤ ws.length, ∀ i ≤ j, (j - i) * writeMinRelease ≤
      (((ws.take j).drop i).map Window.released).sum +
        if i = 0 then st.bank else writeBankWindows * writeMinRelease) :
          (st.heldFor ws).isSome := by
  induction ws generalizing st with
  | nil => rfl
  | cons w ws ih =>
    have hfi := hr 1 (by simp) 0 (zero_le _)
    obtain ⟨hw, hstarved⟩ := forall_mem_cons.mp hstarved
    obtain ⟨s, hs, hp, hb⟩ := holdsLocked_floor hh hw (by simpa [add_comm] using hfi)
    rw [heldFor, foldlM_cons, hs]
    cases ws with
    | nil => rfl
    | cons v ws =>
      rw [dropLast_cons_cons, forall_mem_cons, ← hp] at hf
      refine ih hf.1 hf.2 hstarved fun j hj i hij => ?_
      -- the bank is full, or holds all that was released since the begin
      have h0 := hr (j + 1) (succ_le_succ hj) 0 (zero_le _)
      have h1 := hr (j + 1) (succ_le_succ hj) (i + 1) (succ_le_succ hij)
      simp only [take_succ_cons, drop_succ_cons, drop_zero, map_cons, sum_cons, if_true]
        at h0 h1
      rw [if_neg (Nat.succ_ne_zero i), Nat.add_sub_add_right] at h1
      split_ifs with hi
      · subst hi
        rw [Nat.sub_zero, Nat.succ_mul] at h0
        rw [Nat.sub_zero, List.drop_zero] at h1 ⊢
        omega
      · exact h1

/-- Nothing for two windows, and then the floor of three. -/
theorem late_steady_held : (heldFor ⟨65536, by decide, 131072, 65536, 0, 0, 0, 0, 0⟩
    [⟨0, 65536, by decide, 0, false, 1, 0, 65536⟩, ⟨0, 65536, by decide, 0, false, 1, 0, 65536⟩,
      ⟨196608, 1, by decide, 196608, false, 1, 0, 1⟩]).isSome :=
  steady_held le_rfl (by decide +kernel) (by decide +kernel) (by decide +kernel)

end Stall

end Celeris.H2
