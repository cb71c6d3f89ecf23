import Celeris.H2.Reserve

/-!
# Safety of the send windows

What a stream's window is, at any moment of any interleaving: the credit the peer has
given, less what calls were granted, less what calls under way hold and may give
back. The window of the connection has no such third part, since a call takes from
it only what it keeps.

The equation is one of integers, and a refund is added without a check. The check of
a `WINDOW_UPDATE` looks at a window that calls under way have lowered, so a peer that
gives more credit than a window can hold gets it accepted, and the refund then wraps
the window. `inRange` is that this does not happen: the credit that a frame leaves,
less what was granted, fits a window.
-/

namespace Celeris.H2

open Counting Transition List Reserve Function Int Option Ne

theorem int32_of_range {x : Int} (h : -maxWindow ≤ x) (h' : x ≤ maxWindow) : int32 x = x := by
  unfold maxWindow at h h'
  refine bmod_eq_of_le ?_ ?_ <;> omega

/-! ## What calls hold -/

/-- What a call has taken from the window of a stream and may still give back. -/
def Reserve.heldOn (i : Nat) : Reserve → Int
  | .loadConn j g | .swapConn j g _ => if j = i then g else 0
  | .refund j g c => if j = i then g - c else 0
  | _ => 0

/-- What is known of a call under way. -/
def Reserve.Valid (streams : List Nat) : Reserve → Prop
  | .load i want => i ∈ streams ∧ 0 < want
  | .swap i want sw => i ∈ streams ∧ 0 < want ∧ 0 < sw
  | .loadConn i g => i ∈ streams ∧ 0 < g
  | .swapConn i g cw => i ∈ streams ∧ 0 < g ∧ 0 < cw
  | .refund i g c => i ∈ streams ∧ 0 ≤ c ∧ c ≤ g
  | .done c => 0 ≤ c

variable {streams : List Nat} {c : Reserve}

theorem Reserve.Valid.heldOn_nonneg (h : c.Valid streams) {i : Nat} : 0 ≤ c.heldOn i := by
  cases c with
  | loadConn | swapConn | refund =>
    rw [Reserve.Valid] at h
    rw [heldOn]
    split_ifs <;> omega
  | load | swap | done => exact le_refl 0

theorem Reserve.Valid.heldOn_of_not_mem (h : c.Valid streams) {i : Nat} (hi : i ∉ streams) :
    c.heldOn i = 0 := by
  cases c with
  | loadConn j g | swapConn j g cw | refund j g c =>
    have hne : j ≠ i := by
      rintro rfl
      exact hi h.1
    exact if_neg hne
  | load | swap | done => rfl

theorem Reserve.Valid.cons (h : c.Valid streams) {i : Nat} : c.Valid (i :: streams) := by
  cases c with
  | load | swap | loadConn | swapConn | refund => exact ⟨mem_cons_of_mem _ h.1, h.2⟩
  | done => exact h

namespace Windows

def held (s : Windows) (i : Nat) : Int := total (Reserve.heldOn i) s.calls

/-- The initial window size that a stream has: the old one until the loop of
`handleSettings` has come to it. -/
def initialOf (s : Windows) (i : Nat) : Int :=
  match s.loop with
  | .settings delta todo => if i ∈ todo then s.initialWindowSize - delta else s.initialWindowSize
  | .adjust delta todo j =>
    if i ∈ todo ∨ i = j then s.initialWindowSize - delta else s.initialWindowSize
  | _ => s.initialWindowSize

/-- What is known of the event loop. -/
def LoopValid (s : Windows) : Prop :=
  match s.loop with
  | .loadUpdate i increment | .swapUpdate i increment _ => i ∈ s.streams ∧ 0 < increment
  | .loadConnUpdate increment => 0 < increment
  | .swapConnUpdate increment old => 0 < increment ∧ old + increment ≤ maxWindow
  | .settings _ todo => todo.Nodup ∧ ∀ i ∈ todo, i ∈ s.streams
  | .adjust _ todo i => i ∈ s.streams ∧ i ∉ todo ∧ todo.Nodup ∧ ∀ j ∈ todo, j ∈ s.streams
  | _ => True

/-! ## The window of one stream -/

/-- A window with what calls hold of it. -/
structure Balanced (w : StreamWindow) (held : Int) : Prop where
  window_eq : w.windowSize = w.credit - w.granted - held
  room : w.credit - w.granted ≤ maxWindow
  base_low : 0 ≤ w.base
  base_high : w.base ≤ maxWindow
  low : -maxWindow ≤ w.windowSize - w.base
  credit_le : w.credit ≤ w.peak
  taken_le : w.granted + held ≤ w.peak

namespace Balanced

variable {w : StreamWindow} {held : Int}

/-- A call takes some of the window, or gives back what it holds. -/
theorem take (h : Balanced w held) {g : Int} (hh : 0 ≤ held + g) (hg : g ≤ 0 ∨ g ≤ w.windowSize) :
    Balanced { w with windowSize := int32 (w.windowSize - g) } (held + g) := by
  obtain ⟨hw, hroom, hb, hb', hl, hc, ht⟩ := h
  have hr : int32 (w.windowSize - g) = w.windowSize - g := by
    refine int32_of_range ?_ ?_ <;> omega
  constructor <;> simp only [hr] <;> omega

theorem grant (h : Balanced w held) {c : Int} (hc : 0 ≤ c) :
    Balanced { w with granted := w.granted + c } (held - c) := by
  obtain ⟨hw, hr, hb, hb', hl, hcr, ht⟩ := h
  constructor <;> simp only <;> omega

/-- The peer gives credit, or takes some back with the initial window size. -/
theorem give (h : Balanced w held) (hh : 0 ≤ held) {base delta : Int} (hb : 0 ≤ base)
    (hb' : base ≤ maxWindow) (hd : base - w.base ≤ delta)
    (hroom' : w.credit - w.granted + delta ≤ maxWindow) :
    Balanced { w with
        windowSize := int32 (w.windowSize + delta)
        credit := w.credit + delta
        base := base
        peak := max w.peak (w.credit + delta) } held := by
  obtain ⟨hw, hroom, -, -, hl, hc, ht⟩ := h
  have hr : int32 (w.windowSize + delta) = w.windowSize + delta := by
    refine int32_of_range ?_ ?_ <;> omega
  constructor <;> simp only [hr] <;> omega

theorem opened {size : Int} (h : 0 ≤ size) (h' : size ≤ maxWindow) :
    Balanced ⟨size, size, size, 0, size⟩ 0 := by
  constructor <;> simp only <;> unfold maxWindow at * <;> omega

end Balanced

/-! ## What an operation does -/

/-- What an operation of a call does. -/
inductive Reserved (s : Windows) : Reserve → Windows → Reserve → Prop
  | shut {i : Nat} {want : Int} : Reserved s (.load i want) s (.done 0)
  | loaded {i : Nat} {want : Int} : 0 < (s.stream i).windowSize →
      Reserved s (.load i want) s (.swap i want (s.stream i).windowSize)
  | debited {i : Nat} {want g : Int} : (0 < want → 0 < (s.stream i).windowSize → 0 < g) →
      g ≤ (s.stream i).windowSize →
      Reserved s (.swap i want (s.stream i).windowSize)
        (s.setWindow i (int32 ((s.stream i).windowSize - g))) (.loadConn i g)
  | lost {i : Nat} {want sw : Int} : Reserved s (.swap i want sw) s (.load i want)
  | connShut {i : Nat} {g : Int} : Reserved s (.loadConn i g) s (.refund i g 0)
  | connLoaded {i : Nat} {g : Int} : 0 < s.connectionWindow →
      Reserved s (.loadConn i g) s (.swapConn i g s.connectionWindow)
  | granted {i : Nat} {g c : Int} : (0 < g → 0 < s.connectionWindow → 0 < c) → c ≤ g →
      c ≤ s.connectionWindow →
      Reserved s (.swapConn i g s.connectionWindow) (s.grant i c) (.refund i g c)
  | connLost {i : Nat} {g cw : Int} : Reserved s (.swapConn i g cw) s (.loadConn i g)
  | refunded {i : Nat} {g c : Int} : c < g →
      Reserved s (.refund i g c) (s.setWindow i (int32 ((s.stream i).windowSize + (g - c))))
        (.done c)
  | kept {i : Nat} {g c : Int} : g ≤ c → Reserved s (.refund i g c) s (.done c)

variable {window : Int} {w : Nat → StreamWindow}

/-- The amount that a window grants of what is wanted. -/
theorem min_grant {want : Int} :
    (0 < want → 0 < window → 0 < (if want > window then window else want)) ∧
      (if want > window then window else want) ≤ window ∧
        (if want > window then window else want) ≤ want := by
  split_ifs <;> omega

variable {s t : Windows} {c c' : Reserve} {k i : Nat}

theorem reserved (h : s.reserve c = some (t, c')) : Reserved s c t c' := by
  cases c with simp only [reserve] at h
  | load i want =>
    split_ifs at h with hsw <;> cases h
    · exact .shut
    · exact .loaded (not_le.mp hsw)
  | swap i want sw =>
    split at h <;> cases h
    · rename_i hsw
      subst hsw
      obtain ⟨hp, hle, -⟩ := min_grant
      exact .debited hp hle
    · exact .lost
  | loadConn i g =>
    split_ifs at h with hcw <;> cases h
    · exact .connShut
    · exact .connLoaded (not_le.mp hcw)
  | swapConn i g cw =>
    split at h <;> cases h
    · rename_i hcw
      subst hcw
      obtain ⟨hp, hle, hw⟩ := min_grant
      exact .granted hp hw hle
    · exact .connLost
  | refund i g c =>
    split_ifs at h with hlt <;> cases h
    · exact .refunded hlt
    · exact .kept (not_lt.mp hlt)
  | done c => cases h

/-- What an operation of the event loop does. -/
inductive Advanced (s : Windows) : Windows → Prop
  | overflow {i : Nat} {increment : Int} : s.loop = .loadUpdate i increment →
      Advanced s { s with loop := .ended }
  | loaded {i : Nat} {increment : Int} : s.loop = .loadUpdate i increment →
      Advanced s { s with loop := .swapUpdate i increment (s.stream i).windowSize }
  | updated {i : Nat} {increment : Int} : s.loop = .swapUpdate i increment (s.stream i).windowSize →
      Advanced s
        { s.giveStream i increment (s.stream i).base (int32
          ((s.stream i).windowSize + increment)) with
          loop := .idle }
  | lost {i : Nat} {increment old : Int} : s.loop = .swapUpdate i increment old →
      Advanced s { s with loop := .loadUpdate i increment }
  | connOverflow {increment : Int} : s.loop = .loadConnUpdate increment →
      Advanced s { s with loop := .ended }
  | connLoaded {increment : Int} : s.loop = .loadConnUpdate increment →
      s.connectionWindow + increment ≤ maxWindow →
      Advanced s { s with loop := .swapConnUpdate increment s.connectionWindow }
  | connUpdated {increment : Int} : s.loop = .swapConnUpdate increment s.connectionWindow →
      Advanced s
        { s with
          connectionWindow := int32 (s.connectionWindow + increment)
          connCredit := s.connCredit + increment
          loop := .idle }
  | connLost {increment old : Int} : s.loop = .swapConnUpdate increment old →
      Advanced s { s with loop := .loadConnUpdate increment }
  | finished {delta : Int} : s.loop = .settings delta [] → Advanced s { s with loop := .idle }
  | adjusted {delta : Int} {todo : List Nat} {i : Nat} : s.loop = .adjust delta todo i →
      Advanced s
        { s.giveStream i delta ((s.stream i).base + delta)
            (int32 ((s.stream i).windowSize + delta)) with
          loop := .settings delta todo }

theorem advanced (h : s.advance = some t) : Advanced s t := by
  unfold advance at h
  cases hl : s.loop with simp only [hl] at h
  | idle | ended => cases h
  | loadUpdate i increment =>
    split_ifs at h <;> cases h
    · exact .overflow hl
    · exact .loaded hl
  | swapUpdate i increment old =>
    split_ifs at h with hold <;> cases h
    · subst hold
      exact .updated hl
    · exact .lost hl
  | loadConnUpdate increment =>
    split_ifs at h with ho <;> cases h
    · exact .connOverflow hl
    · exact .connLoaded hl (not_lt.mp ho)
  | swapConnUpdate increment old =>
    split_ifs at h with hold <;> cases h
    · subst hold
      exact .connUpdated hl
    · exact .connLost hl
  | settings delta todo =>
    cases todo with
    | nil =>
      cases h
      exact .finished hl
    | cons i todo => cases h
  | adjust delta todo i =>
    cases h
    exact .adjusted hl

theorem step_reserve (h : s.step (.reserve k) = some t) :
    ∃ c, s.calls[k]? = some c ∧ ∃ c' u, s.reserve c = some (u, c') ∧
      t = { u with calls := s.calls.set k c' } := by
  simp only [step, bind_eq_bind, bind_eq_some_iff] at h
  obtain ⟨c, hc, ⟨u, c'⟩, hr, ht⟩ := h
  exact ⟨c, hc, c', u, hr, (some.inj ht).symm⟩

theorem step_pick (h : s.step (.pick i) = some t) : ∃ delta todo, s.loop = .settings delta todo ∧
    i ∈ todo ∧
      (t = { s with loop := .ended } ∨ t = { s with loop := .adjust delta (todo.erase i) i }) := by
  simp only [step] at h
  split at h
  · rename_i delta todo hl
    split_ifs at h with hi <;> cases h
    · exact ⟨delta, todo, hl, hi, .inl rfl⟩
    · exact ⟨delta, todo, hl, hi, .inr rfl⟩
  · cases h

/-! ## The invariant -/

/-- What holds in every state of a run, except of the windows of the streams. -/
structure Valid (s : Windows) : Prop where
  calls : ∀ c ∈ s.calls, c.Valid s.streams
  nodup : s.streams.Nodup
  loop : s.LoopValid
  init_low : 0 ≤ s.initialWindowSize
  init_high : s.initialWindowSize ≤ maxWindow
  conn_eq : s.connectionWindow = s.connCredit - s.connGranted
  conn_low : 0 ≤ s.connectionWindow
  conn_high : s.connectionWindow ≤ maxWindow

theorem Valid.held_nonneg (h : s.Valid) (i : Nat) : 0 ≤ s.held i :=
  total_nonneg fun c hc => (h.calls c hc).heldOn_nonneg

/-- What the other calls hold. -/
theorem Valid.held_sub_nonneg (h : s.Valid) (hc : s.calls[k]? = some c) (i : Nat) :
    0 ≤ s.held i - c.heldOn i := by
  have hd : Reserve.Valid s.streams (.done 0) := le_refl 0
  have ho : 0 ≤ total (heldOn i) (s.calls.set k (.done 0)) :=
    total_nonneg fun c' hc' => (forall_mem_set h.calls hd c' hc').heldOn_nonneg
  rw [total_set hc] at ho
  simpa [held, heldOn] using ho

/-- A call under way has been replaced; the windows of the streams do not matter. -/
theorem Valid.set_call (h : s.Valid) (hv : c'.Valid s.streams) :
    Valid { s with stream := w, calls := s.calls.set k c' } :=
  { h with calls := forall_mem_set h.calls hv }

/-- An operation of a call keeps what holds of the calls and of the connection. -/
theorem Valid.reserve (h : s.Valid) (hc : s.calls[k]? = some c) (hst : Reserved s c t c') :
    Valid { t with calls := s.calls.set k c' } := by
  have hv := h.calls c (mem_of_getElem? hc)
  cases hst with
  | shut => exact h.set_call (le_refl 0)
  | loaded hsw => exact h.set_call ⟨hv.1, hv.2, hsw⟩
  | debited hp hle => exact h.set_call ⟨hv.1, hp hv.2.1 hv.2.2⟩
  | lost | connLost => exact h.set_call ⟨hv.1, hv.2.1⟩
  | connShut => exact h.set_call ⟨hv.1, le_refl 0, le_of_lt hv.2⟩
  | connLoaded hcw => exact h.set_call ⟨hv.1, hv.2, hcw⟩
  | @granted i g amount hp hle hcw =>
    have ha := hp hv.2.1 hv.2.2
    have hh := h.conn_high
    have heq := h.conn_eq
    have hr : int32 (s.connectionWindow - amount) = s.connectionWindow - amount := by
      refine int32_of_range ?_ ?_
      · omega
      · omega
    refine ⟨forall_mem_set h.calls ⟨hv.1, le_of_lt ha, hle⟩, h.nodup, h.loop, h.init_low,
      h.init_high, ?_, ?_, ?_⟩ <;> simp only [grant, setStream, hr] <;> omega
  | refunded hlt | kept hle => exact h.set_call hv.2.1

variable {loop : Loop} {a : Action} {granted : Int} {j : Nat}

theorem Valid.set_loop (h : s.Valid)
    (hl : LoopValid { s with loop := loop }) : Valid { s with stream := w, loop := loop } :=
  { h with loop := hl }

theorem Valid.advance (h : s.Valid) (hst : Advanced s t) : t.Valid := by
  have hv := h.loop
  unfold LoopValid at hv
  cases hst with
  | overflow | connOverflow | finished | updated => exact h.set_loop trivial
  | loaded hl | lost hl =>
    rw [hl] at hv
    exact h.set_loop hv
  | connLoaded hl hle =>
    rw [hl] at hv
    exact h.set_loop ⟨hv, hle⟩
  | @connUpdated increment hl =>
    rw [hl] at hv
    obtain ⟨hp, hle⟩ := hv
    have hlow := h.conn_low
    have hc := h.conn_eq
    have hr : int32 (s.connectionWindow + increment) = s.connectionWindow + increment := by
      refine int32_of_range ?_ hle
      omega
    refine ⟨h.calls, h.nodup, trivial, h.init_low, h.init_high, ?_, ?_, ?_⟩ <;> simp only [hr] <;>
      omega
  | connLost hl =>
    rw [hl] at hv
    exact h.set_loop hv.1
  | adjusted hl =>
    rw [hl] at hv
    exact h.set_loop hv.2.2

theorem Valid.step (h : s.Valid) (hst : s.step a = some t) : t.Valid := by
  cases a with simp only [Windows.step] at hst
  | openStream i =>
    split_ifs at hst with ho
    cases hst
    refine { h with calls := ?_, nodup := ?_, loop := ?_ }
    · exact fun c hc => (h.calls c hc).cons
    · exact nodup_cons.mpr ⟨ho.2, h.nodup⟩
    · simp [LoopValid, setStream, ho.1]
  | call i want =>
    split_ifs at hst with hcall
    cases hst
    exact { h with
      calls := forall_mem_append.mpr ⟨h.calls, forall_mem_singleton.mpr ⟨hcall.1, hcall.2.1⟩⟩ }
  | reserve k =>
    obtain ⟨c, hc, c', u, hres, rfl⟩ := step_reserve hst
    exact h.reserve hc (reserved hres)
  | update i increment =>
    split_ifs at hst with hidle
    cases hst
    exact h.set_loop ⟨hidle.2.1, hidle.2.2.1⟩
  | connUpdate increment =>
    split_ifs at hst with hidle
    cases hst
    exact h.set_loop hidle.2.1
  | settings value =>
    split_ifs at hst with hidle hl <;> cases hst
    · exact h.set_loop trivial
    · exact { h with
        loop := ⟨h.nodup, fun _ hi => hi⟩, init_low := hidle.2, init_high := not_lt.mp hl }
  | advance => exact h.advance (advanced hst)
  | pick i =>
    obtain ⟨delta, todo, hloop, hi, rfl | rfl⟩ := step_pick hst
    · exact h.set_loop trivial
    · have hv := h.loop
      rw [LoopValid, hloop] at hv
      refine h.set_loop ⟨hv.2 i hi, hv.1.not_mem_erase, hv.1.erase i, ?_⟩
      exact fun j hj => hv.2 j (mem_of_mem_erase hj)

/-! ## The streams -/

/-- Whether the credit that a frame leaves a stream, less what was granted of it, fits
a window. -/
def inRange (s : Windows) (a : Action) : Bool :=
  match a, s.loop with
  | .advance, .swapUpdate i increment _ =>
    (s.stream i).credit - (s.stream i).granted + increment ≤ maxWindow
  | .advance, .adjust delta _ i => (s.stream i).credit - (s.stream i).granted + delta ≤ maxWindow
  | _, _ => true

/-- What holds of the streams in a run whose frames stay in range. -/
structure Inv (s : Windows) : Prop extends Valid s where
  balanced : ∀ i ∈ s.streams, Balanced (s.stream i) (s.held i)
  base_eq : s.loop ≠ .ended → ∀ i ∈ s.streams, (s.stream i).base = s.initialOf i

theorem held_set (hc : s.calls[k]? = some c) :
    held { t with calls := s.calls.set k c' } i = s.held i - c.heldOn i + c'.heldOn i :=
  total_set hc c'

section

variable (h : s.Inv) (hc : s.calls[k]? = some c)

include h hc

/-- A call under way has been replaced, and the windows fit what is held now. -/
theorem Inv.set_call (hv : Valid { s with
      stream := w, connectionWindow := window, connGranted := granted, calls := s.calls.set k c' })
    (hbase : ∀ i, (w i).base = (s.stream i).base)
    (hb : ∀ i ∈ s.streams, Balanced (w i) (s.held i - c.heldOn i + c'.heldOn i)) :
    Inv { s with
      stream := w, connectionWindow := window, connGranted := granted,
      calls := s.calls.set k c' } where
  toValid := hv
  balanced := by
    intro i hi
    change Balanced (w i) (held { s with calls := s.calls.set k c' } i)
    rw [held_set hc]
    exact hb i hi
  base_eq he i hi := (hbase i).trans (h.base_eq he i hi)

/-- An operation that changes no window and holds as much as before. -/
theorem Inv.set_call_same (hv : Valid { s with calls := s.calls.set k c' })
    (hh : ∀ i, c'.heldOn i = c.heldOn i) : Inv { s with calls := s.calls.set k c' } := by
  refine h.set_call hc hv (fun i => rfl) fun i hi => ?_
  rw [hh, sub_add_cancel]
  exact h.balanced i hi

/-- An operation that changes the window of one stream. -/
theorem Inv.set_call_stream {w : StreamWindow} (hv : Valid { s with
      stream := update s.stream j w, connectionWindow := window, connGranted := granted,
      calls := s.calls.set k c' })
    (hbase : w.base = (s.stream j).base) (ho : ∀ i, i ≠ j → c'.heldOn i = c.heldOn i)
    (hb : j ∈ s.streams → Balanced w (s.held j - c.heldOn j + c'.heldOn j)) :
    Inv { s with stream := update s.stream j w, connectionWindow := window, connGranted := granted
                 calls := s.calls.set k c' } := by
  refine h.set_call hc hv
    ((forall_update_iff s.stream fun i w => w.base = (s.stream i).base).mpr ⟨hbase, fun _ _ => rfl⟩)
    ((forall_update_iff s.stream fun i w => i ∈ s.streams →
      Balanced w (s.held i - c.heldOn i + c'.heldOn i)).mpr ⟨hb, fun i hij hi => ?_⟩)
  rw [ho i hij, sub_add_cancel]
  exact h.balanced i hi

theorem Inv.reserve (hst : Reserved s c t c') : Inv { t with calls := s.calls.set k c' } := by
  have hk := h.toValid.reserve hc hst
  have hv := h.calls c (mem_of_getElem? hc)
  have ho := h.toValid.held_sub_nonneg hc
  cases hst with
  | shut | loaded | lost | connShut | connLoaded | connLost =>
    refine h.set_call_same hc hk fun i => ?_
    simp [heldOn]
  | @debited i want g hpos hle =>
    refine h.set_call_stream hc hk rfl (fun j hj => ?_) fun hi => ?_
    · exact if_neg (Ne.symm hj)
    · have hb := (h.balanced i hi).take
        (add_nonneg (h.toValid.held_nonneg i) (hpos hv.2.1 hv.2.2).le) (.inr hle)
      simpa [heldOn] using hb
  | @granted i g amount hpos hle hcw =>
    refine h.set_call_stream hc hk rfl (fun j hj => ?_) fun hi => ?_
    · rw [heldOn, heldOn, if_neg (Ne.symm hj), if_neg (Ne.symm hj)]
    · have hb := (h.balanced i hi).grant (le_of_lt (hpos hv.2.1 hv.2.2))
      have hh : s.held i - heldOn i (.swapConn i g s.connectionWindow) +
          heldOn i (.refund i g amount) = s.held i - amount := by
        rw [heldOn, heldOn, if_pos rfl, if_pos rfl]
        omega
      rw [hh]
      exact hb
  | @refunded i g c hlt =>
    have hh : heldOn i (.refund i g c) = g - c := if_pos rfl
    refine h.set_call_stream hc hk rfl (fun j hj => ?_) fun hi => ?_
    · exact (if_neg (Ne.symm hj)).symm
    · have ho' := ho i
      rw [hh] at ho'
      have hb := (h.balanced i hi).take (g := c - g) (by omega) (.inl (by omega))
      rw [← neg_sub g c, sub_neg_eq_add, ← sub_eq_add_neg] at hb
      rw [hh, show heldOn i (.done c) = 0 from rfl, add_zero]
      exact hb
  | @kept i g c hle =>
    refine h.set_call_same hc hk fun j => ?_
    have hz : g - c = 0 := by
      have := hv.2.2
      omega
    simp [heldOn, hz]

end

/-- The event loop goes on without changing a window. -/
theorem Inv.set_loop (h : s.Inv) (hv : t.Valid) (hc : t.calls = s.calls)
    (hs : t.streams = s.streams) (hst : t.stream = s.stream)
    (hb : t.loop ≠ .ended → s.loop ≠ .ended ∧ ∀ i ∈ s.streams, t.initialOf i = s.initialOf i) :
    t.Inv where
  toValid := hv
  balanced := by
    intro i hi
    rw [hst, held, hc]
    exact h.balanced i (hs ▸ hi)
  base_eq := by
    intro he i hi
    obtain ⟨he', hsame⟩ := hb he
    rw [hs] at hi
    rw [hst, hsame i hi]
    exact h.base_eq he' i hi

/-- The peer gives a stream credit that fits its window. -/
theorem Inv.give (h : s.Inv) {delta base : Int}
    (hv : Valid { s.giveStream j delta base (int32 ((s.stream j).windowSize + delta)) with
      loop := loop })
    (hj : j ∈ s.streams) (he : s.loop ≠ .ended) (hl : 0 ≤ base) (hh : base ≤ maxWindow)
    (hd : base - (s.stream j).base ≤ delta)
    (hr : (s.stream j).credit - (s.stream j).granted + delta ≤ maxWindow)
    (hs : base = initialOf { s with loop := loop } j)
    (ho : ∀ i ∈ s.streams, i ≠ j → s.initialOf i = initialOf { s with loop := loop } i) :
    Inv { s.giveStream j delta base (int32 ((s.stream j).windowSize + delta)) with
      loop := loop } where
  toValid := hv
  balanced := (forall_update_iff s.stream fun i w => i ∈ s.streams → Balanced w (s.held i)).mpr
    ⟨fun _ => (h.balanced j hj).give (h.toValid.held_nonneg j) hl hh hd hr, fun i _ => h.balanced i⟩
  base_eq _ := (forall_update_iff s.stream fun i w => i ∈ s.streams →
    w.base = initialOf { s with loop := loop } i).mpr
      ⟨fun _ => hs, fun i hij hi => (h.base_eq he i hi).trans (ho i hi hij)⟩

theorem Inv.advance (h : s.Inv) (hr : s.inRange .advance = true) (hst : Advanced s t) : t.Inv := by
  have hk := h.toValid.advance hst
  have hv := h.loop
  unfold LoopValid at hv
  unfold inRange at hr
  cases hst with
  | overflow | connOverflow => exact h.set_loop hk rfl rfl rfl fun hno => absurd rfl hno
  | loaded hl | lost hl | finished hl | connLoaded hl | connUpdated hl | connLost hl =>
    refine h.set_loop hk rfl rfl rfl fun _ => ⟨by simp [hl], fun i _ => ?_⟩
    simp [initialOf, hl]
  | @updated i increment hl =>
    rw [hl] at hv hr
    have he : s.loop ≠ .ended := by simp [hl]
    have hb := h.base_eq he i hv.1
    have hinit (j : Nat) : s.initialOf j = s.initialWindowSize := by simp [initialOf, hl]
    refine h.give hk hv.1 he (h.balanced i hv.1).base_low
      (h.balanced i hv.1).base_high (by omega) (of_decide_eq_true hr) ?_ fun j _ _ => ?_
    · rw [hb, hinit]
      rfl
    · rw [hinit]
      rfl
  | @adjusted delta todo i hl =>
    rw [hl] at hv hr
    obtain ⟨hi, hn, -, -⟩ := hv
    have he : s.loop ≠ .ended := by simp [hl]
    have hb := h.base_eq he i hi
    rw [initialOf, hl] at hb
    simp only [or_true, if_true] at hb
    have hnew : (s.stream i).base + delta = s.initialWindowSize := by omega
    have hlow := h.init_low
    have hh := h.init_high
    refine h.give hk hi he (by omega) (by omega) (by omega) (of_decide_eq_true hr) ?_
      fun j _ hj => ?_
    · rw [hnew]
      simp [initialOf, hn]
    · simp [initialOf, hl, hj]

theorem Inv.step (h : s.Inv) (hr : s.inRange a = true) (hst : s.step a = some t) : t.Inv := by
  have hkeep := h.toValid.step hst
  cases a with simp only [Windows.step] at hst
  | openStream i =>
    split_ifs at hst with hopen
    cases hst
    have hheld : s.held i = 0 :=
      total_eq_zero fun c hc => (h.calls c hc).heldOn_of_not_mem hopen.2
    have he : s.loop ≠ .ended := by simp [hopen.1]
    have hinit (j : Nat) : s.initialOf j = s.initialWindowSize := by simp [initialOf, hopen.1]
    have ho := Balanced.opened h.init_low h.init_high
    exact ⟨hkeep, (forall_update_iff s.stream fun j w => j ∈ i :: s.streams →
      Balanced w (s.held j)).mpr
        ⟨fun _ => hheld ▸ ho, fun j hj hmem => h.balanced j (mem_of_ne_of_mem hj hmem)⟩,
      fun _ => (forall_update_iff s.stream fun j w => j ∈ i :: s.streams →
        w.base = s.initialOf j).mpr
        ⟨fun _ => (hinit i).symm, fun j hj hmem => h.base_eq he j (mem_of_ne_of_mem hj hmem)⟩⟩
  | call i want =>
    split_ifs at hst
    cases hst
    refine ⟨hkeep, fun j hj => ?_, h.base_eq⟩
    have hheld : held { s with calls := s.calls ++ [.load i want] } j = s.held j := by
      simp [held, heldOn]
    rw [hheld]
    exact h.balanced j hj
  | reserve k =>
    obtain ⟨c, hc, c', u, hres, rfl⟩ := step_reserve hst
    exact h.reserve hc (reserved hres)
  | update i increment | connUpdate increment =>
    split_ifs at hst with hidle
    cases hst
    refine h.set_loop hkeep rfl rfl rfl fun _ => ⟨by simp [hidle.1], fun j _ => ?_⟩
    simp [initialOf, hidle.1]
  | settings value =>
    split_ifs at hst with hidle hl <;> cases hst
    · exact h.set_loop hkeep rfl rfl rfl fun hno => absurd rfl hno
    · have hlow := h.init_low
      have hhigh := h.init_high
      have hd : int32 (value - s.initialWindowSize) = value - s.initialWindowSize := by
        refine int32_of_range ?_ ?_ <;> omega
      refine h.set_loop hkeep rfl rfl rfl fun _ => ⟨by simp [hidle.1], fun j hj => ?_⟩
      simp [initialOf, hidle.1, hj, hd]
  | advance => exact h.advance hr (advanced hst)
  | pick i =>
    obtain ⟨delta, todo, hloop, hi, rfl | rfl⟩ := step_pick hst
    · exact h.set_loop hkeep rfl rfl rfl fun hno => absurd rfl hno
    · refine h.set_loop hkeep rfl rfl rfl fun _ => ⟨by simp [hloop], fun j _ => ?_⟩
      have hv := h.loop
      rw [LoopValid, hloop] at hv
      have hp : (j ∈ todo.erase i ∨ j = i) ↔ j ∈ todo := by
        by_cases hji : j = i
        · simp [hji, hi]
        · simp [hji]
      simp [initialOf, hloop, hp]

/-! ## Safety -/

def taken (s : Windows) (i : Nat) : Int := (s.stream i).granted + s.held i

/-- No more of the connection's credit is granted than there is, and the window is the
rest of it. -/
structure SafeConn (s : Windows) : Prop where
  granted_le : s.connGranted ≤ s.connCredit
  window_eq : s.connectionWindow = s.connCredit - s.connGranted
  window_low : 0 ≤ s.connectionWindow
  window_high : s.connectionWindow ≤ maxWindow

/-- No more of a stream's credit is taken than there has been, the window is the rest of
it in the range of an `int32`, and nothing is missing when no call is under way. -/
structure SafeStreams (s : Windows) : Prop where
  taken_le : ∀ i ∈ s.streams, s.taken i ≤ (s.stream i).peak
  window_eq : ∀ i ∈ s.streams, (s.stream i).windowSize = (s.stream i).credit - s.taken i
  window_low : ∀ i ∈ s.streams, -maxWindow ≤ (s.stream i).windowSize
  window_high : ∀ i ∈ s.streams, (s.stream i).windowSize ≤ maxWindow
  finished : (∀ c ∈ s.calls, ∃ g, c = .done g) → ∀ i ∈ s.streams,
    (s.stream i).windowSize = (s.stream i).credit - (s.stream i).granted

theorem Valid.safeConn (h : s.Valid) : s.SafeConn := by
  have heq := h.conn_eq
  have hl := h.conn_low
  exact ⟨by omega, heq, hl, h.conn_high⟩

theorem Inv.safeStreams (h : s.Inv) : s.SafeStreams where
  taken_le := fun i hi => (h.balanced i hi).taken_le
  window_eq := by
    intro i hi
    rw [taken, (h.balanced i hi).window_eq]
    omega
  window_low := by
    intro i hi
    have hl := (h.balanced i hi).low
    have hb := (h.balanced i hi).base_low
    omega
  window_high := by
    intro i hi
    have heq := (h.balanced i hi).window_eq
    have hr := (h.balanced i hi).room
    have hh := h.toValid.held_nonneg i
    omega
  finished := by
    intro hd i hi
    have hh : s.held i = 0 := by
      refine total_eq_zero fun c hc => ?_
      obtain ⟨g, rfl⟩ := hd c hc
      rfl
    rw [(h.balanced i hi).window_eq, hh, sub_zero]

/-- An operation of a call takes no more of a stream's credit, or leaves the window of
the stream at zero or above. -/
theorem Inv.taken_reserve (h : s.Inv) (hi : i ∈ s.streams) (hc : s.calls[k]? = some c)
    (hst : Reserved s c t c') :
    (t.stream i).granted + (s.held i - c.heldOn i + c'.heldOn i) ≤ s.taken i ∨
      0 ≤ (t.stream i).windowSize := by
  have hv := h.calls c (mem_of_getElem? hc)
  unfold taken
  cases hst with
  | shut | loaded | lost | connShut | connLoaded | connLost =>
    simp [heldOn]
  | @debited j want g hp hle =>
    by_cases hij : j = i
    · subst hij
      right
      have hh := h.safeStreams.window_high j hi
      have hg := hp hv.2.1 hv.2.2
      simp only [setWindow, setStream, update_self]
      rw [int32_of_range (by omega) (by omega)]
      exact sub_nonneg.mpr hle
    · left
      simp [setWindow, setStream, update_of_ne (Ne.symm hij), heldOn, hij]
  | @granted j g amount hp hle hcw =>
    by_cases hij : j = i
    · subst hij
      simp only [grant, setStream, update_self, heldOn, if_pos]
      omega
    · simp [grant, setStream, update_of_ne (Ne.symm hij), heldOn, hij]
  | @refunded j g c hlt =>
    by_cases hij : j = i
    · subst hij
      simp only [setWindow, setStream, update_self, heldOn, if_pos]
      omega
    · simp [setWindow, setStream, update_of_ne (Ne.symm hij), heldOn, hij]
  | @kept j g c hle =>
    have hge := hv.2.2
    simp only [heldOn]
    split_ifs <;> omega

/-- A call that takes more of a stream's credit takes no more than there is of it. -/
theorem Inv.taken_le_credit (h : s.Inv) (hi : i ∈ s.streams)
    (hst : s.step (.reserve k) = some t) (hm : s.taken i < t.taken i) :
    t.taken i ≤ (t.stream i).credit := by
  have hinv : t.Inv := h.step rfl hst
  obtain ⟨c, hc, c', u, hr, rfl⟩ := step_reserve hst
  have hs : u.streams = s.streams := by
    cases reserved hr <;> rfl
  have hw := hinv.safeStreams.window_eq i (hs ▸ hi)
  rcases h.taken_reserve hi hc (reserved hr) with hle | hp
  · rw [← held_set hc] at hle
    exact absurd hle (not_le.mpr hm)
  · have hn := hw ▸ hp
    exact sub_nonneg.mp hn

/-! ## Safety along runs -/

theorem Inv.init : Inv {} where
  calls := fun c hc => absurd hc not_mem_nil
  nodup := nodup_nil
  loop := trivial
  init_low := by decide
  init_high := by decide
  conn_eq := rfl
  conn_low := by decide
  conn_high := by decide
  balanced := fun i hi => absurd hi not_mem_nil
  base_eq := fun _ i hi => absurd hi not_mem_nil

/-- Whatever the interleaving, the connection's window is safe; and the windows of the
streams are as long as every frame leaves a stream a credit that fits a window. -/
theorem windows_safe (s : Windows) : (Runs step (fun _ _ => True) {} s → s.SafeConn) ∧
      (Runs step (fun t a => t.inRange a = true) {} s → s.SafeStreams ∧
        ∀ (k : Nat) (t : Windows), s.step (.reserve k) = some t → ∀ i ∈ s.streams,
          s.taken i < t.taken i → t.taken i ≤ (t.stream i).credit) := by
  refine ⟨fun hruns => ?_, fun hruns => ?_⟩
  · exact (hruns.invariant (fun h _ hst => h.step hst) Inv.init.toValid).safeConn
  · have hinv := hruns.invariant (fun h hr hst => h.step hr hst) Inv.init
    exact ⟨hinv.safeStreams, fun k t hst i hi hm => hinv.taken_le_credit hi hst hm⟩

/-- Two calls on one stream: the first gives back what the connection does not grant,
the second loses its swap to a frame. -/
def twoCalls : List Action :=
  [.openStream 1, .update 1 100, .advance, .advance, .call 1 65600, .call 1 10, .reserve 0,
    .reserve 0,
    .reserve 1, .reserve 0, .reserve 0, .update 1 5, .advance, .advance, .reserve 1, .reserve 0]

theorem twoCalls_safe : ∃ s, exec step (fun t a => t.inRange a = true) {} twoCalls = some s ∧
    s.SafeConn ∧ s.SafeStreams := by
  obtain ⟨s, hs⟩ : ∃ s, exec step (fun t a => t.inRange a = true) {} twoCalls = some s := ⟨_, rfl⟩
  have hr := runs_of_exec hs
  exact ⟨s, hs, (windows_safe s).1 (hr.mono fun _ => trivial), ((windows_safe s).2 hr).1⟩

/-- A call holds a whole window while a frame gives the stream another, and gives back
what the connection does not grant. -/
def refundAfterUpdate : List Action :=
  [.openStream 1, .update 1 (2 ^ 31 - 1 - 65535), .advance, .advance, .call 1 (2 ^ 31 - 1),
    .reserve 0, .reserve 0, .update 1 (2 ^ 31 - 1), .advance, .advance,
    .reserve 0, .reserve 0, .reserve 0]

theorem refundAfterUpdate_not_safe : ∃ s, Runs step (fun _ _ => True) {} s ∧ ¬ s.SafeStreams ∧
    s.calls = [.done 65535] ∧ (s.stream 1).windowSize = -65537 ∧
      (s.stream 1).credit - (s.stream 1).granted = 4294901759 := by
  have he : exec step (fun _ _ => True) {} refundAfterUpdate = some _ := rfl
  refine ⟨_, runs_of_exec he, fun h => ?_, rfl, rfl, rfl⟩
  have hf := h.finished (fun c hc => ⟨65535, mem_singleton.mp hc⟩) 1 (by decide)
  exact absurd hf (by decide)

end Windows

end Celeris.H2
