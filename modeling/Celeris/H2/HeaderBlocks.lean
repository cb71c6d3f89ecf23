import Celeris.H2.Events

/-!
# Header blocks and the frames they come in

A header block comes in one `HEADERS` frame, which `ProcessH2` may hand to
`ProcessRawHeaders` without parsing it, or in a `HEADERS` frame and `CONTINUATION`
frames. All three are compared with one thing, `deliverWhole`: the server is given the
whole block with the frame that ends it. Until then a fragment does nothing that a
frame the server ignores would not do (`hold`), whatever the handlers and the sweeps do
meanwhile.

HPACK is a function of the bytes of a block and of the decoder's table; the table is
part of the state (`stepDecoding`).
-/

namespace Celeris.H2

open Option List

namespace Processor

/-! ## HPACK -/

/-- The bytes of the header block that ends with a frame. -/
def blockBytes (p : Processor) : Frame → Bytes
  | .headers f => f.fragment
  | .continuation _ _ fragment => (p.continuationState.elim [] ContinuationState.headerBlock) ++
      fragment
  | _ => []

section

variable {τ : Type} (decode : τ → Bytes → Decoded × τ)

/-- An event of a connection with the table of its decoder. -/
def stepDecoding (s : Processor × τ) : Event → Option (Processor × τ)
  | .frame env f =>
    if (s.1.headerBlock f).isSome then
      let (decoded, table) := decode s.2 (s.1.blockBytes f)
      (step s.1 (.frame { env with decoded := decoded } f)).map (·, table)
    else (step s.1 (.frame env f)).map (·, s.2)
  | e => (step s.1 e).map (·, s.2)

/-- What `ProcessH2` does once a frame is processed. -/
def conclude (r : Result) : Processor :=
  { r.1.manage fun m => m.flushOut.drainWriteQueue with ended := r.1.ended || r.2.isSome }

/-- What `ProcessH2` does with a frame that ends a header block, given the whole block. -/
def processBlock (p : Processor) (env : Env) (id : Nat) (endStream : Bool)
    (priority : Option Priority) (block : Bytes) : Processor :=
  conclude ((p.setHasMoreFrames env.hasMoreFrames).serveHeaderBlock env id endStream priority block)

/-- The server is given a whole header block. -/
def deliverWhole (env : Env) (id : Nat) (endStream : Bool) (priority : Option Priority)
    (block : Bytes) (s : Processor × τ) : Option (Processor × τ) :=
  if s.1.ended then none
  else
    let (decoded, table) := decode s.2 block
    some (s.1.processBlock { env with decoded := decoded } id endStream priority block, table)

end

/-! ## Fragments -/

/-- A fragment of a header block in a `CONTINUATION` frame, with what happens before it. -/
structure Fragment where
  before : List Event
  env : Env
  bytes : Bytes

/-- The `CONTINUATION` frames of a header block. -/
def continuations (id : Nat) : List Fragment → List Event
  | [] => []
  | x :: rest => x.before ++ .frame x.env (.continuation id rest.isEmpty x.bytes) ::
      continuations id rest

/-- A header block in a `HEADERS` frame and as many `CONTINUATION` frames as there are fragments. -/
def split (id : Nat) (endStream : Bool) (priority : Option Priority) (env : Env) (first : Bytes)
    (length : Nat) (rest : List Fragment) : List Event :=
  .frame env (.headers ⟨id, endStream, rest.isEmpty, priority, first, length⟩) ::
    continuations id rest

/-- What happens until the last of the fragments, each of the others being a frame that is
ignored. -/
def beside (id : Nat) : Env → List Fragment → List Event
  | _, [] => []
  | env, x :: rest => .frame env (.unknown id) :: (x.before ++ beside id x.env rest)

def lastEnv : Env → List Fragment → Env
  | env, [] => env
  | _, x :: rest => lastEnv x.env rest

def join (first : Bytes) (rest : List Fragment) : Bytes := first ++ rest.flatMap Fragment.bytes

/-- A frame of the client, or the end of the time that a header block has. -/
def Event.seesBlock : Event → Bool
  | .frame _ _ | .expireHeaderBlock => true
  | _ => false

/-! ## A block that is held -/

section

variable {p q : Processor}

def hold (cs : Option ContinuationState) (p : Processor) : Processor :=
  { p with continuationState := cs }

theorem stepPool_eq {k : Nat} {action : PoolAction} : p.stepPool k action =
    p.pool[k]?.bind fun x => (p.manager.stepPool x.1 x.2 action).map fun y =>
      { (if action = .start then p.serve x.1 else p) with
        manager := y.1, pool := setStage p.pool k x.1 y.2 } := by
  unfold stepPool
  cases p.pool[k]? with
  | none => rfl
  | some x =>
    rcases x with ⟨i, stage⟩
    dsimp only [bind, bind_some]
    cases p.manager.stepPool i stage action <;> rfl

variable {e : Event} {f : Frame} {endStream : Bool} {priority : Option Priority} {length : Nat}

/-- Other events do not see the block. -/
theorem step_hold (he : e.seesBlock = false) (cs : Option ContinuationState) :
    step (p.hold cs) e = (step p e).map (hold cs) := by
  cases e with
  | frame env f => cases he
  | expireHeaderBlock => cases he
  | readError err =>
    unfold step loopStep
    show (if p.ended then _ else _) = _
    cases err <;> (split_ifs <;> rfl)
  | pool k action =>
    show (p.hold cs).stepPool k action = (p.stepPool k action).map (hold cs)
    rw [stepPool_eq, stepPool_eq, map_bind]
    refine congrArg (Option.bind _) (funext fun x => ?_)
    rw [Function.comp, Option.map_map]
    refine congrArg (Option.map · _) (funext fun y => ?_)
    split_ifs <;> rfl
  | expireRequest id deadline =>
    unfold step loopStep
    dsimp only
    show (if p.ended then _ else if id ∈ p.manager.ids ∧
      (p.manager.stream id).reqDeadline then _ else _) = _
    split_ifs <;> rfl
  | _ =>
    unfold step loopStep
    show (if p.ended then _ else _) = _
    split_ifs <;> rfl

/-- Nor do they change it, or the limit. -/
theorem block_of_step (he : e.seesBlock = false) (h : step p e = some q) :
    q.continuationState = p.continuationState ∧ q.headerListMax = p.headerListMax := by
  rcases step_cases h with ⟨k, action, rfl, hp⟩ | ⟨-, hl⟩
  · rw [stepPool_eq] at hp
    obtain ⟨x, -, hp⟩ := bind_eq_some_iff.mp hp
    obtain ⟨y, -, rfl⟩ := map_eq_some_iff.mp hp
    split_ifs <;> exact ⟨rfl, rfl⟩
  · cases e with
    | frame env f => cases he
    | expireHeaderBlock => cases he
    | readError err =>
      cases hl
      cases err <;> exact ⟨rfl, rfl⟩
    | pool k action => cases hl
    | expireRequest id deadline =>
      unfold loopStep at hl
      dsimp only at hl
      split_ifs at hl
      cases hl
      exact ⟨rfl, rfl⟩
    | _ =>
      cases hl
      exact ⟨rfl, rfl⟩

/-! ## The frames of a block -/

variable {id : Nat} {env : Env} {cs : ContinuationState} {bytes : Bytes}

theorem step_eq_conclude (hf : flowLength f = 0) : step p (.frame env f) =
      if p.ended then none else some
        (conclude ((p.setHasMoreFrames env.hasMoreFrames).processFrame env f)) := by
  unfold step loopStep processH2
  dsimp only
  rw [hf]
  rfl

/-- A fragment that is within the limits. -/
theorem processFrame_continuation (q : Processor) (env : Env)
    (hfew : cs.continuations < maxContinuationFrames)
    (hsmall : cs.headerBlock.length + bytes.length ≤ q.headerListMax * 4) (endHeaders : Bool) :
    processFrame (q.hold (some cs)) env (.continuation cs.streamID endHeaders bytes) =
      if endHeaders = false then
        (q.hold (some { cs with
          continuations := cs.continuations + 1, headerBlock := cs.headerBlock ++ bytes }), none)
      else (q.hold none).serveHeaderBlock env cs.streamID cs.endStream cs.priority
        (cs.headerBlock ++ bytes) := by
  have hl : ¬cs.headerBlock.length + bytes.length > q.headerListMax * 4 := Nat.not_lt.mpr hsmall
  have hm : ¬cs.continuations + 1 > maxContinuationFrames := Nat.not_lt.mpr hfew
  have hc : continues cs.streamID (.continuation cs.streamID endHeaders bytes) = true :=
    decide_eq_true rfl
  show (if continues cs.streamID (.continuation cs.streamID endHeaders bytes) then
    if cs.streamID ≠ cs.streamID then _
    else if cs.headerBlock.length + bytes.length > q.headerListMax * 4 then _
    else if cs.continuations + 1 > maxContinuationFrames then _ else _
    else _) = _
  rw [if_pos hc, if_neg (not_not.mpr rfl), if_neg hl, if_neg hm]
  rfl

variable (hq : q.continuationState = none)

include hq

theorem processFrame_none : q.processFrame env f = q.handleFrame env f := by
  rw [processFrame, hq]

theorem hold_none : q.hold none = q := by
  rw [← hq]
  rfl

theorem processFrame_headers {f : HeadersFrame} (hl : f.length ≤ q.manager.localMaxFrameSize) :
    q.processFrame env (.headers f) = q.handleHeaders env f :=
  (processFrame_none hq).trans (if_neg (Nat.not_lt.mpr hl))

theorem step_unknown : step q (.frame env (.unknown id)) =
    if q.ended then none else some (conclude (q.setHasMoreFrames env.hasMoreFrames, none)) := by
  rw [step_eq_conclude rfl, processFrame_none (q := q.setHasMoreFrames env.hasMoreFrames) hq]
  rfl

/-- A frame that only changes the block that is held does what a frame that is ignored does. -/
theorem step_eq_ignored {held : Option ContinuationState}
    (he : p.ended = q.ended) (hf : flowLength f = 0)
    (h : (p.setHasMoreFrames env.hasMoreFrames).processFrame env f =
      ((q.setHasMoreFrames env.hasMoreFrames).hold held, none)) :
    step p (.frame env f) = (step q (.frame env (.unknown id))).map (hold held) := by
  rw [step_eq_conclude hf, h, step_unknown hq, he]
  split_ifs <;> rfl

section

variable (hfew : cs.continuations < maxContinuationFrames)
  (hsmall : cs.headerBlock.length + bytes.length ≤ q.headerListMax * 4)

include hfew hsmall

theorem step_continuation (id : Nat) :
    step (q.hold (some cs)) (.frame env (.continuation cs.streamID false bytes)) =
      (step q (.frame env (.unknown id))).map (hold (some { cs with
        continuations := cs.continuations + 1, headerBlock := cs.headerBlock ++ bytes })) :=
  step_eq_ignored hq rfl rfl
    ((processFrame_continuation (q.setHasMoreFrames env.hasMoreFrames) env hfew hsmall false).trans
      (if_pos rfl))

theorem step_lastContinuation :
    step (q.hold (some cs)) (.frame env (.continuation cs.streamID true bytes)) =
      if q.ended then none
      else some (q.processBlock env cs.streamID cs.endStream cs.priority
        (cs.headerBlock ++ bytes)) := by
  have hl := processFrame_continuation (q.setHasMoreFrames env.hasMoreFrames) env hfew hsmall true
  rw [if_neg nofun, hold_none (q := q.setHasMoreFrames env.hasMoreFrames) hq] at hl
  exact congrArg (fun r : Result => if q.ended then none else some (conclude r)) hl

end

theorem step_headers (hl : length ≤ q.manager.localMaxFrameSize)
    (hsmall : bytes.length ≤ q.headerListMax * 4) :
    step q (.frame env (.headers ⟨id, endStream, false, priority, bytes, length⟩)) =
      (step q (.frame env (.unknown id))).map (hold (some
        { streamID := id, headerBlock := bytes, endStream := endStream,
          priority := priority })) := by
  have hla : ¬bytes.length > q.headerListMax * 4 := Nat.not_lt.mpr hsmall
  refine step_eq_ignored hq rfl rfl ((processFrame_headers (by exact hq) hl).trans ?_)
  show (if bytes.length > q.headerListMax * 4 then _ else _) = _
  rw [if_neg hla]
  rfl

theorem step_wholeHeaders (hl : length ≤ q.manager.localMaxFrameSize) :
    step q (.frame env (.headers ⟨id, endStream, true, priority, bytes, length⟩)) =
      if q.ended then none else some (q.processBlock env id endStream priority bytes) := by
  rw [step_eq_conclude rfl, processFrame_headers (q := q.setHasMoreFrames env.hasMoreFrames) hq hl]
  rfl

end

/-! ## The fragments of a block -/

section

variable {τ : Type} {decode : τ → Bytes → Decoded × τ} {p q : Processor} {id : Nat} {env : Env}
  {cs : ContinuationState} {bytes : Bytes} {t : τ}

variable (decode) in
/-- What events make of a connection. -/
def execDecoding (s : Processor × τ) (events : List Event) : Option (Processor × τ) :=
  Transition.exec (stepDecoding decode) (fun _ _ => True) s events

theorem execDecoding_cons (s : Processor × τ) (e : Event) (events : List Event) :
    execDecoding decode s (e :: events) = (stepDecoding decode s e).bind
      fun s => execDecoding decode s events := by
  unfold execDecoding
  rw [Transition.exec, if_pos trivial]

variable {s : Processor × τ} {events : List Event} {f : Frame} {first : Bytes}

theorem execDecoding_append {events' : List Event} : execDecoding decode s (events ++ events') =
      (execDecoding decode s events).bind fun s => execDecoding decode s events' :=
  Transition.exec_append s events events'

theorem stepDecoding_other {e : Event} (he : e.seesBlock = false) :
    stepDecoding decode (p, t) e = (step p e).map (·, t) := by
  cases e with
  | frame env f => cases he
  | _ => rfl

theorem stepDecoding_unended (hf : p.headerBlock f = none) :
    stepDecoding decode (p, t) (.frame env f) = (step p (.frame env f)).map (·, t) := by
  unfold stepDecoding
  dsimp only
  rw [hf]
  exact if_neg nofun

theorem stepDecoding_unknown : stepDecoding decode (p, t) (.frame env (.unknown id)) =
    (step p (.frame env (.unknown id))).map (·, t) := stepDecoding_unended rfl

/-- Events that are no frames are the same while a block is held. -/
theorem execDecoding_hold (hev : ∀ e ∈ events, e.seesBlock = false) (p : Processor)
    (held : Option ContinuationState) : execDecoding decode (p.hold held, t) events =
      (execDecoding decode (p, t) events).map fun s => (s.1.hold held, s.2) := by
  induction events generalizing p with
  | nil => rfl
  | cons e events ih =>
    obtain ⟨he, hr⟩ := forall_mem_cons.mp hev
    rw [execDecoding_cons, execDecoding_cons, stepDecoding_other he, stepDecoding_other he,
      step_hold he]
    cases step p e with
    | none => rfl
    | some q => exact ih hr q

theorem block_of_execDecoding (hev : ∀ e ∈ events, e.seesBlock = false)
    (h : execDecoding decode (p, t) events = some s) :
    s.1.continuationState = p.continuationState ∧ s.1.headerListMax = p.headerListMax := by
  induction events generalizing p with
  | nil =>
    cases h
    exact ⟨rfl, rfl⟩
  | cons e events ih =>
    obtain ⟨he, hr⟩ := forall_mem_cons.mp hev
    rw [execDecoding_cons, stepDecoding_other he] at h
    obtain ⟨u, hu, h⟩ := bind_eq_some_iff.mp h
    obtain ⟨q, hq, rfl⟩ := map_eq_some_iff.mp hu
    obtain ⟨hb, hm⟩ := block_of_step he hq
    obtain ⟨hb', hm'⟩ := ih hr h
    exact ⟨hb'.trans hb, hm'.trans hm⟩

variable {endStream : Bool} {priority : Option Priority} {length : Nat} {rest : List Fragment}

/-- A frame that ends a block gives the server the whole block. -/
theorem stepDecoding_ended (hf : (p.headerBlock f).isSome = true)
    (h : ∀ env, step p (.frame env f) =
      if q.ended then none else some (q.processBlock env id endStream priority (p.blockBytes f))) :
    stepDecoding decode (p, t) (.frame env f) =
      deliverWhole decode env id endStream priority (p.blockBytes f) (q, t) := by
  unfold stepDecoding deliverWhole
  dsimp only
  rw [if_pos hf, h]
  split_ifs <;> rfl

section

variable (hq : q.continuationState = none)

include hq

theorem stepDecoding_last (hfew : cs.continuations < maxContinuationFrames)
    (hsmall : cs.headerBlock.length + bytes.length ≤ q.headerListMax * 4) :
    stepDecoding decode (q.hold (some cs), t) (.frame env (.continuation cs.streamID true bytes)) =
      deliverWhole decode env cs.streamID cs.endStream cs.priority (cs.headerBlock ++ bytes)
        (q, t) := by
  have he : (q.hold (some cs)).headerBlock (.continuation cs.streamID true bytes) =
      some (cs.streamID, cs.endStream) := if_pos ⟨rfl, rfl⟩
  exact stepDecoding_ended (isSome_of_eq_some he) fun env => step_lastContinuation hq hfew hsmall

theorem stepDecoding_whole (hl : length ≤ q.manager.localMaxFrameSize) :
    stepDecoding decode (q, t) (.frame env
      (.headers ⟨id, endStream, true, priority, bytes, length⟩)) =
      deliverWhole decode env id endStream priority bytes (q, t) := by
  have he : q.headerBlock (.headers ⟨id, endStream, true, priority, bytes, length⟩) =
      some (id, endStream) :=
    if_pos ⟨hq, rfl⟩
  exact stepDecoding_ended (isSome_of_eq_some he) fun env => step_wholeHeaders hq hl

theorem block_of_unknown {r : Processor} (h : step q (.frame env (.unknown id)) = some r) :
    r.continuationState = none ∧ r.headerListMax = q.headerListMax := by
  rw [step_unknown hq] at h
  split_ifs at h
  cases h
  exact ⟨hq, rfl⟩

end

/-- What happens before a fragment does not see the block that is held. -/
theorem execDecoding_before {before after : List Event} {held : Option ContinuationState}
    {whole : Processor × τ → Option (Processor × τ)} (hb : ∀ e ∈ before, e.seesBlock = false)
    (h : ∀ r u, r.continuationState = q.continuationState → r.headerListMax = q.headerListMax →
      execDecoding decode (r.hold held, u) after = whole (r, u)) :
    execDecoding decode (q.hold held, t) (before ++ after) =
      (execDecoding decode (q, t) before).bind whole := by
  rw [execDecoding_append, execDecoding_hold hb, bind_map]
  cases he : execDecoding decode (q, t) before with
  | none => rfl
  | some s =>
    obtain ⟨hbl, hm⟩ := block_of_execDecoding hb he
    exact h s.1 s.2 hbl hm

/-- Nothing but the fragments themselves comes of the client while it sends a block. -/
def Uninterrupted (rest : List Fragment) : Prop := ∀ x ∈ rest, ∀ e ∈ x.before, e.seesBlock = false

/-- Fragments are held, until the last of them gives the server the block. -/
theorem execDecoding_continuations {x : Fragment} (hrest : Uninterrupted (x :: rest))
    (hq : q.continuationState = none)
    (hfew : cs.continuations + rest.length < maxContinuationFrames)
    (hsmall : (cs.headerBlock ++ join x.bytes rest).length ≤ q.headerListMax * 4) :
    execDecoding decode (q.hold (some cs), t) (continuations cs.streamID (x :: rest)) =
      (execDecoding decode (q, t) (x.before ++ beside cs.streamID x.env rest)).bind
        (deliverWhole decode (lastEnv x.env rest) cs.streamID cs.endStream cs.priority
          (cs.headerBlock ++ join x.bytes rest)) := by
  induction rest generalizing q t cs x with
  | nil =>
    rw [join, flatMap_nil, append_nil, length_append] at hsmall
    rw [join, flatMap_nil, append_nil, beside, append_nil]
    refine execDecoding_before (hrest x mem_cons_self) fun r u hb hmax => ?_
    rw [execDecoding_cons, isEmpty_nil, stepDecoding_last (hb.trans hq) hfew (hmax ▸ hsmall)]
    exact bind_fun_some _
  | cons y rest ih =>
    have hl : Uninterrupted (y :: rest) := fun z hz => hrest z (mem_cons_of_mem _ hz)
    have hj : cs.headerBlock ++ join x.bytes (y :: rest) = cs.headerBlock ++ x.bytes ++ join y.bytes
        rest := by
      rw [join, join, flatMap_cons, append_assoc]
    have hnow : cs.headerBlock.length + x.bytes.length ≤ q.headerListMax * 4 := by
      rw [hj, length_append, length_append] at hsmall
      omega
    have hf : cs.continuations < maxContinuationFrames := by omega
    rw [length_cons] at hfew
    rw [hj] at hsmall ⊢
    rw [execDecoding_append, bind_assoc]
    refine execDecoding_before (hrest x mem_cons_self) fun r u hb hmax => ?_
    have hr := hb.trans hq
    have hh : (r.hold (some cs)).headerBlock (.continuation cs.streamID false x.bytes) = none :=
      if_neg fun h => nomatch h.2
    rw [beside, execDecoding_cons, execDecoding_cons, isEmpty_cons, stepDecoding_unended hh,
      stepDecoding_unknown, step_continuation hr hf (hmax ▸ hnow) cs.streamID]
    cases hs : step r (.frame x.env (.unknown cs.streamID)) with
    | none => rfl
    | some v =>
      obtain ⟨hv, hvmax⟩ := block_of_unknown hr hs
      refine ih hl hv ?_ ?_
      · dsimp only
        omega
      · rw [hvmax, hmax]
        exact hsmall

/-- However a block comes, the server is given it whole. -/
theorem execDecoding_split (hrest : Uninterrupted rest) (hq : q.continuationState = none)
    (hl : length ≤ q.manager.localMaxFrameSize) (hfew : rest.length ≤ maxContinuationFrames)
    (hsmall : (join first rest).length ≤ q.headerListMax * 4) :
    execDecoding decode (q, t) (split id endStream priority env first length rest) =
      (execDecoding decode (q, t) (beside id env rest)).bind
        (deliverWhole decode (lastEnv env rest) id endStream priority (join first rest)) := by
  rw [split, execDecoding_cons]
  cases rest with
  | nil =>
    rw [join, flatMap_nil, append_nil, isEmpty_nil, stepDecoding_whole hq hl]
    exact bind_fun_some _
  | cons x rest =>
    have hj : join first (x :: rest) = first ++ join x.bytes rest := by
      rw [join, join, flatMap_cons]
    have hf : first.length ≤ q.headerListMax * 4 := by
      rw [join, length_append] at hsmall
      omega
    have hh : q.headerBlock (.headers ⟨id, endStream, false, priority, first, length⟩) = none :=
      if_neg fun h => nomatch h.2
    rw [isEmpty_cons, stepDecoding_unended hh, step_headers hq hl hf, beside, execDecoding_cons,
      stepDecoding_unknown, hj]
    cases hs : step q (.frame env (.unknown id)) with
    | none => rfl
    | some r =>
      obtain ⟨hr, hmax⟩ := block_of_unknown hq hs
      rw [← hmax, hj] at hsmall
      rw [length_cons] at hfew
      have hm : (0 : Nat) + rest.length < maxContinuationFrames := by omega
      exact execDecoding_continuations hrest hr hm hsmall

/-! ## Fragments with nothing between them -/

/-- Nothing is waiting to be written. -/
structure Flushed (p : Processor) : Prop where
  outBuf : p.manager.outBuf = []
  queue : p.manager.queue = []

theorem Flushed.conclude (h : Flushed p) : conclude (p, none) = p := by
  have hf : p.manager.flushOut = p.manager := by
    unfold Manager.flushOut
    rw [h.outBuf, append_nil, ← h.outBuf]
  have hd : p.manager.drainWriteQueue = p.manager := by
    unfold Manager.drainWriteQueue
    rw [h.queue, append_nil, ← h.queue]
  unfold Processor.conclude manage
  dsimp only
  rw [hf, hd, isSome_none, Bool.or_false]

theorem execDecoding_beside (id : Nat) (env : Env) (t : τ) (hf : Flushed q)
    (hq : q.continuationState = none) (ho : q.ended = false) (hr : ∀ x ∈ rest, x.before = []) :
    ∃ v, execDecoding decode (q, t) (beside id env rest) = some (q.setHasMoreFrames v, t) := by
  induction rest generalizing q env with
  | nil => exact ⟨q.hasMoreFrames, rfl⟩
  | cons x rest ih =>
    have hn : Flushed (q.setHasMoreFrames env.hasMoreFrames) := ⟨hf.outBuf, hf.queue⟩
    obtain ⟨v, hv⟩ := ih x.env hn hq ho fun y hy => hr y (mem_cons_of_mem _ hy)
    refine ⟨v, ?_⟩
    rw [beside, hr x mem_cons_self, nil_append, execDecoding_cons, stepDecoding_unknown,
      step_unknown hq, ho, if_neg nofun, hn.conclude]
    exact hv

/-- Fragments that nothing comes between do what one frame with the whole block does. -/
theorem execDecoding_split_eq (hf : Flushed q) (hr : ∀ x ∈ rest, x.before = [])
    (hq : q.continuationState = none) (hl : length ≤ q.manager.localMaxFrameSize)
    (hfew : rest.length ≤ maxContinuationFrames)
    (hsmall : (join first rest).length ≤ q.headerListMax * 4) :
    execDecoding decode (q, t) (split id endStream priority env first length rest) =
      deliverWhole decode (lastEnv env rest) id endStream priority (join first rest) (q, t) := by
  have hqu : Uninterrupted rest := by
    intro x hx e he
    rw [hr x hx] at he
    cases he
  rw [execDecoding_split hqu hq hl hfew hsmall]
  cases hen : q.ended with
  | true =>
    have hn : deliverWhole decode (lastEnv env rest) id endStream priority (join first rest)
        (q, t) = none :=
      if_pos hen
    rw [hn]
    cases rest with
    | nil => exact hn
    | cons x rest =>
      rw [beside, execDecoding_cons, stepDecoding_unknown, step_unknown hq, if_pos hen]
      rfl
  | false =>
    obtain ⟨v, hv⟩ := execDecoding_beside id env t hf hq hen hr
    rw [hv]
    rfl

/-! ## The raw path -/

end

def processRawHeaders (p : Processor) (env : Env) (id : Nat) (endStream : Bool) (block : Bytes) :
    Result :=
  p.serveHeaderBlock env id endStream none block

/-- What `ProcessH2` calls for a `HEADERS` frame: one that is plain is not parsed. -/
def dispatchHeaders (p : Processor) (env : Env) (padded : Bool) (f : HeadersFrame) : Result :=
  if f.endHeaders = true ∧ padded = false ∧ f.priority = none ∧
      f.length ≤ p.manager.localMaxFrameSize ∧ p.continuationState = none then
    p.processRawHeaders env f.streamID f.endStream f.fragment
  else p.processFrame env (.headers f)

section

variable {p q : Processor} {id : Nat} {env : Env} {endStream : Bool}

theorem dispatchHeaders_eq (env : Env) {padded : Bool} {f : HeadersFrame} :
    p.dispatchHeaders env padded f = p.processFrame env (.headers f) := by
  unfold dispatchHeaders
  split_ifs with hr
  · obtain ⟨he, -, hp, hl, hn⟩ := hr
    rw [processFrame_headers hn hl, handleHeaders, if_pos he, hp]
    rfl
  · rfl

/-! ## Every block is decoded -/

variable {u : Processor} {priority : Option Priority} {τ : Type}

theorem decodeRefused_ne_failed (h : p.decodeRefused env = (u, none)) : env.decoded ≠ .failed := by
  intro hf
  rw [decodeRefused, if_pos hf] at h
  cases h

theorem openStream_refused (h : p.openStream env id endStream = ((u, none), .refused)) :
    env.decoded ≠ .failed := by
  unfold openStream at h
  split at h
  · obtain ⟨hr, -⟩ := Prod.mk.inj h
    obtain ⟨_, -, hn⟩ := andThen_eq_none hr
    obtain ⟨_, hd, -⟩ := andThen_eq_none hn
    exact decodeRefused_ne_failed hd
  · cases h

/-- A block that is refused or ignored is decoded, unless that ends the connection. -/
theorem admitHeaders_refused (h : p.admitHeaders env id endStream = ((u, none), .refused)) :
    env.decoded ≠ .failed := by
  unfold admitHeaders at h
  dsimp only at h
  split_ifs at h
  · unfold admitNew at h
    dsimp only at h
    split_ifs at h
    · cases h
    · exact decodeRefused_ne_failed (Prod.mk.inj h).1
    · cases h
    · split at h
      · cases h
      · exact openStream_refused h
  · cases h
  · cases h
  · cases h
  · cases h
  · exact openStream_refused h

theorem completeHeaderBlock_ne_failed {trailers : Bool}
    (h : p.completeHeaderBlock env trailers id endStream = (q, none)) : env.decoded ≠ .failed := by
  intro hf
  rw [completeHeaderBlock, hf] at h
  cases h

/-- A block that does not decode ends the connection, whatever the server does with its stream. -/
theorem serveHeaderBlock_ne_failed {block : Bytes}
    (h : p.serveHeaderBlock env id endStream priority block = (q, none)) :
    env.decoded ≠ .failed := by
  unfold serveHeaderBlock at h
  by_cases hl : block.length > p.headerListMax * 4
  · rw [if_pos hl] at h
    cases h
  · rcases ha : p.admitHeaders env id endStream with ⟨r, admission⟩
    rw [if_neg hl, ha] at h
    obtain ⟨u, rfl, hn⟩ := andThen_eq_none h
    cases admission with
    | refused => exact admitHeaders_refused ha
    | trailers => exact completeHeaderBlock_ne_failed hn
    | new =>
      split_ifs at hn
      · cases hn
      · exact completeHeaderBlock_ne_failed hn

theorem ended_of_failed {decode : τ → Bytes → Decoded × τ} {t : τ}
    {block : Bytes} {s : Processor × τ} (hf : (decode t block).1 = .failed)
    (h : deliverWhole decode env id endStream priority block (p, t) = some s) :
    s.1.ended = true := by
  unfold deliverWhole at h
  split_ifs at h
  cases h
  dsimp only [processBlock, conclude]
  generalize hs : serveHeaderBlock _ _ id endStream priority block = r
  obtain ⟨u, err⟩ := r
  cases err with
  | some err => exact Bool.or_true _
  | none => exact absurd hf (serveHeaderBlock_ne_failed hs)

/-! ## What is held of a block -/

variable {T : Scope}

theorem Change.block {n : Nat} (h : Change T n p q) : q.headerListMax = p.headerListMax ∧
    ∀ {cs}, q.continuationState = some cs →
      p.continuationState = some cs ∨ cs.headerBlock.length ≤ p.headerListMax * 4 := by
  cases h with
  | books hb => exact ⟨hb.headerListMax, hb.block⟩
  | _ => exact ⟨rfl, .inl⟩

/-- What is held of a block is within the limit. -/
structure Capped (most : Nat) (p : Processor) : Prop where
  limit : p.headerListMax = most
  block : ∀ {cs}, p.continuationState = some cs → cs.headerBlock.length ≤ most * 4

theorem kept_capped {most : Nat} : Kept T (Capped most) where
  resizes h hp := by
    rw [h.rest]
    exact ⟨hp.limit, hp.block⟩
  change {n p q} _ h hp := by
    obtain ⟨hl, hbl⟩ := h.block
    refine ⟨hl.trans hp.limit, fun hcs => ?_⟩
    rcases hbl hcs with hb | hsmall
    · exact hp.block hb
    · exact hp.limit ▸ hsmall
  counts hp := ⟨hp.limit, hp.block⟩

theorem runs_of_decoding {decode : τ → Bytes → Decoded × τ} {s u : Processor × τ}
    (h : Transition.Runs (stepDecoding decode) (fun _ _ => True) s u) :
    Transition.Runs step (fun _ _ => True) s.1 u.1 := by
  induction h with
  | refl => exact .refl
  | @tail v w e _ _ hs ih =>
    cases e with
    | frame env f =>
      unfold stepDecoding at hs
      dsimp only at hs
      split_ifs at hs
      all_goals
        obtain ⟨q, hq, rfl⟩ := map_eq_some_iff.mp hs
        exact ih.tail trivial hq
    | _ =>
      obtain ⟨q, hq, rfl⟩ := map_eq_some_iff.mp hs
      exact ih.tail trivial hq

end

/-- Header blocks on every connection, for any HPACK decoder that is a function of the bytes
of a block and its table: what is held of a block is within the limit; the raw path does
what the parsed frame does; however a block within the limits is split, its fragments do
what frames that are ignored do, and the last gives the server the whole block, whatever
happens between them; with nothing between them they do what the block does in one frame; and
a block that does not decode ends the connection, whatever the server does with its
stream. -/
theorem headerBlocks_delivered {τ : Type} {decode : τ → Bytes → Decoded × τ} {table t : τ}
    {cfg : Config}
    {p : Processor} (h : Transition.Runs (stepDecoding decode) (fun _ _ => True) (newProcessor cfg,
      table) (p, t)) :
    (∀ {cs}, p.continuationState = some cs → cs.headerBlock.length ≤ cfg.headerListMax * 4) ∧
    (∀ env padded f, p.dispatchHeaders env padded f = p.processFrame env (.headers f)) ∧
    (∀ {id endStream priority env first length rest}, p.continuationState = none →
      length ≤ p.manager.localMaxFrameSize → rest.length ≤ 32 →
        (join first rest).length ≤ cfg.headerListMax * 4 →
      (Uninterrupted rest → execDecoding decode (p, t)
        (split id endStream priority env first length rest) =
          (execDecoding decode (p, t) (beside id env rest)).bind
            (deliverWhole decode (lastEnv env rest) id endStream priority (join first rest))) ∧
      (Flushed p → (∀ x ∈ rest, x.before = []) →
        execDecoding decode (p, t) (split id endStream priority env first length rest) =
          deliverWhole decode (lastEnv env rest) id endStream priority (join first rest) (p, t))) ∧
    ∀ {env id endStream priority block s}, (decode t block).1 = .failed →
      deliverWhole decode env id endStream priority block (p, t) = some s → s.1.ended = true := by
  have hi : Capped cfg.headerListMax (newProcessor cfg) := ⟨rfl, nofun⟩
  obtain ⟨-, hc⟩ :=
    kept_capped.runs (T := .all) (fun _ => eventOk_all _ _) (inv_newProcessor cfg) hi
    (runs_of_decoding h)
  refine ⟨hc.block, dispatchHeaders_eq, fun hn hl hfew hsmall => ?_, ended_of_failed⟩
  rw [← show p.headerListMax = cfg.headerListMax from hc.limit] at hsmall
  exact ⟨fun hr => execDecoding_split hr hn hl hfew hsmall,
    fun hf hr => execDecoding_split_eq hf hr hn hl hfew hsmall⟩

/-- A request with a priority in three fragments, the queue being drained between them. -/
theorem getInThree_delivered : let get : List Field :=
      [(ascii ":method", ascii "GET"), (ascii ":scheme", ascii "http"), (ascii ":path", ascii "/")]
    let decode : Nat → Bytes → Decoded × Nat := fun t block => (.fields get, t + block.length)
    let priority : Priority := ⟨5, 9, false⟩
    let rest : List Fragment := [⟨[.drain], {}, [2, 3]⟩, ⟨[], {}, [4]⟩]
    (execDecoding decode (newProcessor {}, 0) (split 1 false (some priority) {} [1] 10 rest)).map
        (fun s => (s.1.ended, s.1.manager.opens, s.1.manager.priorityTree.priorities 1, s.2)) =
      some (false, [1], some priority, 4) ∧
    execDecoding decode (newProcessor {}, 0) (split 1 false (some priority) {} [1] 10 rest) =
      (execDecoding decode (newProcessor {}, 0) (beside 1 {} rest)).bind
        (deliverWhole decode {} 1 false (some priority) [1, 2, 3, 4]) := by
  intro get decode priority rest
  have hr : Uninterrupted rest := by
    unfold Uninterrupted
    decide
  have hs : Transition.Runs (stepDecoding decode) (fun _ _ => True) (newProcessor {}, 0)
      (newProcessor {}, 0) :=
    .refl
  obtain ⟨-, -, hsp, -⟩ := headerBlocks_delivered hs
  exact ⟨by decide +kernel, (hsp rfl (by decide) (by decide) (by decide)).1 hr⟩

end Processor

end Celeris.H2
