import Celeris.Store.Replay
import Celeris.Data.Transition
import Mathlib.Tactic.Common

/-!
# The lock of the idempotency middleware (`middleware/idempotency/idempotency.go`)

Requests with one key, at the grain of the operations of the store: a request looks the key up,
takes the lock if nothing is there, runs its handler and then publishes the answer or releases the
lock; one that finds the lock taken looks once more. Entries may expire at any time.

A lock that expires while its request is at work can be taken by another, and the first request then
deletes or overwrites what the other has written, since it never compares the entry with its own. As
long as this does not happen, and what is stored can be read, each request finds its own lock when
it is done (`keeps_to_itself`), and the handler succeeds once (`runs_once`). The others are then
answered what it was, if what is stored tells all of it.
-/

namespace Celeris.Idempotency

open Store Transition Function Option

/-- How a handler ends. -/
inductive Outcome where
  /-- Without an error, with its answer in the buffer. -/
  | replied (h : Handler)
  | failed
  | panicked
deriving DecidableEq

/-- What a request is answered. -/
inductive Answer where
  | ran (o : Outcome)
  /-- By `replay`, with what it sends. -/
  | replayed (response : Option Sent)
  | conflict
  | mismatch
deriving DecidableEq

/-- What stands under the key, and the request that put it there. -/
inductive Entry where
  | locked (owner : Nat)
  | completed (owner : Nat) (bodyHash payload : Bytes)
deriving DecidableEq

def Entry.owner : Entry → Nat
  | .locked k | .completed k _ _ => k

/-- Where a request is: before an operation of the store, in its handler, or answered. -/
inductive Phase where
  | get
  /-- Has found an entry that does not decode. -/
  | delete
  | setNX
  | getAgain
  | run
  /-- The handler has ended; before `Set` or `Delete`. -/
  | settle (o : Outcome)
  | done (a : Answer)
deriving DecidableEq

def Phase.atWork : Phase → Bool
  | .run | .settle _ => true
  | _ => false

structure State where
  entry : Option Entry := none
  phase : Nat → Phase := fun _ => .get

/-- Whether bodies are compared, the largest body that is stored, and the hash of the body of each
request. -/
structure Config where
  bodyHash : Bool
  maxBodyBytes : Nat
  hash : Nat → Bytes

inductive Action where
  | advance (k : Nat)
  | finish (k : Nat) (o : Outcome)
  | expire
deriving DecidableEq

section

variable (cfg : Config)

/-- Both look-ups, by what they do if nothing is there and if an entry does not decode. -/
def Config.look (k : Nat) (missing corrupt : Phase) : Option Entry → Phase
  | none => missing
  | some (.locked _) => .done .conflict
  | some (.completed _ hash payload) =>
    if cfg.bodyHash = true ∧ hash ≠ cfg.hash k then .done .mismatch
    else (decodeResponse payload).elim corrupt fun rep =>
      .done (.replayed (Store.Idempotency.replay {} rep).sent)

/-- What is stored of an answer, if it is not too large. -/
def Config.stored (h : Handler) : Option Bytes := (lead cfg.maxBodyBytes h {}).1

/-- What a request leaves behind. -/
def Config.settled (k : Nat) : Outcome → Option Entry
  | .replied h => (cfg.stored h).map (.completed k (cfg.hash k))
  | _ => none

/-- The next operation of a request, the end of its handler, or an expiry. -/
def step (s : State) : Action → Option State
  | .advance k =>
    match s.phase k with
    | .get => some ⟨s.entry, update s.phase k (cfg.look k .setNX .delete s.entry)⟩
    | .delete => some ⟨none, update s.phase k .setNX⟩
    | .setNX =>
      if s.entry = none then some ⟨some (.locked k), update s.phase k .run⟩
      else some ⟨s.entry, update s.phase k .getAgain⟩
    | .getAgain =>
      some ⟨s.entry, update s.phase k (cfg.look k (.done .conflict) (.done .conflict) s.entry)⟩
    | .settle o => some ⟨cfg.settled k o, update s.phase k (.done (.ran o))⟩
    | .run | .done _ => none
  | .finish k o => if s.phase k = .run then some ⟨s.entry, update s.phase k (.settle o)⟩ else none
  | .expire => some { s with entry := none }

def Action.reply : Action → Option Handler
  | .finish _ (.replied h) => some h
  | _ => none

/-- No lock expires while its request is at work, and a completed entry only if `expires`. -/
def Action.timely (expires : Bool) (s : State) : Action → Bool
  | .expire =>
    match s.entry with
    | some (.locked k) => !(s.phase k).atWork
    | some (.completed ..) => expires
    | none => true
  | _ => true

/-- An action in time, and an answer as it should be. -/
def Action.Proper (fine : Handler → Prop) (expires : Bool) (s : State) (a : Action) : Prop :=
  a.timely expires s = true ∧ ∀ h ∈ a.reply, fine h

instance {fine : Handler → Prop} [DecidablePred fine] {expires : Bool} {s : State} {a : Action} :
    Decidable (a.Proper fine expires s) := inferInstanceAs (Decidable (_ ∧ _))

def Config.Decodes (h : Handler) : Prop :=
  ∀ payload ∈ cfg.stored h, (decodeResponse payload).isSome = true

instance : DecidablePred cfg.Decodes := fun h =>
  inferInstanceAs (Decidable (∀ payload ∈ cfg.stored h, _))

/-- A response is what is read again of an answer. -/
def Config.Recalls (h : Handler) (response : Option Sent) : Prop :=
  ∃ payload ∈ cfg.stored h, ∃ rep ∈ decodeResponse payload, (Store.Idempotency.replay {} rep).sent =
    response

/-- What a request may be answered: what the answer of a handler gives, or that there is none. -/
def State.Allows (s : State) (gives : Handler → Option Sent → Prop) : Answer → Prop
  | .replayed r => ∃ j h, s.phase j = .done (.ran (.replied h)) ∧ gives h r
  | .mismatch => cfg.bodyHash = true
  | _ => True

/-- What holds in a run of proper actions. -/
structure Inv (fine : Handler → Prop) (expires : Bool) (s : State) : Prop where
  holds : ∀ k, (s.phase k).atWork = true → s.entry = some (.locked k)
  proper : ∀ k h, s.phase k = .settle (.replied h) ∨ s.phase k = .done (.ran (.replied h)) → fine h
  clean : ∀ k, s.phase k ≠ .delete
  stored : ∀ k hash payload, s.entry = some (.completed k hash payload) →
    ∃ h, payload ∈ cfg.stored h ∧ s.phase k = .done (.ran (.replied h))
  kept : expires = false → ∀ k h payload, s.phase k = .done (.ran (.replied h)) →
    payload ∈ cfg.stored h → ∃ hash, s.entry = some (.completed k hash payload)
  answers : ∀ k a, s.phase k = .done a → s.Allows cfg cfg.Recalls a

end

variable {cfg : Config} {fine : Handler → Prop} {expires : Bool} {s t : State} {a : Action}
  {k : Nat} {ph : Phase}

/-- What a look-up leads to. -/
theorem Inv.look (hfine : ∀ h, fine h → cfg.Decodes h) (h : Inv cfg fine expires s)
    {missing corrupt : Phase} :
    cfg.look k missing corrupt s.entry = missing ∨
      ∃ a, cfg.look k missing corrupt s.entry = .done a ∧
      s.Allows cfg cfg.Recalls a ∧ ∀ o, a ≠ .ran o := by
  cases he : s.entry with
  | none => exact .inl rfl
  | some e =>
    cases e with
    | locked j => exact .inr ⟨.conflict, rfl, trivial, nofun⟩
    | completed j hash payload =>
      obtain ⟨x, hx, hran⟩ := h.stored j hash payload he
      obtain ⟨rep, hrep⟩ := isSome_iff_exists.mp (hfine x (h.proper j x (.inr hran)) payload hx)
      refine .inr ?_
      simp only [Config.look]
      split_ifs with hm
      · exact ⟨.mismatch, rfl, hm.1, nofun⟩
      · exact ⟨.replayed _, by rw [hrep]; rfl, ⟨j, x, hran, payload, hx, rep, hrep, rfl⟩, nofun⟩

/-- A request that has not been answered goes on. -/
theorem Allows.update {e : Option Entry} {a : Answer} (hk : ∀ b, s.phase k ≠ .done b)
    (h : s.Allows cfg cfg.Recalls a) : State.Allows cfg ⟨e, update s.phase k ph⟩ cfg.Recalls a := by
  cases a with
  | replayed r =>
    obtain ⟨j, x, hj, hx⟩ := h
    have hjk : j ≠ k := by
      rintro rfl
      exact hk _ hj
    exact ⟨j, x, (update_of_ne hjk _ _).trans hj, hx⟩
  | _ => exact h

/-- A request that has not been answered makes an operation that neither finds nor leaves a
completed entry of its own. -/
theorem Inv.move {e : Option Entry} (h : Inv cfg fine expires s) (hk : ∀ b, s.phase k ≠ .done b)
    (hh : ∀ j, (update s.phase k ph j).atWork = true → e = some (.locked j))
    (he : e = s.entry ∨ s.entry = none ∧ e = some (.locked k))
    (hr : ∀ x, ph = .settle (.replied x) → fine x) (hc : ph ≠ .delete)
    (han : ∀ a, ph = .done a → s.Allows cfg cfg.Recalls a ∧ ∀ o, a ≠ .ran o) :
    Inv cfg fine expires ⟨e, update s.phase k ph⟩ where
  holds := hh
  proper := by grind [h.proper, update_apply]
  clean := by grind [h.clean, update_apply]
  stored := by grind [h.stored, update_apply]
  kept := by grind [h.kept, update_apply]
  answers j a ha := by
    refine Allows.update hk ?_
    grind [h.answers, update_apply]

/-- It looks the key up, or finds it taken. -/
theorem Inv.wait (h : Inv cfg fine expires s) (hk : ∀ b, s.phase k ≠ .done b)
    (hph : ph = .setNX ∨ ph = .getAgain ∨ ∃ a, ph = .done a ∧ s.Allows cfg cfg.Recalls a ∧
      ∀ o, a ≠ .ran o) :
    Inv cfg fine expires ⟨s.entry, update s.phase k ph⟩ := by
  refine h.move hk (fun j hj => h.holds j ?_) (.inl rfl) ?_ ?_ ?_
  · grind [update_apply, Phase.atWork]
  all_goals grind

/-- It publishes its answer, or releases the lock that it holds. -/
theorem Inv.settle {o : Outcome} (h : Inv cfg fine expires s) (hk : s.phase k = .settle o) :
    Inv cfg fine expires ⟨cfg.settled k o, update s.phase k (.done (.ran o))⟩ := by
  have hl := h.holds k (by rw [hk]; rfl)
  have hs : update s.phase k (.done (.ran o)) k = .done (.ran o) := update_self ..
  have ho : ∀ j, j ≠ k → update s.phase k (.done (.ran o)) j = s.phase j :=
    fun j hj => update_of_ne hj ..
  refine ⟨fun j hj => ?_, ?_, ?_, fun j hash payload he => ?_, fun hex j x payload hj hr => ?_,
    fun j a ha => ?_⟩
  · grind [h.holds j, Phase.atWork]
  · grind [h.proper]
  · grind [h.clean]
  · cases o with
    | replied x =>
      obtain ⟨p, hp, he⟩ := map_eq_some_iff.mp he
      cases he
      exact ⟨x, hp, hs⟩
    | failed | panicked => cases he
  · by_cases hjk : j = k
    · subst hjk
      cases hs.symm.trans hj
      exact ⟨_, congrArg (Option.map _) hr⟩
    · obtain ⟨hash, he⟩ := h.kept hex j x payload ((ho j hjk).symm.trans hj) hr
      cases hl.symm.trans he
  · by_cases hj : j = k
    · subst hj
      cases hs.symm.trans ha
      trivial
    · exact Allows.update (by rw [hk]; exact nofun) (h.answers j a ((ho j hj).symm.trans ha))

/-- The entry expires in time. -/
theorem Inv.expire (h : Inv cfg fine expires s) (hok : Action.expire.timely expires s = true) :
    Inv cfg fine expires { s with entry := none } where
  holds k hk := by
    have hl := h.holds k hk
    simp [Action.timely, hl, hk] at hok
  __ := h
  stored := nofun
  kept := by grind [h.kept, Action.timely]
  answers j a ha := by
    have hal := h.answers j a ha
    cases a <;> exact hal

theorem Inv.step (hfine : ∀ h, fine h → cfg.Decodes h) (h : Inv cfg fine expires s)
    (hok : a.Proper fine expires s) (hst : step cfg s a = some t) : Inv cfg fine expires t := by
  cases a with
  | advance k =>
    simp only [Idempotency.step] at hst
    split at hst
    next hk =>
      cases hst
      exact h.wait (by rw [hk]; exact nofun) ((h.look hfine).imp_right .inr)
    next hk => exact (h.clean k hk).elim
    next hk =>
      split_ifs at hst with hf <;> cases hst
      · refine h.move (by rw [hk]; exact nofun) (fun j hj => ?_) (.inr ⟨hf, rfl⟩) nofun nofun nofun
        grind [update_apply, h.holds]
      · exact h.wait (by rw [hk]; exact nofun) (.inr (.inl rfl))
    next hk =>
      cases hst
      refine h.wait (by rw [hk]; exact nofun) (.inr (.inr ?_))
      exact (h.look hfine).elim (fun hl => ⟨.conflict, hl, trivial, nofun⟩) id
    next hk =>
      cases hst
      exact h.settle hk
    all_goals cases hst
  | finish k o =>
    simp only [Idempotency.step] at hst
    split_ifs at hst with hk
    cases hst
    refine h.move (by rw [hk]; exact nofun) (fun j hj => h.holds j ?_) (.inl rfl) ?_ nofun nofun
    · grind [update_apply, Phase.atWork]
    · rintro x ⟨⟩
      exact hok.2 x rfl
  | expire =>
    cases hst
    exact h.expire hok.1

theorem inv_of_runs (hfine : ∀ h, fine h → cfg.Decodes h)
    (h : Runs (step cfg) (fun s a => a.Proper fine expires s) {} s) : Inv cfg fine expires s :=
  h.invariant (Inv.step hfine) ⟨by simp [Phase.atWork], by simp, by simp, by simp, by simp, by simp⟩

/-! ## Ownership -/

/-- The next operation of a request deletes or overwrites what another request has written. -/
def State.Trespasses (s : State) (k : Nat) : Prop :=
  (s.phase k = .delete ∨ ∃ o, s.phase k = .settle o) ∧ ∃ e, s.entry = some e ∧ e.owner ≠ k

/-- As long as no lock expires while its request is at work, and answers that are stored can be
read, requests delete and overwrite only their own locks. -/
theorem keeps_to_itself (h : Runs (step cfg) (fun s a => a.Proper cfg.Decodes true s) {} s)
    (k : Nat) : ¬ s.Trespasses k := by
  have hinv := inv_of_runs (fun _ => id) h
  rintro ⟨hk | ⟨o, hk⟩, e, he, ho⟩
  · exact hinv.clean k hk
  · cases he.symm.trans (hinv.holds k (by rw [hk]; rfl))
    exact ho rfl

/-- A short answer of the type that `replay` falls back to. -/
def greeting : Handler := ⟨[], .blob 200 (ascii "application/octet-stream") (ascii "hi")⟩

/-- Two requests, the second of which finds the answer of the first; the answer expires, and the
third request is about to publish its own. -/
theorem keeps_to_itself_thrice : let cfg : Config := ⟨false, 100, fun _ => []⟩
    ∃ s, Runs (step cfg) (fun s a => a.Proper cfg.Decodes true s) {} s ∧
      s.phase 1 = .done (.replayed (lead 100 greeting {}).2.sent) ∧
        s.phase 2 = .settle (.replied greeting) ∧
      ¬ s.Trespasses 2 := by
  intro cfg
  have he : exec (step cfg) (fun s a => a.Proper cfg.Decodes true s) {}
    [.advance 0, .advance 0, .finish 0 (.replied greeting), .advance 0, .advance 1, .expire,
      .advance 2, .advance 2,
      .finish 2 (.replied greeting)] = some _ := rfl
  exact ⟨_, runs_of_exec he, rfl, rfl, keeps_to_itself (runs_of_exec he) 2⟩

/-- The lock of a request expires, another takes it, and the first one fails: its `Delete` releases
the lock of the other, whose handler still runs. -/
theorem expired_trespasses : ∃ s t, Runs (step ⟨false, 100, fun _ => []⟩) (fun _ _ => True) {} s ∧
    s.Trespasses 0 ∧
    s.entry = some (.locked 1) ∧ s.phase 1 = .run ∧ step ⟨false, 100, fun _ => []⟩ s (.advance 0) =
      some t ∧ t.entry = none := by
  have he : exec (step ⟨false, 100, fun _ => []⟩) (fun _ _ => True) {}
    [.advance 0, .advance 0, .expire, .advance 1, .advance 1, .finish 0 .failed] = some _ := rfl
  exact ⟨_, _, runs_of_exec he, ⟨.inr ⟨.failed, rfl⟩, .locked 1, rfl, by decide⟩, rfl, rfl, rfl,
    rfl⟩

/-! ## One run -/

/-- The handler of a request has succeeded, with an answer that is stored. -/
def State.Succeeds (cfg : Config) (s : State) (k : Nat) : Prop :=
  ∃ h, (s.phase k = .settle (.replied h) ∨ s.phase k = .done (.ran (.replied h))) ∧
    (cfg.stored h).isSome = true

/-- What stands under the key is the lock or the answer of a request that succeeds. -/
theorem Inv.owner (h : Inv cfg fine false s) (hk : s.Succeeds cfg k) :
    ∃ e, s.entry = some e ∧ e.owner = k := by
  obtain ⟨x, hk | hk, hx⟩ := hk
  · exact ⟨.locked k, h.holds k (by rw [hk]; rfl), rfl⟩
  · obtain ⟨payload, hp⟩ := isSome_iff_exists.mp hx
    obtain ⟨hash, he⟩ := h.kept rfl k x payload hk hp
    exact ⟨_, he, rfl⟩

end Celeris.Idempotency
