import Celeris.Data.Transition
import Celeris.Memcached.State
import Mathlib.Data.List.Nodup

/-!
# The pointers of the text decoder

`pendingGet` and `pendingStats` are set by a `VALUE` or a `STAT` line and cleared by `END`.
A single-line reply finishes the request at the head without looking at them, and a `VALUE`
line does not look at `pendingStats`, nor a `STAT` line at `pendingGet`. So they follow the
head of the bridge exactly as long as the server does not mix the lines of its replies.
-/

namespace Celeris.Memcached

open Transition List State Kind

def Kind.singleLine : Kind → Bool
  | .value | .endMark | .stat => false
  | _ => true

namespace State

/-- What can happen to a connection of the text dialect. -/
inductive Event where
  /-- A caller takes a request from the pool and enqueues it. -/
  | enqueue (r : Nat) (kind : ReplyKind)
  /-- A caller of another connection takes a request from the pool. -/
  | elsewhere (r : Nat) (kind : ReplyKind)
  /-- A caller returns a request to the pool. -/
  | recycle (r : Nat)
  /-- A reply is parsed. -/
  | reply (v : TextReply)
deriving DecidableEq, Repr

def getRequest (s : State) (r : Nat) (kind : ReplyKind) : State :=
  { s with heap := Function.update s.heap r { kind := kind }, owned := r :: s.owned }

def putRequest (s : State) (r : Nat) : State :=
  { s.modify r (fun q => { q with values := [], stats := [] }) with owned := s.owned.erase r }

/-- One event; none where it cannot happen, and where it ends the connection. A caller
returns a request when it has been finished, and then it is off the bridge. -/
def step (s : State) : Event → Option State
  | .enqueue r kind =>
    if r ∈ s.owned then none else some { s.getRequest r kind with bridge := s.bridge ++ [r] }
  | .elsewhere r kind => if r ∈ s.owned then none else some (s.getRequest r kind)
  | .recycle r => if r ∈ s.owned ∧ r ∉ s.bridge then some (s.putRequest r) else none
  | .reply v => (s.dispatchText v).toOption

/-- The pointers are nil or the request at the head, and at most one is set. -/
def Pending (s : State) : Prop :=
  (s.pendingGet = none ∨ s.pendingGet = s.bridge.head?) ∧
    (s.pendingStats = none ∨ s.pendingStats = s.bridge.head?) ∧
    (s.pendingGet = none ∨ s.pendingStats = none)

instance (s : State) : Decidable s.Pending := inferInstanceAs (Decidable (_ ∧ _ ∧ _))

/-- The lines of a reply are not mixed: a single-line reply comes when no other reply is
under way, and no `VALUE` line within the reply of a `stats`, nor the other way around. -/
def InOrder (s : State) : Event → Prop
  | .reply v =>
    (v.kind = .value → s.pendingStats = none) ∧ (v.kind = .stat → s.pendingGet = none) ∧
      (v.kind.singleLine = true → s.pendingGet = none ∧ s.pendingStats = none)
  | _ => True

instance (s : State) : (e : Event) → Decidable (s.InOrder e)
  | .reply _ => inferInstanceAs (Decidable (_ ∧ _ ∧ _))
  | .enqueue .. | .elsewhere .. | .recycle _ => .isTrue trivial

/-- The requests on the bridge are distinct, in the hands of their callers and not finished. -/
structure Queue (s : State) : Prop where
  nodup : s.bridge.Nodup
  owned : ∀ r ∈ s.bridge, r ∈ s.owned
  waiting : ∀ r ∈ s.bridge, (s.heap r).finished = false

variable {s t : State}

/-! ## What a reply does -/

/-- What an accepted line does: it is added to a request, and its pointer is set; or the
request at the head is finished, and a pointer may be cleared. -/
inductive Dispatched (s : State) (v : TextReply) : State → Prop
  | value : v.kind = .value → s.pendingGet = some r ∨ s.pendingGet = none ∧
      s.bridge.head? = some r →
      Dispatched s v ({ s with pendingGet := some r }.modify r (addValue v))
  | stat : v.kind = .stat → s.pendingStats = some r ∨ s.pendingStats = none ∧
      s.bridge.head? = some r →
      Dispatched s v ({ s with pendingStats := some r }.modify r (addStat v))
  | endGet : v.kind = .endMark → s.pendingGet = some r → s.bridge.head? = some r →
      Dispatched s v ({ s with pendingGet := none }.pop.modify r f)
  | endStats : v.kind = .endMark → s.pendingGet = none → s.pendingStats = some r →
      s.bridge.head? = some r →
      Dispatched s v ({ s with pendingStats := none }.pop.modify r f)
  | endMiss : v.kind = .endMark → s.pendingGet = none → s.pendingStats = none →
      s.bridge.head? = some r → Dispatched s v (s.pop.modify r f)
  | single : v.kind ≠ .value → v.kind ≠ .stat → v.kind ≠ .endMark →
      s.bridge.head? = some r → Dispatched s v (s.pop.modify r f)

variable {r : Nat} {v : TextReply}

theorem finishEnd_ok (h : s.finishEnd r = .ok t) :
    s.bridge.head? = some r ∧ t = s.pop.modify r
      fun q => { q with status := .endMark, finished := true } := by
  unfold finishEnd at h
  split_ifs at h with hh
  cases h
  exact ⟨hh, rfl⟩

theorem dispatched (h : s.dispatchText v = .ok t) : Dispatched s v t := by
  unfold dispatchText at h
  split at h
  next hk =>
    split at h
    next r hg =>
      cases h
      have hst : Dispatched s v ({ s with pendingGet := some r }.modify r (addValue v)) :=
        .value hk (.inl hg)
      rwa [← hg] at hst
    next => cases h
    next r rest hg hb =>
      cases h
      refine .value hk (.inr ⟨hg, ?_⟩)
      rw [hb]
      rfl
  next hk =>
    split at h
    next r _ _ hg =>
      obtain ⟨hh, rfl⟩ := finishEnd_ok h
      exact .endGet hk hg hh
    next r _ hg hs =>
      obtain ⟨hh, rfl⟩ := finishEnd_ok h
      exact .endStats hk hg hs hh
    next => cases h
    next r rest hg hs hb =>
      obtain ⟨hh, rfl⟩ := finishEnd_ok h
      exact .endMiss hk hg hs hh
  next hk =>
    split at h
    next r hs =>
      cases h
      have hst : Dispatched s v ({ s with pendingStats := some r }.modify r (addStat v)) :=
        .stat hk (.inl hs)
      rwa [← hs] at hst
    next => cases h
    next r rest hs hb =>
      cases h
      refine .stat hk (.inr ⟨hs, ?_⟩)
      rw [hb]
      rfl
  next hv he hstat =>
    split at h
    next => cases h
    next r rest hb =>
      cases h
      refine .single hv hstat he ?_
      rw [hb]
      rfl

theorem dispatched_of_step (h : s.step (.reply v) = some t) : Dispatched s v t := by
  rw [step] at h
  cases hv : s.dispatchText v with rw [hv] at h
  | error e => cases h
  | ok u =>
    cases h
    exact dispatched hv

/-! ## The queue -/

theorem Queue.pointers (h : s.Queue) (get stats : Option Nat) :
    Queue { s with pendingGet := get, pendingStats := stats } := { h with }

variable {f : Request → Request}

/-- A line is added to a request. -/
theorem Queue.modify (h : s.Queue)
    (hf : ∀ q, (f q).finished = q.finished) : Queue (s.modify r f) := by
  refine { h with waiting := fun q hq => ?_ }
  by_cases hqr : q = r
  · subst hqr
    simpa [modify, hf] using h.waiting q hq
  · simpa [State.modify, hqr] using h.waiting q hq

/-- The request at the head is finished. -/
theorem Queue.pop (h : s.Queue) (hh : s.bridge.head? = some r) : Queue (s.pop.modify r f) := by
  obtain ⟨rest, hb⟩ := head?_eq_some_iff.mp hh
  have hn := h.nodup
  rw [hb, nodup_cons] at hn
  have hm : ∀ q ∈ rest, q ∈ s.bridge := fun q hq => hb ▸ mem_cons_of_mem r hq
  have hp : (s.pop.modify r f).bridge = rest := by simp [State.modify, State.pop, hb]
  refine ⟨hp ▸ hn.2, fun q hq => h.owned q (hm q (hp ▸ hq)), fun q hq => ?_⟩
  rw [hp] at hq
  have hqr : q ≠ r := fun heq => hn.1 (heq ▸ hq)
  simpa [State.modify, State.pop, hqr] using h.waiting q (hm q hq)

theorem Queue.dispatched (h : s.Queue) (hst : Dispatched s v t) : t.Queue := by
  cases hst with
  | @value r => exact (h.pointers (some r) s.pendingStats).modify fun _ => rfl
  | @stat r => exact (h.pointers s.pendingGet (some r)).modify fun _ => rfl
  | endGet _ _ hh => exact (h.pointers none s.pendingStats).pop hh
  | endStats _ _ _ hh => exact (h.pointers s.pendingGet none).pop hh
  | endMiss _ _ _ hh | single _ _ _ hh => exact h.pop hh

/-- A request is taken from the pool. -/
theorem Queue.getRequest (h : s.Queue) (hr : r ∉ s.owned) (kind : ReplyKind) :
    Queue (s.getRequest r kind) := by
  refine { h with owned := fun q hq => mem_cons_of_mem r (h.owned q hq), waiting := fun q hq => ?_ }
  have hqr : q ≠ r := fun heq => hr (heq ▸ h.owned q hq)
  simpa [State.getRequest, hqr] using h.waiting q hq

theorem Queue.step {e : Event} (h : s.Queue) (hst : s.step e = some t) : t.Queue := by
  cases e with rw [State.step] at hst
  | enqueue r kind =>
    split_ifs at hst with hr
    cases hst
    have hg := h.getRequest hr kind
    have hn : r ∉ s.bridge := fun hm => hr (h.owned r hm)
    refine ⟨concat_eq_append ▸ h.nodup.concat hn,
      forall_mem_append.mpr ⟨hg.owned, forall_mem_singleton.mpr mem_cons_self⟩,
      forall_mem_append.mpr ⟨hg.waiting, forall_mem_singleton.mpr ?_⟩⟩
    simp [State.getRequest]
  | elsewhere r kind =>
    split_ifs at hst with hr
    cases hst
    exact h.getRequest hr kind
  | recycle r =>
    split_ifs at hst with hr
    cases hst
    have hne : ∀ q ∈ s.bridge, q ≠ r := fun q hq heq => hr.2 (heq ▸ hq)
    refine { h with owned := fun q hq => ?_, waiting := fun q hq => ?_ }
    · exact (mem_erase_of_ne (hne q hq)).mpr (h.owned q hq)
    · simpa [State.putRequest, State.modify, hne q hq] using h.waiting q hq
  | reply v => exact h.dispatched (dispatched_of_step hst)

/-! ## The pointers -/

/-- The head of the bridge of a queue is at no other place of it. -/
theorem Queue.head?_tail_ne (h : s.Queue) (hh : s.bridge.head? = some r) :
    s.bridge.tail.head? ≠ some r := by
  obtain ⟨rest, hb⟩ := head?_eq_some_iff.mp hh
  have hn := h.nodup
  rw [hb, nodup_cons] at hn
  rw [hb]
  exact fun ht => hn.1 (mem_of_head? ht)

/-- A line is added to the request at the head. -/
theorem Pending.head_of_get (h : s.Pending)
    (hr : s.pendingGet = some r ∨ s.pendingGet = none ∧ s.bridge.head? = some r) :
    s.bridge.head? = some r := by
  rcases hr with hr | ⟨-, hh⟩
  · rcases h.1 with hn | hh
    · rw [hr] at hn
      cases hn
    · rw [← hh, hr]
  · exact hh

theorem Pending.head_of_stats (h : s.Pending)
    (hr : s.pendingStats = some r ∨ s.pendingStats = none ∧ s.bridge.head? = some r) :
    s.bridge.head? = some r := by
  rcases hr with hr | ⟨-, hh⟩
  · rcases h.2.1 with hn | hh
    · rw [hr] at hn
      cases hn
    · rw [← hh, hr]
  · exact hh

/-- A pointer that is left when the request at the head is finished points elsewhere. -/
theorem Pending.pop_iff (h : s.Pending) (hq : s.Queue) (hh : s.bridge.head? = some r) :
    Pending (s.pop.modify r f) ↔ s.pendingGet = none ∧ s.pendingStats = none := by
  have ht := hq.head?_tail_ne hh
  obtain ⟨hg, hs, -⟩ := h
  rw [hh] at hg hs
  constructor
  · rintro ⟨hg', hs', -⟩
    simp only [modify, pop] at hg' hs'
    refine ⟨hg.resolve_right fun hr => ?_, hs.resolve_right fun hr => ?_⟩
    · rw [hr] at hg'
      exact ht (hg'.resolve_left nofun).symm
    · rw [hr] at hs'
      exact ht (hs'.resolve_left nofun).symm
  · rintro ⟨hn, hn'⟩
    exact ⟨.inl hn, .inl hn', .inl hn⟩

/-- A line keeps the pointers in order exactly when it is in order itself. -/
theorem Pending.dispatched_iff (h : s.Pending) (hq : s.Queue) (hst : Dispatched s v t) :
    t.Pending ↔ s.InOrder (.reply v) := by
  cases hst with
  | @value r hk hr =>
    have hh := h.head_of_get hr
    simp only [InOrder, hk, singleLine, forall_const, reduceCtorEq, false_implies, and_true]
    exact ⟨fun hp => hp.2.2.resolve_left nofun, fun hn => ⟨.inr hh.symm, .inl hn, .inr hn⟩⟩
  | @stat r hk hr =>
    have hh := h.head_of_stats hr
    simp only [InOrder, hk, singleLine, forall_const, reduceCtorEq, false_implies, true_and,
      and_true]
    exact ⟨fun hp => hp.2.2.resolve_right nofun, fun hn => ⟨.inl hn, .inr hh.symm, .inl hn⟩⟩
  | endGet hk hr hh =>
    have hn : s.pendingStats = none := h.2.2.resolve_left (by rw [hr]; nofun)
    refine iff_of_true ?_ (by simp [InOrder, hk, singleLine])
    exact ⟨.inl rfl, .inl hn, .inl rfl⟩
  | endStats hk hn _ _ =>
    refine iff_of_true ?_ (by simp [InOrder, hk, singleLine])
    exact ⟨.inl hn, .inl rfl, .inl hn⟩
  | endMiss hk hn hn' _ =>
    refine iff_of_true ?_ (by simp [InOrder, hk, singleLine])
    exact ⟨.inl hn, .inl hn', .inl hn⟩
  | single hv hstat he hh =>
    have hs : v.kind.singleLine = true := by
      cases hk : v.kind <;> first | rfl | contradiction
    rw [h.pop_iff hq hh]
    simp [InOrder, hv, hstat, hs]

/-- An event keeps the pointers in order exactly when it is in order itself. -/
theorem Pending.step_iff {e : Event} (h : s.Pending) (hq : s.Queue) (hst : s.step e = some t) :
    t.Pending ↔ s.InOrder e := by
  cases e with
  | enqueue r kind =>
    rw [step] at hst
    split_ifs at hst
    cases hst
    refine iff_of_true ?_ trivial
    obtain ⟨hg, hs, ho⟩ := h
    cases hb : s.bridge with rw [hb] at hg hs
    | nil => exact ⟨.inl (hg.elim id id), .inl (hs.elim id id), ho⟩
    | cons q rest => exact ⟨hg, hs, ho⟩
  | elsewhere r kind | recycle r =>
    rw [step] at hst
    split_ifs at hst
    cases hst
    exact iff_of_true h trivial
  | reply v => exact h.dispatched_iff hq (dispatched_of_step hst)

/-! ## The result -/

/-- As long as the server does not mix the lines of its replies, the pointers are nil or
the request at the head, and not both are set; the next event keeps it so exactly when it
is in order; and a `VALUE` or `STAT` line is added to the request at the head, which is
still waiting, and to no other. -/
theorem pending_of_inOrder (h : Runs step InOrder {} s) :
    s.Pending ∧ (∀ e t, s.step e = some t → (t.Pending ↔ s.InOrder e)) ∧
      ∀ v t, v.kind = .value ∨ v.kind = .stat → s.step (.reply v) = some t →
        ∃ r, s.bridge.head? = some r ∧ (s.heap r).finished = false ∧
          ∀ q ≠ r, t.heap q = s.heap q := by
  have hi : s.Queue ∧ s.Pending :=
    Runs.invariant (P := fun s => s.Queue ∧ s.Pending)
      (fun hi hok hst => ⟨hi.1.step hst, (hi.2.step_iff hi.1 hst).mpr hok⟩)
      ⟨⟨nodup_nil, nofun, nofun⟩, .inl rfl, .inl rfl, .inl rfl⟩ h
  obtain ⟨hqu, hp⟩ := hi
  refine ⟨hp, fun e t hst => hp.step_iff hqu hst, fun v t hk hst => ?_⟩
  cases dispatched_of_step hst with
  | @value r _ hr =>
    have hh := hp.head_of_get hr
    exact ⟨r, hh, hqu.waiting r (mem_of_head? hh), fun q hq => Function.update_of_ne hq _ _⟩
  | @stat r _ hr =>
    have hh := hp.head_of_stats hr
    exact ⟨r, hh, hqu.waiting r (mem_of_head? hh), fun q hq => Function.update_of_ne hq _ _⟩
  | endGet he | endStats he | endMiss he =>
    rw [he] at hk
    rcases hk with hk | hk <;> cases hk
  | single hv hs => exact (hk.elim hv hs).elim

/-- A `get` is answered by a value and `END`, and another is enqueued. -/
def getsRun : List Event :=
  [.enqueue 0 .get, .reply { kind := .value, key := [107], data := [118] },
    .reply { kind := .endMark }, .enqueue 1 .get]

theorem pending_of_inOrder_gets : ∃ s, Runs step InOrder {} s ∧ s.bridge = [1] ∧ s.Pending := by
  obtain ⟨s, hr, hb⟩ : ∃ s, Runs step InOrder {} s ∧ s.bridge = [1] :=
    exists_runs getsRun (by decide +kernel)
  exact ⟨s, hr, hb, (pending_of_inOrder hr).1⟩

/-- The server answers a `get` with a value and then an error; the caller returns the
request, and the value for the next `get` is added to it. -/
def errorRun : List Event :=
  [.enqueue 0 .get, .reply { kind := .value, key := [107], data := [118] },
    .reply { kind := .serverError },
    .recycle 0, .enqueue 1 .get, .reply { kind := .value, key := [107], data := [118] }]

theorem errorRun_not_pending : ∃ s, Runs step (fun _ _ => True) {} s ∧ ¬ s.Pending ∧
    s.bridge = [1] ∧ 0 ∉ s.owned ∧ (s.heap 0).values ≠ [] ∧ (s.heap 1).values = [] :=
  exists_runs errorRun (by decide +kernel)

end State

end Celeris.Memcached
