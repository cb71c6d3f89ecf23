import Celeris.H2.Events
import Mathlib.Algebra.Order.BigOperators.Group.Finset

/-!
# The budget of what responses buffer

`outboundHeld` is charged where a response buffers bytes and refunded where they are
flushed, discarded or given back with their stream; from 4 MiB on, handlers are moved
off the event loop. A stream that buffers something is in the map, or a pool handler
still has it, and the budget is the sum over those: it neither leaks nor goes below
what is there.
-/

namespace Celeris.H2

open Manager Function Finset Transition

/-- Streams that buffer nothing add nothing. -/
theorem Manager.buffered_subset {m : Manager} {s s' : Finset Nat} (h : s ⊆ s')
    (hr : ∀ i ∈ s', i ∉ s → (m.stream i).outboundBuffer = []) : m.buffered s' = m.buffered s := by
  refine (sum_subset h fun i hi hn => ?_).symm
  rw [hr i hi hn]
  rfl

namespace Processor

variable {T : Scope} {p q : Processor} {i n : Nat}

def owned (p : Processor) : Finset Nat := p.manager.ids.toFinset ∪ (p.pool.map Prod.fst).toFinset

theorem mem_owned : i ∈ p.owned ↔ i ∈ p.manager.ids ∨ p.Pooled i := by
  unfold owned Pooled
  simp

/-- The budget is right. -/
structure Budgeted (p : Processor) : Prop where
  owned : ∀ {i}, (p.manager.stream i).outboundBuffer ≠ [] → i ∈ p.manager.ids ∨ p.Pooled i
  async : ∀ {i}, i ∈ p.manager.ids → (p.manager.stream i).asyncRunning = true → p.Pooled i
  sum : ∀ {s}, (∀ i, (p.manager.stream i).outboundBuffer ≠ [] → i ∈ s) →
    p.manager.outboundHeld = p.manager.buffered s

namespace Budgeted

/-- One stream changes what it buffers, and the budget with it. -/
theorem stream (h : Budgeted p) (ha : Apart i p.manager q.manager) {s : Stream}
    (hself : q.manager.stream i = s) (hp : ∀ {j}, j ≠ i → p.Pooled j → q.Pooled j)
    (hh : q.manager.outboundHeld - s.outboundBuffer.length =
      p.manager.outboundHeld - (p.manager.stream i).outboundBuffer.length)
    (ho : s.outboundBuffer ≠ [] → i ∈ q.manager.ids ∨ q.Pooled i)
    (hasync : i ∈ q.manager.ids → s.asyncRunning = true → q.Pooled i) : Budgeted q where
  owned {j} hj := by
    by_cases hji : j = i
    · rw [hji, hself] at hj
      exact hji ▸ ho hj
    · exact (h.owned (ha.stream hji ▸ hj)).imp (ha.ids hji).mpr (hp hji)
  async {j} hj hr := by
    by_cases hji : j = i
    · rw [hji, hself] at hr
      exact hji ▸ hasync (hji ▸ hj) hr
    · exact hp hji (h.async ((ha.ids hji).mp hj) (ha.stream hji ▸ hr))
  sum {s} hs := by
    have hc : ∀ j, (p.manager.stream j).outboundBuffer ≠ [] → j ∈ insert i s := by
      intro j hj
      by_cases hji : j = i
      · exact mem_insert.mpr (.inl hji)
      · exact mem_insert_of_mem (hs j (ha.stream hji ▸ hj))
    have hsum := h.sum hc
    rw [← hself] at hh
    have hsame := buffered_stream (fun hj => congrArg Stream.outboundBuffer (ha.stream hj)) hh
      (mem_insert_self i s)
    have hi : q.manager.buffered (insert i s) = q.manager.buffered s := by
      refine buffered_subset (subset_insert i s) fun j _ hn => ?_
      by_contra hb
      exact hn (hs j hb)
    omega

/-- The streams stay. -/
theorem same (h : Budgeted p) (hs : q.manager.stream = p.manager.stream)
    (hi : q.manager.ids = p.manager.ids)
    (hh : q.manager.outboundHeld = p.manager.outboundHeld) (hp : ∀ {j}, p.Pooled j → q.Pooled j) :
    Budgeted q := by
  refine h.stream (i := 0) ⟨fun _ => by rw [hs], fun _ => by rw [hi]⟩ (congrFun hs 0) (fun _ => hp)
    (by rw [hh]) (fun hj => ?_) fun hj ha => hp (h.async (hi ▸ hj) ha)
  rw [hi]
  exact (h.owned hj).imp_right hp

/-- A stream changes but for its response. -/
theorem update (h : Budgeted p) {s : Stream}
    (hs : q.manager.stream = Function.update p.manager.stream i s)
    (hb : s.outboundBuffer = (p.manager.stream i).outboundBuffer)
    (ha : s.asyncRunning = (p.manager.stream i).asyncRunning)
    (hh : q.manager.outboundHeld = p.manager.outboundHeld) (hids : q.manager.ids = p.manager.ids)
    (hpool : q.pool = p.pool) : Budgeted q := by
  have hself : q.manager.stream i = s := by rw [hs, update_self]
  have hp : ∀ {j}, p.Pooled j → q.Pooled j := by
    intro j hj
    rwa [Pooled, hpool]
  refine h.stream (apart_update hids hs) hself (fun _ => hp) (by rw [hb, hh]) (fun hj => ?_)
    fun hj hr => hp (h.async (hids ▸ hj) (ha ▸ hr))
  exact (h.owned (hb ▸ hj)).imp (fun hi => hids ▸ hi) hp

/-- A stream the client has not used buffers nothing. -/
theorem fresh (h : Budgeted p) (hinv : Inv T p) (hi : p.manager.lastClientStream < i) :
    (p.manager.stream i).outboundBuffer = [] := by
  by_contra hb
  rcases h.owned hb with hm | ⟨stage, hm⟩
  · have hs := (hinv.answers.streams hm).buffered hb
    exact Nat.not_le.mpr hi (hinv.answers.used hs).1
  · exact Nat.not_le.mpr hi (hinv.valid.handlers hm).known

end Budgeted

/-- Every change keeps the budget. -/
theorem Change.budgeted (hinv : Inv T p) (h : Change T n p q) (hp : Budgeted p) : Budgeted q := by
  cases h with
  | books hb =>
    refine hp.same (by rw [hb.manager]) (by rw [hb.manager]) (by rw [hb.manager]) fun hj => ?_
    rwa [Pooled, hb.pool]
  | @respond _ t i hr hwho =>
    refine hp.stream ⟨hr.others, fun _ => by rw [hr.ids]⟩ rfl (fun _ => id) hr.held (fun hj => ?_)
      fun hj ha => hp.async (hr.ids ▸ hj) (hr.asyncRunning i ▸ ha)
    rw [hr.ids]
    exact hwho.elim (fun hwho => hwho.2) fun hq => hp.owned (hq.buffer hj)
  | @leave _ t i resetOpen expiredReq hl hwhy hm =>
    refine hp.stream (apart_erase hl.ids hl.others) rfl (fun _ => id) hl.held (fun hj => ?_)
      fun hj _ => ?_
    · refine .inr (hp.async hl.mem ?_)
      by_contra hsync
      exact hj (hl.emptied (Bool.eq_false_iff.mpr hsync))
    · exact absurd (hl.ids ▸ hj) hinv.valid.nodup.not_mem_erase
  | @opened _ t i hi hodd hf hopen hfree =>
    have ho := opens_of_tryOpenStream hopen hfree
    have hself : t.stream i = _ := (congrFun ho.stream i).trans (update_self i _ _)
    refine hp.stream (apart_enter ho.ids ho.stream) hself (fun _ => id) ?_ (absurd rfl)
      fun _ ha => by cases ha
    rw [hp.fresh hinv hi]
    exact congrArg (· - 0) ho.held
  | @placeholder _ i hfree hi hodd ids =>
    refine hp.stream (apart_enter rfl rfl) (insert_stream_self ..) (fun _ => id) ?_ (absurd rfl)
      fun _ ha => by cases ha
    rw [hp.fresh hinv hi]
    rfl
  | @endRequest _ i hi hopen hends =>
    exact hp.stream apart_endRequest (endRequest_stream_self p i) (fun _ => id) rfl hp.owned
      hp.async
  | credit hc => exact hp.same hc.stream hc.ids hc.held id
  | @submit _ i inline hi hst he hpool hcl hdata hac hlast =>
    exact hp.stream (apart_update rfl rfl) (update_self i _ p.manager.stream)
      (fun _ hj => hj.imp fun _ => List.mem_append_left _) rfl (fun _ => .inl hi)
      fun _ _ => ⟨.submitted, List.mem_append_right _ (List.mem_singleton_self _)⟩
  | stage hk hnext hs => exact hp.same rfl rfl rfl (.set hk)
  | @handOff _ k i stage hk hi hs =>
    exact hp.stream (apart_update rfl rfl) (update_self i _ p.manager.stream) (.eraseIdx hk) rfl
      (fun _ => .inl hi)
      fun _ ha => by cases ha
  | @retire _ k i stage hk hst hs =>
    exact hp.stream apart_retire (update_self i _ _) (.eraseIdx hk) (Int.sub_zero _) (absurd rfl)
      fun hj _ => absurd hj hinv.valid.nodup.not_mem_erase
  | setState | request | window | dropData => exact hp.update rfl rfl rfl rfl rfl rfl
  | _ => exact { hp with }

theorem Resizes.budgeted (h : Resizes p q) (hp : Budgeted p) : Budgeted q := by
  have hi := h.manager.ids
  have hpo : ∀ {j}, q.Pooled j ↔ p.Pooled j := by
    intro j
    unfold Pooled
    rw [h.pool]
  have ho : ∀ {j}, (q.manager.stream j).outboundBuffer ≠ [] → j ∈ p.manager.ids ∨ p.Pooled j :=
    fun hj => hp.owned ((h.manager.quiet _).buffer hj)
  refine ⟨fun hj => ?_, fun {j} hj ha => ?_, fun {s} hs => ?_⟩
  · rw [hi, hpo]
    exact ho hj
  · rw [hpo]
    exact hp.async (hi ▸ hj) (Stream.asyncRunning_of_core (h.manager.stream j) ▸ ha)
  · have hsum := hp.sum (s := s ∪ p.owned) fun j hj => mem_union_right
      _ (mem_owned.mpr (hp.owned hj))
    have hsame := h.manager.held (s := s ∪ p.owned) fun j hj =>
      mem_union_right _ (mem_owned.mpr (.inl hj))
    have hsu : q.manager.buffered (s ∪ p.owned) = q.manager.buffered s := by
      refine buffered_subset subset_union_left fun j _ hn => ?_
      by_contra hb
      exact hn (hs j hb)
    omega

theorem kept_budgeted : Kept T Budgeted where
  resizes := Resizes.budgeted
  change hi h hp := h.budgeted hi hp
  counts h := { h with }

theorem budgeted_newProcessor {cfg : Config} : Budgeted (newProcessor cfg) where
  owned h := absurd rfl h
  async := nofun
  sum _ := (sum_eq_zero fun _ _ => rfl).symm

/-- Whatever the frames, the sweeps and the handlers: a stream that buffers something belongs
to the connection, `outboundHeld` is what the streams of the connection buffer together,
it is not negative, and it is 0 when none of them buffers anything. -/
theorem outboundHeld_exact {cfg : Config} {p : Processor}
    (h : Transition.Runs step (fun _ _ => True) (newProcessor cfg) p) :
    p.manager.outboundHeld = ∑ i ∈ p.owned, ((p.manager.stream i).outboundBuffer.length : Int) ∧
      (∀ i, (p.manager.stream i).outboundBuffer ≠ [] → i ∈ p.owned) ∧ 0 ≤ p.manager.outboundHeld ∧
      ((∀ i ∈ p.owned, (p.manager.stream i).outboundBuffer = []) → p.manager.outboundHeld = 0) := by
  obtain ⟨-, hb⟩ := kept_budgeted.runs (T := .all) (fun _ => eventOk_all _ _) (inv_newProcessor cfg)
    budgeted_newProcessor h
  have ho : ∀ i, (p.manager.stream i).outboundBuffer ≠ [] → i ∈ p.owned :=
    fun i hi => mem_owned.mpr (hb.owned hi)
  have hs : p.manager.outboundHeld = ∑ i ∈ p.owned,
      ((p.manager.stream i).outboundBuffer.length : Int) :=
    hb.sum ho
  refine ⟨hs, ho, ?_, fun he => ?_⟩
  · rw [hs]
    exact sum_nonneg fun i _ => Int.natCast_nonneg _
  · rw [hs]
    refine sum_eq_zero fun i hi => ?_
    rw [he i hi]
    rfl

/-- Two responses of eight and of six bytes on windows of five. The rest of the first is
buffered, and so is that of the second, whose handler is on the pool; the client resets
the second stream, and its byte is held until the handler is done. -/
theorem twoBuffers_exact : let get : List Field :=
      [(ascii ":method", ascii "GET"), (ascii ":scheme", ascii "http"), (ascii ":path", ascii "/")]
    let headers (id : Nat) : Frame := .headers ⟨id, true, true, none, [], 0⟩
    let events : List Event :=
      [.frame {} (.settings false [.initialWindowSize 5]),
        .frame { decoded := .fields get, run := { calls := [.writeResponse 200
          (ascii "abcdefgh")] } } (headers 1),
        .frame { decoded := .fields get, routeAsync := true } (headers 3), .pool 0 .start,
        .pool 0 (.call (.writeResponse 200 (ascii "uvwxyz"))), .pool 0 .advance,
          .frame {} (.rstStream 3)]
    ∃ p, exec step (fun _ _ => True) (newProcessor {}) events = some p ∧
      p.manager.outboundHeld = 4 ∧ p.manager.ids = [1] ∧ p.owned = {1, 3} ∧
      ∑ i ∈ ({1, 3} : Finset Nat), ((p.manager.stream i).outboundBuffer.length : Int) = 4 := by
  intro get headers events
  obtain ⟨p, he, hh, hi, hpool⟩ : ∃ p ∈ exec step (fun _ _ => True) (newProcessor {}) events,
    p.manager.outboundHeld = 4 ∧ p.manager.ids = [1] ∧
      p.pool.map Prod.fst = [3] := by decide +kernel
  have ho : p.owned = {1, 3} := by
    rw [owned, hi, hpool]
    decide
  refine ⟨p, he, hh, hi, ho, ?_⟩
  rw [← ho, ← (outboundHeld_exact (runs_of_exec he)).1, hh]

end Processor

end Celeris.H2
