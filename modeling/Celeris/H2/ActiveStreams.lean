import Celeris.H2.Events

/-!
# The count of active streams

`activeStreams` is what the server holds against the maximum it advertises. It goes up
where a stream is opened and down in `updateActiveCount`, which every change of a
state calls, wherever the stream is then cleaned up. `opens` and `lowers` are the
streams it went up and down for: together with the streams that are active they show
that each stream has lowered it once, if it is no longer active, and never otherwise.
-/

namespace Celeris.H2

open List Manager Bool Nat Function Transition

namespace Manager

/-- The count is right, and so is its history. -/
structure Counted (cap : Nat) (m : Manager) : Prop where
  max : m.maxStreams = cap
  count : m.activeStreams = m.activeIDs.length
  room : m.activeStreams ≤ cap
  moved : m.opens.Perm (m.lowers ++ m.activeIDs)
  once : m.opens.Nodup
  known : ∀ i ∈ m.opens, i ≤ m.lastClientStream

variable {m t : Manager} {i cap : Nat}

theorem activeIDs_eq (hi : t.ids = m.ids) (hs : ∀ j, (t.stream j).state = (m.stream j).state) :
    t.activeIDs = m.activeIDs := by
  unfold activeIDs
  rw [hi]
  exact filter_congr fun j _ => by rw [hs]

/-- A stream is no longer active, or no longer held. -/
theorem activeIDs_erase (hn : m.ids.Nodup) (hids : t.ids = m.ids.erase i ∨
      t.ids = m.ids ∧ (t.stream i).state.active = false)
    (ho : ∀ {j}, j ≠ i → t.stream j = m.stream j) : t.activeIDs = m.activeIDs.erase i := by
  have ha : m.activeIDs.erase i = m.ids.filter fun j => (m.stream j).state.active && j != i := by
    unfold activeIDs
    rw [List.Nodup.erase_eq_filter (hn.filter _), filter_filter]
    exact filter_congr fun j _ => and_comm _ _
  rw [ha]
  unfold activeIDs
  rcases hids with hids | ⟨hids, hi⟩
  · rw [hids, hn.erase_eq_filter, filter_filter]
    refine filter_congr fun j _ => ?_
    by_cases hj : j = i
    · simp [hj]
    · rw [ho hj]
  · rw [hids]
    refine filter_congr fun j _ => ?_
    by_cases hj : j = i
    · simp [hj, hi]
    · simp [ho hj, hj]

theorem mem_activeIDs : i ∈ m.activeIDs ↔ i ∈ m.ids ∧ (m.stream i).state.active = true := mem_filter

namespace Counted

/-- The streams that are active stay. -/
theorem same (h : Counted cap m) (hi : t.activeIDs = m.activeIDs)
    (hc : t.activeStreams = m.activeStreams)
    (hm : t.maxStreams = m.maxStreams) (ho : t.opens = m.opens) (hl : t.lowers = m.lowers)
    (hlast : m.lastClientStream ≤ t.lastClientStream) : Counted cap t where
  max := hm.trans h.max
  count := by rw [hc, hi, h.count]
  room := by
    rw [hc]
    exact h.room
  moved := by
    rw [ho, hl, hi]
    exact h.moved
  once := ho ▸ h.once
  known j hj := (h.known j (ho ▸ hj)).trans hlast

/-- A stream is lowered if it was active. -/
theorem lower (h : Counted cap m) (hi : i ∈ m.ids) (hids : t.activeIDs = m.activeIDs.erase i)
    (hc : t.activeStreams = m.activeStreams - (if (m.stream i).state.active then 1 else 0))
    (hl : t.lowers = m.lowers ++ (if (m.stream i).state.active then [i] else []))
    (hmax : t.maxStreams = m.maxStreams) (ho : t.opens = m.opens)
    (hlast : t.lastClientStream = m.lastClientStream) : Counted cap t := by
  cases ha : (m.stream i).state.active with
  | false =>
    rw [ha, if_neg Bool.false_ne_true] at hc hl
    have hn : i ∉ m.activeIDs := by
      rw [mem_activeIDs, ha]
      exact fun hm => false_ne_true hm.2
    rw [erase_of_not_mem hn] at hids
    exact h.same hids hc hmax ho (hl.trans (append_nil _)) hlast.ge
  | true =>
    rw [ha, if_pos rfl] at hc hl
    have hm : i ∈ m.activeIDs := mem_activeIDs.mpr ⟨hi, ha⟩
    refine ⟨hmax.trans h.max, ?_, ?_, ?_, ho ▸ h.once, fun j hj => hlast ▸ h.known j (ho ▸ hj)⟩
    · rw [hc, hids, length_erase_of_mem hm, h.count]
    · rw [hc]
      exact (sub_le _ _).trans h.room
    · rw [ho, hl, hids, append_assoc]
      exact h.moved.trans ((perm_cons_erase hm).append_left _)

end Counted

end Manager

namespace Processor

open Manager

variable {T : Scope} {m t : Manager} {i : Nat}

/-- A stream is opened in the place of none, or of a placeholder. -/
theorem activeIDs_opened (hn : m.ids.Nodup) (h : Opens i m t)
    (hfree : i ∈ m.ids → (m.stream i).state = .idle) : t.activeIDs.Perm (i :: m.activeIDs) := by
  have ho : ∀ {j}, j ≠ i → t.stream j = m.stream j := by
    intro j hj
    rw [h.stream, update_of_ne hj]
  have hin : i ∉ m.activeIDs := by
    rw [mem_activeIDs]
    rintro ⟨hi, ha⟩
    rw [hfree hi] at ha
    cases ha
  have hids : t.ids.Perm (i :: m.ids.erase i) := by
    rw [h.ids]
    split_ifs with hi
    · exact perm_cons_erase hi
    · rw [erase_of_not_mem hi]
  have hs : (t.stream i).state.active = true := by
    rw [h.stream, update_self]
    rfl
  have hr : ((m.ids.erase i).filter fun j => (t.stream j).state.active) = m.activeIDs := by
    have he := activeIDs_erase (t := { t with ids := m.ids.erase i }) hn (.inl rfl) ho
    rwa [erase_of_not_mem hin] at he
  have hf := hids.filter fun j => (t.stream j).state.active
  rw [filter_cons, if_pos hs, hr] at hf
  exact hf

section

variable (h : Counted cap m)

include h

theorem counted_opened (hn : m.ids.Nodup) (hi : m.lastClientStream < i)
    (hodd : i % 2 = 1) (ho : Opens i { m with lastClientStream := i } t)
    (hf : i ∈ m.ids → (m.stream i).state = .idle) : Counted cap t := by
  have hids := activeIDs_opened (m := { m with lastClientStream := i }) hn ho hf
  change t.activeIDs.Perm (i :: m.activeIDs) at hids
  have hm : t.maxStreams = m.maxStreams := (congrArg maxStreams ho.frame :)
  have hl : t.lowers = m.lowers := (congrArg lowers ho.frame :)
  have hlast : t.lastClientStream = i := by rw [ho.lastClientStream, if_pos hodd]
  have hnew : i ∉ m.opens := fun hmem => absurd (h.known i hmem) (not_le.mpr hi)
  refine ⟨hm.trans h.max, ?_, ?_, ?_, ?_, fun j hj => ?_⟩
  · rw [ho.activeStreams, hids.length_eq, length_cons, ← h.count]
  · rw [ho.activeStreams, ← h.max]
    exact ho.room
  · rw [ho.opens, hl]
    refine (h.moved.append_right [i]).trans ?_
    rw [append_assoc]
    exact (perm_append_comm.trans hids.symm).append_left _
  · rw [ho.opens, ← concat_eq_append]
    exact h.once.concat hnew
  · rw [ho.opens] at hj
    rcases mem_append.mp hj with hj | hj
    · exact (h.known j hj).trans (hlast ▸ hi.le)
    · rw [mem_singleton.mp hj, hlast]

theorem counted_setState_closed (hn : m.ids.Nodup) (hi : i ∈ m.ids) :
    Counted cap (m.setState i .closed) := by
  have hids := activeIDs_erase (t := m.setState i .closed) hn
    (.inr ⟨rfl, by rw [setState_stream_self]; rfl⟩) fun hj => setState_stream_ne m _ hj
  refine h.lower hi hids moveCount_closed ?_ rfl rfl rfl
  rw [setState, updateActiveCount]
  cases (m.stream i).state.active with
  | false => exact (append_nil _).symm
  | true => rfl

theorem counted_setState_active {next : State} (hw : (m.stream i).state.active = true)
    (his : next.active = true) : Counted cap (m.setState i next) := by
  have hi : (m.setState i next).activeIDs = m.activeIDs := by
    refine filter_congr fun j _ => ?_
    by_cases hj : j = i
    · rw [hj, setState_stream_self]
      exact his.trans hw.symm
    · rw [setState_stream_ne m _ hj]
  refine h.same hi ?_ rfl rfl ?_ le_rfl
  · show moveCount m.activeStreams (m.stream i).state.active next.active = m.activeStreams
    rw [hw, his]
    rfl
  · show (if (m.stream i).state.active && !next.active then m.lowers ++ [i] else m.lowers) =
      m.lowers
    rw [hw, his]
    rfl

/-- An object changes but for its state. -/
theorem counted_setStream {s : Stream} (hs : s.state = (m.stream i).state) :
    Counted cap (m.setStream i s) := by
  refine h.same (activeIDs_eq rfl fun j => ?_) rfl rfl rfl rfl le_rfl
  unfold setStream
  dsimp only
  by_cases hj : j = i
  · rw [hj, update_self, hs]
  · rw [update_of_ne hj]

theorem counted_core (hs : ∀ j, (t.stream j).core = (m.stream j).core)
    (hc : { t.core with initialWindowSize := 0, pendingConnWindowUpdate := 0 } =
      { m.core with initialWindowSize := 0, pendingConnWindowUpdate := 0 }) : Counted cap t :=
  h.same (activeIDs_eq (congrArg ids hc :) fun j => Stream.state_of_core (hs j))
    (congrArg activeStreams hc :) (congrArg maxStreams hc :)
    (congrArg opens hc :) (congrArg lowers hc :)
    (congrArg lastClientStream hc :).ge

end

/-- Every change keeps the count. -/
theorem Change.counted {n : Nat} {p q : Processor} (hinv : Inv T p) (hch : Change T n p q)
    (h : Counted cap p.manager) : Counted cap q.manager := by
  have hn := hinv.valid.nodup
  cases hch with
  | books hb => rwa [hb.manager]
  | respond hr =>
    exact counted_core h hr.core_stream
      (congrArg (fun c : Manager => { c with initialWindowSize := 0, pendingConnWindowUpdate := 0 })
        hr.core)
  | write | goAway | flushOut | drain => exact counted_core h (fun _ => rfl) rfl
  | @setState _ i next hi hs hnext =>
    rcases hnext with rfl | rfl
    · exact counted_setState_closed h hn hi
    · cases hp : (p.manager.stream i).state with
      | idle => exact absurd hp hs
      | opened | halfClosedLocal => exact counted_setState_active h (by rw [hp]; rfl) rfl
      | halfClosedRemote | closed => exact counted_setState_closed h hn hi
  | leave hl =>
    have hf := hl.frame
    exact h.lower hl.mem (activeIDs_erase hn (.inl hl.ids) hl.others) hl.activeStreams
      hl.lowers (congrArg maxStreams hf :) (congrArg opens hf :)
      hl.lastClientStream
  | pass hi => exact h.same rfl rfl rfl rfl rfl hi.le
  | opened hi hodd hfr ho hfree =>
    exact counted_opened h hn hi hodd (opens_of_tryOpenStream ho hfree) hfree
  | @placeholder _ i hfree hi hodd ids =>
    refine h.same ?_ rfl rfl rfl rfl le_rfl
    unfold activeIDs
    rw [insert_ids hfree, filter_cons, insert_stream_self, if_neg (by exact false_ne_true)]
    refine filter_congr fun j hj => ?_
    rw [insert_stream_ne (ne_of_mem_of_not_mem hj hfree)]
  | @endRequest _ i hi ho he =>
    refine counted_setState_active (m := p.manager.modify i fun s => { s with endStream := true })
      (counted_setStream h rfl) ?_ rfl
    rw [modify_stream_self]
    exact active_of_requesting ho
  | credit hc =>
    exact counted_core h (fun j => by rw [hc.stream])
      (congrArg (fun c : Manager => { c with initialWindowSize := 0 }) hc.core)
  | request | window | dropData | submit | handOff => exact counted_setStream h (by rfl)
  | @retire _ k i stage hk hs hse =>
    refine h.same ?_ rfl rfl rfl rfl le_rfl
    have hnot : i ∉ p.manager.activeIDs := by
      rw [mem_activeIDs, hs]
      exact fun hmem => false_ne_true hmem.2
    rw [← erase_of_not_mem hnot]
    exact activeIDs_erase hn (.inl rfl) fun hj => update_of_ne hj _ _
  | serve | defer | cleaned | stage => exact h

/-- A stream that was opened has lowered the count once if it is no longer active. -/
theorem count_lowers (h : Counted cap m) (i : Nat) :
    m.lowers.count i = if i ∈ m.opens ∧ i ∉ m.activeIDs then 1 else 0 := by
  have hc := h.moved.count_eq i
  have hm : i ∈ m.opens ↔ i ∈ m.lowers ∨ i ∈ m.activeIDs := by rw [h.moved.mem_iff, mem_append]
  rw [count_append, h.once.count] at hc
  by_cases ha : i ∈ m.activeIDs
  · have hp := count_pos_iff.mpr ha
    rw [if_pos (hm.mpr (.inr ha))] at hc
    rw [if_neg fun hg => hg.2 ha]
    omega
  · rw [count_eq_zero_of_not_mem ha] at hc
    rw [← add_zero (m.lowers.count i), ← hc]
    simp [ha]

/-- Whatever the frames and the handlers, `activeStreams` is the number of streams of the
map that are open or half closed, and not above the maximum that is advertised. A
stream that was opened has lowered it once if it is no longer one of those, and not
otherwise. -/
theorem activeStreams_exact {cfg : Config} {p : Processor}
    (h : Transition.Runs step (fun _ _ => True) (newProcessor cfg) p) :
    p.manager.activeStreams = p.manager.activeIDs.length ∧
      p.manager.activeStreams ≤ cfg.maxStreams ∧
    p.manager.activeStreams + p.manager.lowers.length = p.manager.opens.length ∧
    (∀ i, p.manager.lowers.count i = if i ∈ p.manager.opens ∧
      i ∉ p.manager.activeIDs then 1 else 0) ∧
    (p.manager.ids = [] → p.manager.activeStreams = 0) := by
  have hk : Kept .all fun p => Counted cfg.maxStreams p.manager :=
    ⟨fun hr hp => counted_core hp hr.manager.stream
        (congrArg (fun c : Manager => { c with
          initialWindowSize := 0, pendingConnWindowUpdate := 0 })
          hr.manager.core :), fun hi hch hp => hch.counted hi hp, id⟩
  obtain ⟨-, hc⟩ := hk.runs (fun _ => eventOk_all _ _) (inv_newProcessor cfg)
    ⟨rfl, rfl, zero_le _, .refl _, nodup_nil, nofun⟩ h
  refine ⟨hc.count, hc.room, ?_, count_lowers hc, fun hg => ?_⟩
  · rw [hc.moved.length_eq, length_append, hc.count, add_comm]
  · rw [hc.count, activeIDs, hg]
    rfl

/-- Three streams are opened. The handler of the first has ended and its cleanup is put
off, the client resets the second, and the third is with the pool. -/
theorem threeStreams_counted : let get : List Field :=
      [(ascii ":method", ascii "GET"), (ascii ":scheme", ascii "http"), (ascii ":path", ascii "/")]
    let headers (id : Nat) (endStream : Bool) : Frame := .headers ⟨id, endStream, true, none, [], 0⟩
    let events : List Event :=
      [.frame { decoded := .fields get, hasMoreFrames := true, run :=
          { calls := [.writeResponse 200 []] } } (headers 1 true),
        .frame { decoded := .fields get } (headers 3 false), .frame {} (.rstStream 3),
        .frame { decoded := .fields get, routeAsync := true } (headers 5 true)]
    ∃ p, exec step (fun _ _ => True) (newProcessor {}) events = some p ∧
      (p.manager.opens, p.manager.lowers, p.manager.ids, p.manager.activeStreams) =
        ([1, 3, 5], [1, 3], [5, 1], 1) ∧
      p.manager.activeStreams = p.manager.activeIDs.length := by
  intro get headers events
  obtain ⟨p, he, hp⟩ : ∃ p ∈ exec step (fun _ _ => True) (newProcessor {}) events,
    (p.manager.opens, p.manager.lowers, p.manager.ids, p.manager.activeStreams) =
      ([1, 3, 5], [1, 3], [5, 1], 1) := by
      decide +kernel
  exact ⟨p, he, hp, (activeStreams_exact (runs_of_exec he)).1⟩

end Processor

end Celeris.H2
