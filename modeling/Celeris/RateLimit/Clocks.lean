import Celeris.Data.Counting
import Celeris.Data.Transition
import Celeris.RateLimit.MemcachedStore

/-!
# Limits and clocks

What the three implementations of the token bucket grant to one key in any order of calls, each
with the time it has read. The in-process limiter and the script do a call in one step; a call of
the memcached store takes a step for each command, and other calls come in between.

No more is granted than a full bucket and what comes in between the first and the last of the
times, as long as a bucket is never written with a time before the one it was filled at
(`limit_kept`). All three write the time of the call even if it is the earlier one, so time that
has passed once can be credited again.
-/

namespace Celeris.RateLimit

open Memcached Transition Option List Counting Bool

variable {K : Type} [Field K] [LinearOrder K] [IsStrictOrderedRing K] [FloorRing K]

/-- No more calls were granted than the limit allows between the smallest and the largest of their
times, and the bucket is within its bounds. -/
structure Limit.Kept (l : Limit K) (nows : List Int) (granted : Nat) (bucket : Option (Bucket K)) :
    Prop where
  granted_le : ∀ low ∈ nows, ∀ high ∈ nows, (∀ now ∈ nows, low ≤ now ∧ now ≤ high) →
    (granted : K) ≤ l.burst + l.rps * ((high : K) - low) / 10 ^ 9
  holds : ∀ b ∈ bucket, 0 ≤ b.tokens ∧ b.tokens ≤ l.burst

/-- The calls are accounted for in the bucket. -/
def Accounted (l : Limit K) (nows : List Int) (granted : Nat) : Option (Bucket K) → Prop
  | none => granted = 0
  | some b => ∃ first ∈ nows, b.last ∈ nows ∧ Balanced l first granted b

namespace Accounted

variable {l : Limit K} {nows : List Int} {granted : Nat} {bucket : Option (Bucket K)}

omit [IsStrictOrderedRing K] [FloorRing K] in
theorem holds (h : Accounted l nows granted bucket) : ∀ b ∈ bucket, l.Holds b := by
  rintro b rfl
  obtain ⟨_, -, -, hb⟩ := h
  exact hb.holds

/-- A call at a time that is not before that of the bucket. -/
theorem call {now : Int} {allowed : Bool} {b : Bucket K} (h : Accounted l nows granted bucket)
    (hn : now ∈ nows)
    (hok : ∀ x ∈ bucket, x.last ≤ now) (ha : Abides l now (bucket.getD ⟨l.burst, now⟩) allowed b) :
    Accounted l nows (granted + if allowed then 1 else 0) (some b) := by
  cases bucket with
  | none =>
    rw [show granted = 0 from h, Nat.zero_add]
    exact ⟨now, hn, ha.last ▸ hn, ha.balanced⟩
  | some x =>
    obtain ⟨first, hf, -, hb⟩ := h
    exact ⟨first, hf, ha.last ▸ hn, hb.call (hok x rfl) ha⟩

omit [IsStrictOrderedRing K] [FloorRing K] in
theorem cons (h : Accounted l nows granted bucket) {now : Int} :
    Accounted l (now :: nows) granted bucket := by
  cases bucket with
  | none => exact h
  | some b =>
    obtain ⟨first, hf, hl, hb⟩ := h
    exact ⟨first, mem_cons_of_mem now hf, mem_cons_of_mem now hl, hb⟩

theorem kept (h : Accounted l nows granted bucket) : l.Kept nows granted bucket := by
  refine ⟨fun low _ high hh hn => ?_, h.holds⟩
  cases bucket with
  | none =>
    rw [show granted = 0 from h, Nat.cast_zero]
    exact add_nonneg (Nat.cast_nonneg _) (l.income_nonneg (hn high hh).1)
  | some b =>
    obtain ⟨first, hf, hl, hb⟩ := h
    have hi : l.income first b.last ≤ l.income low high :=
      l.income_le (hn first hf).1 (hn b.last hl).2
    exact hb.granted_le.trans (add_le_add_right hi _)

end Accounted

/-! ## Calls in one step -/

/-- A bucket, the times of the calls that were made, and how many were granted. -/
structure Atomic (K : Type) where
  bucket : Option (Bucket K) := none
  nows : List Int := []
  granted : Nat := 0

namespace Atomic

/-- A call at a time, by an implementation. -/
def step (serve : Option (Bucket K) → Int → Decision × Bucket K) (s : Atomic K) (now : Int) :
    Option (Atomic K) :=
  let (decision, b) := serve s.bucket now
  some ⟨some b, now :: s.nows, s.granted + if decision.allowed then 1 else 0⟩

/-- The call has not read a time before the one of the bucket. -/
def InOrder (s : Atomic K) (now : Int) : Prop := ∀ b ∈ s.bucket, b.last ≤ now

theorem accounted_step {l : Limit K} {serve : Option (Bucket K) → Int → Decision × Bucket K}
    {s t : Atomic K}
    {now : Int} (hse : ∀ (b : Option (Bucket K)) (now : Int), (∀ x ∈ b, l.Holds x ∧ x.last ≤ now) →
      Abides l now (b.getD ⟨l.burst, now⟩) (serve b now).1.allowed (serve b now).2)
    (hs : Accounted l s.nows s.granted s.bucket) (hok : InOrder s now)
    (h : step serve s now = some t) : Accounted l t.nows t.granted t.bucket := by
  cases h
  exact hs.cons.call mem_cons_self hok (hse s.bucket now fun x hx => ⟨hs.holds x hx, hok x hx⟩)

end Atomic

/-! ## Calls of the memcached store -/

/-- The key in the store, the tokens that its items had, the calls, their times, and how many were
granted. -/
structure Shared (K : Type) where
  item : Option Item := none
  used : List UInt64 := []
  calls : List (Call K) := []
  nows : List Int := []
  granted : Nat := 0

/-- The steps of calls. -/
inductive StoreAction where
  /-- A call reads the time. -/
  | start (now : Int)
  /-- A call does its `Gets`. -/
  | gets (i : Nat)
  /-- A call does its `add` or `cas`; an item that is stored gets a token that none had before. -/
  | write (i : Nat) (token : UInt64)
deriving DecidableEq, Repr

def Call.granted (c : Call K) : Bool :=
  match c.phase with
  | .returned (.ok decision) => decision.allowed
  | _ => false

namespace Shared

def bucket (s : Shared K) : Option (Bucket K) := s.item.bind fun it => decodeBucket it.value

/-- An `add` or a `cas` is done. -/
def stores (cas : UInt64) : Option Item → Bool
  | none => cas = 0
  | some it => cas ≠ 0 && it.cas = cas

variable [Int64Conversion K]

/-- A call with a bucket to write gets the reply to its `add` or `cas`. -/
def written (l : Limit K) (binary : Bool) (item : Option Item) (c : Call K) (cas : UInt64)
    (state : Bucket K) (allowed : Bool) : Call K :=
  if cas = 0 then c.added l state allowed (addReply binary item)
  else c.swapped l state allowed (casReply cas item)

def step (l : Limit K) (binary : Bool) (s : Shared K) : StoreAction → Option (Shared K)
  | .start now =>
    if -2 ^ 63 ≤ now ∧ now < 2 ^ 63 then
      some { s with calls := s.calls ++ [{ now := now }], nows := now :: s.nows }
    else none
  | .gets i =>
    s.calls[i]?.bind fun c =>
      match c.phase with
      | .gets => some { s with calls := s.calls.set i (c.got l (getsReply [] s.item)) }
      | _ => none
  | .write i token =>
    s.calls[i]?.bind fun c =>
      match c.phase with
      | .write cas state allowed =>
        let c' := written l binary s.item c cas state allowed
        let next := { s with
          calls := s.calls.set i c', granted := s.granted + if c'.granted then 1 else 0 }
        if token = 0 ∨ token ∈ s.used then none
        else if stores cas s.item then
          some { next with item := some ⟨encodeBucket state, 0, token⟩, used := token :: s.used }
        else some next
      | _ => none

/-- The bucket that a call has to write would be stored. -/
def storing (item : Option Item) (c : Call K) : Bool :=
  match c.phase with
  | .write cas _ _ => stores cas item
  | _ => false

/-- A call whose bucket is stored has not read a time before the one of the bucket it replaces. -/
def InOrder (s : Shared K) : StoreAction → Prop
  | .write i _ => ∀ c ∈ s.calls[i]?, storing s.item c = true → ∀ b ∈ s.bucket, b.last ≤ c.now
  | _ => True

variable {l : Limit K} {binary : Bool} {s t : Shared K} {i : Nat} {c : Call K} {cas token : UInt64}
  {state : Bucket K} {allowed : Bool}

theorem written_of_stores {item : Option Item} (h : stores cas item = true) :
    written l binary item c cas state allowed =
      { c with phase := .returned (.ok (allowDecision l c.now state allowed)) } := by
  cases item with
  | none =>
    rw [written, if_pos (of_decide_eq_true h)]
    rfl
  | some it =>
    rw [stores, and_eq_true, decide_eq_true_iff, decide_eq_true_iff] at h
    rw [written, if_neg h.1, casReply, if_pos h.2]
    rfl

/-- A call whose bucket is not written starts over or returns an error. -/
theorem written_of_not_stores (l : Limit K) (binary : Bool) {item : Option Item} (c : Call K)
    (state : Bucket K) (allowed : Bool) (h : stores cas item = false) :
    ∃ attempt phase, written l binary item c cas state allowed = ⟨c.now, attempt, phase⟩ ∧
      (phase = .gets ∨ ∃ e, phase = .returned (.error e)) := by
  cases item with
  | none =>
    rw [written, if_neg (of_decide_eq_false h)]
    exact ⟨_, _, rfl, .inr ⟨_, rfl⟩⟩
  | some it =>
    by_cases hc : cas = 0
    · rw [written, if_pos hc]
      cases binary with
      | true => exact ⟨_, _, rfl, .inr ⟨_, rfl⟩⟩
      | false =>
        simp only [addReply, Call.added, false_eq_true, if_false]
        unfold Call.retry
        split_ifs
        · exact ⟨_, _, rfl, .inl rfl⟩
        · exact ⟨_, _, rfl, .inr ⟨_, rfl⟩⟩
    · have hne : it.cas ≠ cas := by
        intro heq
        rw [stores, decide_eq_true hc, decide_eq_true heq] at h
        cases h
      rw [written, if_neg hc, casReply, if_neg hne]
      exact ⟨_, _, rfl, .inr ⟨_, rfl⟩⟩

/-! ### Accounts of the store -/

/-- A call has read a time, and if it has a bucket to write, it has worked it out from the item that
it would replace. -/
structure Works (l : Limit K) (nows : List Int) (used : List UInt64) (item : Option Item)
    (c : Call K) : Prop where
  range : -2 ^ 63 ≤ c.now ∧ c.now < 2 ^ 63
  now_mem : c.now ∈ nows
  pending : ∀ cas state allowed, c.phase = .write cas state allowed →
    (cas = 0 ∧ memcachedRefill l ⟨l.burst, c.now⟩ c.now = (allowed, state)) ∨
      (cas ≠ 0 ∧ cas ∈ used ∧ ∀ it ∈ item, it.cas = cas →
        ∀ b ∈ (decodeBucket it.value : Option (Bucket K)),
          memcachedRefill l b c.now = (allowed, state))

/-- The calls are accounted for in the store. -/
structure Inv (l : Limit K) (s : Shared K) : Prop where
  calls : ∀ c ∈ s.calls, Works l s.nows s.used s.item c
  item : ∀ it ∈ s.item, it.cas ≠ 0 ∧ it.cas ∈ s.used ∧ ∃ b : Bucket K,
    decodeBucket it.value = some b
  account : Accounted l s.nows s.granted s.bucket

omit [IsStrictOrderedRing K] [FloorRing K] [Int64Conversion K] in
theorem Inv.start {now : Int} (hs : Inv l s) (hn : -2 ^ 63 ≤ now ∧ now < 2 ^ 63) :
    Inv l { s with calls := s.calls ++ [{ now := now }], nows := now :: s.nows } := by
  refine ⟨forall_mem_append.mpr ⟨fun c hc => ?_, ?_⟩, hs.item, hs.account.cons⟩
  · have hw := hs.calls c hc
    exact ⟨hw.range, mem_cons_of_mem now hw.now_mem, hw.pending⟩
  · exact forall_mem_singleton.mpr ⟨hn, mem_cons_self, nofun⟩

omit [IsStrictOrderedRing K] [FloorRing K] [Int64Conversion K] in
/-- A call reads the item that it will replace. -/
theorem Inv.got (hs : Inv l s) (hc : s.calls[i]? = some c) :
    Inv l { s with calls := s.calls.set i (c.got l (getsReply [] s.item)) } := by
  have hw := hs.calls c (mem_of_getElem? hc)
  refine ⟨forall_mem_set hs.calls ?_, hs.item, hs.account⟩
  rcases hi : s.item with _ | it
  · refine ⟨hw.range, hw.now_mem, fun cas state allowed hp => .inl ?_⟩
    cases hp
    exact ⟨rfl, rfl⟩
  · obtain ⟨hcas, hu, b, hd⟩ := hs.item it hi
    refine ⟨hw.range, hw.now_mem, fun cas state allowed hp => .inr ?_⟩
    simp only [getsReply, Call.got, hd, getD_some] at hp
    cases hp
    refine ⟨hcas, hu, ?_⟩
    rintro _ ⟨⟩ - b' hb'
    cases hd.symm.trans hb'
    rfl

/-- The bucket that a call writes is what the call may make of the one in the store. -/
theorem Inv.abides (hburst : l.burst * 10 ^ 6 < 2 ^ 63) (hs : Inv l s)
    (hw : Works l s.nows s.used s.item c)
    (hp : c.phase = .write cas state allowed) (hst : stores cas s.item = true)
    (ho : ∀ b ∈ s.bucket, b.last ≤ c.now) : ∃ b, decodeBucket (encodeBucket state) = some b ∧
      Abides l c.now (s.bucket.getD ⟨l.burst, c.now⟩) allowed b := by
  have hstored {b : Bucket K} (hb : l.Holds b) (hl : b.last ≤ c.now)
      (hr : memcachedRefill l b c.now = (allowed, state)) :
      ∃ b', decodeBucket (encodeBucket state) = some b' ∧ Abides l c.now b allowed b' := by
    rw [memcachedRefill_eq hb] at hr
    cases hr
    exact (fill_abides hb hl (elapsed_le hl)).stored hburst hw.range.1 hw.range.2
  cases hi : s.item with
  | none =>
    rw [hi] at hst
    obtain ⟨-, hr⟩ | ⟨hne, -⟩ := hw.pending _ _ _ hp
    · rw [bucket, hi]
      exact hstored holds_full le_rfl hr
    · exact absurd (of_decide_eq_true hst) hne
  | some it =>
    rw [hi, stores, and_eq_true, decide_eq_true_iff, decide_eq_true_iff] at hst
    obtain ⟨-, -, b, hd⟩ := hs.item it hi
    have hbu : s.bucket = some b := by rw [bucket, hi, bind_some, hd]
    obtain ⟨heq, -⟩ | ⟨-, -, hr⟩ := hw.pending _ _ _ hp
    · exact absurd heq hst.1
    · rw [hbu]
      exact hstored (hs.account.holds b hbu) (ho b hbu) (hr it hi hst.2 b hd)

theorem Inv.step (hb : l.burst * 10 ^ 6 < 2 ^ 63) {a : StoreAction} (hs : Inv l s)
    (hok : InOrder s a) (h : step l binary s a = some t) : Inv l t := by
  cases a with
  | start now =>
    rw [Shared.step, ite_none_right_eq_some] at h
    cases h.2
    exact hs.start h.1
  | gets i =>
    obtain ⟨c, hc, h⟩ := bind_eq_some_iff.mp h
    split at h <;> cases h
    exact hs.got hc
  | write i token =>
    obtain ⟨c, hc, h⟩ := bind_eq_some_iff.mp h
    split at h
    next cas state allowed hp =>
      have hw := hs.calls c (mem_of_getElem? hc)
      obtain ⟨ht, h⟩ := ite_none_left_eq_some.mp h
      obtain ⟨hz, hu⟩ := not_or.mp ht
      by_cases hst : stores cas s.item = true
      · rw [if_pos hst, written_of_stores hst] at h
        cases h
        have ho := hok c hc (by rw [storing, hp]; exact hst)
        obtain ⟨b, hde, ha⟩ := hs.abides hb hw hp hst ho
        refine ⟨forall_mem_set (fun d hd => ?_) ⟨hw.range, hw.now_mem, nofun⟩, ?_, ?_⟩
        · refine ⟨(hs.calls d hd).range, (hs.calls d hd).now_mem,
            fun cas' state' allowed' hp' => ?_⟩
          refine ((hs.calls d hd).pending cas' state' allowed' hp').imp_right fun ⟨hne, hused, _⟩ =>
            ?_
          refine ⟨hne, mem_cons_of_mem _ hused, ?_⟩
          rintro _ ⟨⟩ rfl
          exact absurd hused hu
        · rintro _ ⟨⟩
          exact ⟨hz, mem_cons_self, b, hde⟩
        · have hcall := hs.account.call hw.now_mem ho ha
          rwa [← hde] at hcall
      · obtain ⟨attempt, phase, hwr, hp'⟩ :=
          written_of_not_stores l binary c state allowed (eq_false_iff.mpr hst)
        rw [if_neg hst, hwr] at h
        cases h
        obtain rfl | ⟨e, rfl⟩ := hp'
        · exact ⟨forall_mem_set hs.calls ⟨hw.range, hw.now_mem, nofun⟩, hs.item, hs.account⟩
        · exact ⟨forall_mem_set hs.calls ⟨hw.range, hw.now_mem, nofun⟩, hs.item, hs.account⟩
    next => cases h

end Shared

/-! ## The limit -/

variable [Int64Conversion K]

/-- In any order of calls in which no bucket is written with a time before its own, each of the
three implementations keeps to the limit. -/
theorem limit_kept (l : Limit K) :
    (∀ s, Runs (Atomic.step (shardedAllow l)) Atomic.InOrder {} s →
      l.Kept s.nows s.granted s.bucket) ∧
    (l.burst * 10 ^ 6 < 2 ^ 63 → ∀ (binary : Bool) (s : Shared K),
      Runs (Shared.step l binary) Shared.InOrder {} s → l.Kept s.nows s.granted s.bucket) ∧
    (∀ s, Runs (Atomic.step (luaTokenBucket l)) Atomic.InOrder {} s →
      l.Kept s.nows s.granted s.bucket) := by
  have ha : Accounted l [] 0 (none : Option (Bucket K)) := rfl
  have hsh : Shared.Inv l ({} : Shared K) := ⟨nofun, nofun, ha⟩
  refine ⟨?_, ?_, ?_⟩
  · intro s hs
    exact (Runs.invariant (Atomic.accounted_step fun _ _ => shardedAllow_abides) ha hs).kept
  · intro hb binary s hs
    exact (Runs.invariant (Shared.Inv.step hb) hsh hs).account.kept
  · intro s hs
    exact (Runs.invariant (Atomic.accounted_step fun _ _ => luaTokenBucket_abides) ha hs).kept

instance (s : Atomic K) (now : Int) : Decidable (Atomic.InOrder s now) :=
  match h : s.bucket with
  | none => .isTrue (by rw [Atomic.InOrder, h]; exact nofun)
  | some b => decidable_of_iff (b.last ≤ now) (by rw [Atomic.InOrder, h]; simp)

instance (s : Shared K) (a : StoreAction) : Decidable (Shared.InOrder s a) :=
  match a with
  | .write i _ =>
    match hc : s.calls[i]?, hb : s.bucket with
    | some c, some b =>
      decidable_of_iff (Shared.storing s.item c = true → b.last ≤ c.now)
        (by rw [Shared.InOrder, hc, hb]; simp)
    | none, _ => .isTrue (by rw [Shared.InOrder, hc]; exact nofun)
    | _, none => .isTrue (by rw [Shared.InOrder, hb]; exact fun _ _ _ => nofun)
  | .start _ => .isTrue trivial
  | .gets _ => .isTrue trivial

def onePerSecond : Limit ℚ := ⟨1, 1, by decide, by decide⟩

def wholeCall (i : Nat) (now : Int) (token : UInt64) : List StoreAction :=
  [.start now, .gets i, .write i token]

theorem limit_kept_second :
    (∃ s : Atomic ℚ, s.granted = 2 ∧ onePerSecond.Kept s.nows s.granted s.bucket) ∧
    (∃ s : Shared ℚ, s.granted = 2 ∧ onePerSecond.Kept s.nows s.granted s.bucket) := by
  refine ⟨?_, ?_⟩
  · obtain ⟨s, hr, hg⟩ : ∃ s, Runs (Atomic.step (shardedAllow onePerSecond)) Atomic.InOrder {} s ∧
        s.granted = 2 :=
      exists_runs [0, 10 ^ 9] (by decide +kernel)
    exact ⟨s, hg, (limit_kept onePerSecond).1 s hr⟩
  · obtain ⟨s, hr, hg⟩ : ∃ s, Runs (Shared.step onePerSecond true) Shared.InOrder {} s ∧
        s.granted = 2 :=
      exists_runs (wholeCall 0 0 1 ++ wholeCall 1 (10 ^ 9) 2) (by decide +kernel)
    exact ⟨s, hg, (limit_kept onePerSecond).2.1 (by decide) true s hr⟩

/-- Three calls in a second are too many. -/
theorem exceeds_of_exec {σ α : Type} {step : σ → α → Option σ} {init : σ} {nows : σ → List Int}
    {granted : σ → Nat} {bucket : σ → Option (Bucket ℚ)} (as : List α)
    (he : ∃ s ∈ exec step (fun _ _ => True) init as, nows s = [10 ^ 9, 0, 10 ^ 9, 0] ∧
      granted s = 3) :
    ∃ s, Runs step (fun _ _ => True) init s ∧
      ¬ onePerSecond.Kept (nows s) (granted s) (bucket s) := by
  obtain ⟨s, hr, hn, hg⟩ := exists_runs as he
  refine ⟨s, hr, ?_⟩
  rw [hn, hg]
  intro hk
  have hle := hk.granted_le 0 (by simp) (10 ^ 9) (by simp) (by simp)
  norm_num [onePerSecond] at hle

/-- A clock that steps back by a second lets the second be credited again, in each of the three. -/
theorem stepBack_not_kept :
    (∃ s, Runs (Atomic.step (shardedAllow onePerSecond)) (fun _ _ => True) {} s ∧
      ¬ onePerSecond.Kept s.nows s.granted s.bucket) ∧
    (∃ s, Runs (Shared.step onePerSecond false) (fun _ _ => True) {} s ∧
      ¬ onePerSecond.Kept s.nows s.granted s.bucket) ∧
    (∃ s, Runs (Atomic.step (luaTokenBucket onePerSecond)) (fun _ _ => True) {} s ∧
      ¬ onePerSecond.Kept s.nows s.granted s.bucket) := by
  refine ⟨?_, ?_, ?_⟩
  · exact exceeds_of_exec [0, 10 ^ 9, 0, 10 ^ 9] (by decide +kernel)
  · exact exceeds_of_exec (wholeCall 0 0 1 ++ wholeCall 1 (10 ^ 9) 2 ++ wholeCall 2 0 3 ++ wholeCall
      3 (10 ^ 9) 4) (by decide +kernel)
  · exact exceeds_of_exec [0, 10 ^ 9, 0, 10 ^ 9] (by decide +kernel)

end Celeris.RateLimit
