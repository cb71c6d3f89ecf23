import Celeris.Driver.PoolLaws

/-!
# The cap on open connections

The semaphore bounds the callers that hold a connection or dial one; idle connections and
those under a health check hold no slot. So the number of open connections keeps to
`MaxOpen` only as long as a caller that goes on to dial leaves no more of those behind than
there are free slots. The lists are looked through one after another, so it may.
-/

namespace Celeris.Driver

open Transition Counting List Stage Shared

def Stage.dialling : Stage → Int
  | .dial _ => 1
  | _ => 0

def Stage.committed : Stage → Int
  | .countDial _ | .dial _ => 1
  | _ => 0

theorem Stage.dialling_le (stage : Stage) : stage.dialling ≤ stage.committed := by
  cases stage <;> simp [dialling, committed]

namespace Pool

variable {cfg : PoolConfig} {p q : Pool}

/-- The connections that are open: on a list, in the hands of a caller, of the health check
or of `Close`, or being dialled. -/
def openConns (p : Pool) : Int :=
  total (fun idle => (idle.length : Int)) p.perWorker +
    total (fun x => (x.stage.conns.length : Int) + x.stage.dialling) p.sessions +
    p.health.conns.length + p.closer.conns.length

/-- The connections without a caller: on a list, or taken from one by the health check or
by `Close`. -/
def idleConns (p : Pool) : Int :=
  total (fun idle => (idle.length : Int)) p.perWorker + p.health.conns.length +
    p.closer.conns.length

/-- A caller finds the last of the lists empty, and goes on to dial. -/
def decides (cfg : PoolConfig) (p : Pool) (k : Nat) : Bool :=
  match p.sessions[k]? with
  | some ⟨.popIdle hint i, _, _⟩ =>
    cfg.numWorkers ≤ i + 1 ∧ p.perWorker[(hint + i) % cfg.numWorkers]? = some []
  | _ => false

/-- A caller that goes on to dial leaves no more idle connections behind than `MaxOpen` has
slots that are free. -/
def DialsWithin (cfg : PoolConfig) (p : Pool) (a : Action) : Prop :=
  ∀ k ∈ a.session?, p.decides cfg k = true → p.idleConns + p.sem ≤ cfg.maxOpen

instance (p : Pool) (a : Action) : Decidable (p.DialsWithin cfg a) :=
  inferInstanceAs (Decidable (∀ k ∈ a.session?, p.decides cfg k = true →
    p.idleConns + p.sem ≤ cfg.maxOpen))

end Pool

/-! ## What each goroutine adds -/

/-- The connections that are open, or about to be dialled. -/
def capLaw : Law where
  shared s := total (fun idle => (idle.length : Int)) s.perWorker
  session x := x.stage.conns.length + x.stage.committed
  health h := h.conns.length
  closer c := c.conns.length

variable {cfg : PoolConfig} {s s' : Shared} {health : HealthLoop}

theorem capLaw_advanced {x x' : Session} (h : Advanced cfg s x s' x') :
    capLaw.shared s' + capLaw.session x' ≤ capLaw.shared s + capLaw.session x ∨
      s' = s ∧ ∃ hint i, x.stage = .popIdle hint i ∧ cfg.numWorkers ≤ i + 1 ∧
        s.perWorker[(hint + i) % cfg.numWorkers]? = some [] := by
  cases h with
  | allEmpty hi hidle => exact .inr ⟨rfl, _, _, rfl, hi, hidle⟩
  | popped hidle | expired hidle | pushed hidle =>
    have hs := total_set (f := fun idle => (idle.length : Int)) hidle
    simp only [capLaw, conns, committed, setIdle, hs, length_append, length_singleton, length_nil]
    omega
  | evict | close | dialError =>
    simp only [capLaw, conns, committed, closeConn, length_nil, length_singleton]
    omega
  | _ => exact .inl (Int.le_refl _)

theorem capLaw_swept {health' : HealthLoop} (h : Swept cfg s health s' health') :
    capLaw.shared s' + capLaw.health health' ≤ capLaw.shared s + capLaw.health health := by
  cases h with
  | taken hi | reinserted hi =>
    have hs := total_set (f := fun idle => (idle.length : Int)) hi
    simp only [capLaw, HealthLoop.conns, setIdle, hs, length_append, length_cons, length_nil]
    omega
  | good | fail | drop =>
    simp only [capLaw, HealthLoop.conns, closeConn, length_append, length_cons, length_nil]
    omega
  | _ => exact Int.le_refl _

theorem capLaw_shut {closer closer' : Closer} (h : Shut cfg health s closer s' closer') :
    capLaw.shared s' + capLaw.closer closer' ≤ capLaw.shared s + capLaw.closer closer := by
  cases h with
  | taken hi =>
    have hs := total_set (f := fun idle => (idle.length : Int)) hi
    simp only [capLaw, Closer.conns, setIdle, hs, length_nil]
    omega
  | drain =>
    simp only [capLaw, Closer.conns, closeConn, length_cons]
    omega
  | _ => exact Int.le_refl _

namespace Pool

variable {p q : Pool}

/-- A step adds no connection, unless a caller decides to dial. -/
theorem Stepped.capLaw_le {a : Action} (h : Stepped cfg p a q) :
    capLaw.sum q ≤ capLaw.sum p ∨ ∃ k, a.session? = some k ∧ p.decides cfg k = true ∧
      q.idleConns = p.idleConns ∧ q.sem = p.sem := by
  unfold Law.sum
  cases h with
  | acquire =>
    refine .inl ?_
    simp [capLaw, conns, committed]
  | @session _ k x x' s' hs hk hst =>
    rcases capLaw_advanced hst with hle | ⟨rfl, hint, i, hstage, hi, hidle⟩
    · have hset := total_set (f := capLaw.session) hk x'
      simp only [put]
      omega
    · refine .inr ⟨k, hs, ?_, rfl, rfl⟩
      rw [decides, hk, ← Session.withStage hstage]
      exact decide_eq_true ⟨hi, hidle⟩
  | health hst =>
    have hle := capLaw_swept hst
    dsimp only
    omega
  | closer hst =>
    have hle := capLaw_shut hst
    dsimp only
    omega

/-- A connection is idle, or its caller holds a slot. -/
theorem Accounted.capLaw_le (h : p.Accounted cfg) (hl : cfg.maxOpen ≠ 0)
    (hsem : (p.sem : Int) = total (fun x => (x.took : Int) - x.gave) p.sessions) :
    capLaw.sum p ≤ p.idleConns + p.sem := by
  have hs : total capLaw.session p.sessions ≤ total (fun x => (x.took : Int) - x.gave)
      p.sessions := by
    refine total_le_total fun x hx => ?_
    have ht := (h.sessions x hx).took_eq
    have hle : (x.stage.conns.length : Int) + x.stage.committed ≤ x.stage.slot := by
      cases x.stage <;> simp [conns, committed, slot]
    rw [if_neg hl] at ht
    simp only [capLaw]
    omega
  unfold Law.sum idleConns
  simp only [capLaw] at hs ⊢
  omega

theorem idleConns_newPool : (newPool cfg).idleConns = 0 := by
  have hh : (newPool cfg).health.conns = [] := by
    simp only [newPool]
    split_ifs <;> rfl
  have hw : total (fun idle => (idle.length : Int)) (newPool cfg).perWorker = 0 :=
    total_eq_zero fun idle hi => by rw [(mem_replicate.mp hi).2]; rfl
  rw [idleConns, hw, hh]
  rfl

theorem capLaw_le_of_dialsWithin (hl : cfg.maxOpen ≠ 0)
    (h : Runs (step cfg) (DialsWithin cfg) (newPool cfg) p) : capLaw.sum p ≤ cfg.maxOpen := by
  induction h with
  | refl =>
    have hle : capLaw.sum (newPool cfg) ≤ _ := accounted_newPool.capLaw_le hl rfl
    rw [idleConns_newPool] at hle
    exact hle.trans (Int.natCast_nonneg _)
  | @tail p q a hrun hok hst ih =>
    rcases (stepped hst).capLaw_le with hle | ⟨k, hs, hd, hi, hsem⟩
    · exact Int.le_trans hle ih
    · have hr := hrun.tail hok hst
      have hle := (Accounted.runs hr).capLaw_le hl (sem_eq hr)
      rw [hi, hsem] at hle
      exact hle.trans (hok k hs hd)

/-- The open connections keep to `MaxOpen` in every run in which a caller that goes on to
dial leaves no more idle connections behind than there are free slots. -/
theorem openConns_le (hlimit : cfg.maxOpen ≠ 0)
    (h : Runs (step cfg) (DialsWithin cfg) (newPool cfg) p) : p.openConns ≤ cfg.maxOpen := by
  have hc := capLaw_le_of_dialsWithin hlimit h
  have hs : total (fun x => (x.stage.conns.length : Int) + x.stage.dialling) p.sessions ≤
      total capLaw.session p.sessions := by
    refine total_le_total fun x _ => ?_
    have hle := x.stage.dialling_le
    simp only [capLaw]
    omega
  unfold Law.sum at hc
  unfold openConns
  simp only [capLaw] at hc hs
  omega

/-- One connection, one worker, and a health check. -/
def checkedConfig : PoolConfig where
  maxOpen := 1
  maxIdlePerWorker := 0
  healthCheck := true
  numWorkers := 1
  numWorkers_pos := Nat.one_pos

/-- Two connections, two workers, and no health check. -/
def uncheckedConfig : PoolConfig where
  maxOpen := 2
  maxIdlePerWorker := 0
  healthCheck := false
  numWorkers := 2
  numWorkers_pos := Nat.two_pos

/-- A caller that finds every list empty and gets a connection of some worker. -/
def acquireRun (cfg : PoolConfig) (k : Nat) (worker : Int) : List Action :=
  .acquire worker :: List.replicate (4 + cfg.numWorkers) (.advance k false) ++
    [.dialDone k (some worker)]

/-- A caller that returns its connection to a list. -/
def releaseRun (k : Nat) : List Action := .giveUp k false :: List.replicate 3 (.advance k false)

theorem openConns_le_acquired :
    ∃ p, Runs (step checkedConfig) (DialsWithin checkedConfig) (newPool checkedConfig) p ∧
    p.dialled = [⟨0, 0⟩] ∧ p.openConns ≤ 1 := by
  obtain ⟨p, hr, hd⟩ : ∃ p, Runs (step checkedConfig) (DialsWithin checkedConfig)
    (newPool checkedConfig) p ∧
    p.dialled = [⟨0, 0⟩] :=
      exists_runs (acquireRun checkedConfig 0 0 ++ releaseRun 0) (by decide +kernel)
  exact ⟨p, hr, hd, openConns_le (Nat.succ_ne_zero 0) hr⟩

/-- A caller dials while the health check has the only connection out of its list; or it
finds a list empty, another caller returns a connection to that list, and a third takes
the last connection from the list that the first looks at next. -/
theorem openConns_exceeds :
    (∃ p, Runs (step checkedConfig) (fun _ _ => True) (newPool checkedConfig) p ∧ p.openConns = 2) ∧
      ∃ p, Runs (step uncheckedConfig) (fun _ _ => True) (newPool uncheckedConfig) p ∧
        p.openConns = 3 := by
  constructor
  · exact exists_runs (acquireRun checkedConfig 0 0 ++ releaseRun 0 ++
      [.sweep false true, .sweep false false] ++
      (acquireRun checkedConfig 1 0).dropLast) (by decide +kernel)
  · exact exists_runs (acquireRun uncheckedConfig 0 0 ++ acquireRun uncheckedConfig 1 1 ++
      releaseRun 1 ++ (.acquire 0 :: replicate 4 (.advance 2 false)) ++ releaseRun 0 ++
      (.acquire 1 :: replicate 4 (.advance 3 false)) ++ [.advance 2 false, .advance 2 false])
        (by decide +kernel)

end Pool

end Celeris.Driver
