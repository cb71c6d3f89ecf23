import Celeris.Driver.PoolLaws
import Mathlib.Data.List.Nodup

/-!
# What the pool leaves behind

A connection is closed at most once, is not closed while a caller has it, and a slot that
was taken is given back once. That `Close` leaves nothing behind takes a condition: a
`Release` loads `closed` before it locks its list, so it may put its connection on a list
that `Close` has drained in between, and nobody closes it.
-/

namespace Celeris.Driver

open Transition Counting List Law Nat Closer

variable {cfg : PoolConfig}

/-- The lists before this one have been drained. -/
def Closer.reached (cfg : PoolConfig) : Closer → Nat
  | .notCalled | .stop | .wait => 0
  | .lock w => w
  | .drain w _ | .drained w _ => w + 1
  | .returned => cfg.numWorkers

/-- `Close` has seen the health check end. -/
def Closer.waited : Closer → Bool
  | .notCalled | .stop | .wait => false
  | _ => true

namespace Pool

variable {p q : Pool}

/-- Where a caller is about to put its connection on a list, if it is. -/
def pushes (p : Pool) (k : Nat) : Option Nat :=
  match p.sessions[k]? with
  | some ⟨.pushIdle _ w, _, _⟩ => some w
  | _ => none

/-- A connection is put on a list that has not been drained. -/
def Prompt (cfg : PoolConfig) (p : Pool) (a : Action) : Prop :=
  ∀ k ∈ a.session?, ∀ w ∈ p.pushes k, p.closer.reached cfg ≤ w

instance (p : Pool) (a : Action) : Decidable (p.Prompt cfg a) :=
  inferInstanceAs (Decidable (∀ k ∈ a.session?, ∀ w ∈ p.pushes k, p.closer.reached cfg ≤ w))

/-- Nothing is left behind: connections are closed at most once, and not while a caller has
them; a slot that was taken is given back once, and giving it back never blocks; and when
`Close` has returned and the callers have finished, every connection is closed. -/
structure LeaksNothing (p : Pool) : Prop where
  closed_once : ∀ c, p.closes.count c ≤ 1
  inUse_open : ∀ x ∈ p.sessions, ∀ c, x.stage = .inUse c → c ∈ p.dialled ∧ c ∉ p.closes
  slots : ∀ x ∈ p.sessions, x.took ≤ 1 ∧ x.gave ≤ x.took ∧ (x.stage = .finished → x.gave = x.took)
  sem_eq : (p.sem : Int) = total (fun x => (x.took : Int) - x.gave) p.sessions
  returned : p.closer = .returned → (∀ x ∈ p.sessions, x.stage = .finished) →
    (∀ c ∈ p.dialled, c ∈ p.closes) ∧ p.openCount = 0

end Pool

/-! ## Connections have one owner -/

variable {s s' : Shared} {health health' : HealthLoop}

section

variable (h : Swept cfg s health s' health')

include h

theorem Swept.dialled_eq : s'.dialled = s.dialled := by
  cases h <;> rfl

theorem Swept.ne_stopped : health ≠ .stopped := by
  rintro rfl
  cases h

theorem Swept.length_eq : s'.perWorker.length = s.perWorker.length := by
  cases h with
  | taken | reinserted => exact length_set
  | _ => rfl

end

theorem Closer.reached_of_not_waited {c : Closer} (h : c.waited ≠ true) : c.reached cfg = 0 := by
  cases c <;> first | rfl | exact (h rfl).elim

theorem Shut.dialled_eq {closer closer' : Closer}
    (h : Shut cfg health s closer s' closer') : s'.dialled = s.dialled := by
  cases h <;> rfl

namespace Pool

variable {p q : Pool} {ok : Pool → Action → Prop}

/-- The connections are numbered as they are dialled. -/
def Numbered (s : Shared) : Prop := s.dialled.map Conn.id = List.range s.dialled.length

variable {a : Action} {x : Session} {w : Nat} {idle : List Conn}

theorem Numbered.stepped (h : Numbered p.toShared) (hst : Stepped cfg p a q) :
    Numbered q.toShared := by
  cases hst with
  | acquire => exact h
  | session _ _ hst =>
    cases hst with
    | dialled =>
      unfold Numbered at h
      simp [Numbered, put, h, range_succ]
    | _ => exact h
  | health hst | closer hst =>
    rw [Numbered, hst.dialled_eq]
    exact h

theorem count_dialled_le (h : Runs (step cfg) ok (newPool cfg) p) (c : Conn) :
    p.dialled.count c ≤ 1 := by
  have hnew : Numbered (newPool cfg).toShared := rfl
  have hnu : Numbered p.toShared :=
    Runs.invariant (P := fun p => Numbered p.toShared) (fun hn _ hst => hn.stepped (stepped hst))
      hnew h
  have hno : (p.dialled.map Conn.id).Nodup := hnu ▸ nodup_range
  exact nodup_iff_count_le_one.mp (List.Nodup.of_map _ hno) c

theorem connLaw_newPool {f : Conn → Int} : (connLaw f).sum (newPool cfg) = 0 := by
  have hl : total (total f) (replicate cfg.numWorkers []) = 0 :=
    total_eq_zero fun idle hi => by rw [(mem_replicate.mp hi).2]; rfl
  have hh : (newPool cfg).health.conns = [] := by
    simp only [newPool]
    split_ifs <;> rfl
  simp only [Law.sum, connLaw, hh]
  simp only [newPool, hl]
  rfl

theorem countLaw_newPool : countLaw.sum (newPool cfg) = 0 := by
  have hh : (newPool cfg).health.owes = 0 := by
    simp only [newPool]
    split_ifs <;> rfl
  simp only [Law.sum, countLaw, hh]
  rfl

/-- A connection that was dialled is in one place, or closed. -/
theorem count_dialled_eq (h : Runs (step cfg) ok (newPool cfg) p) (c : Conn) :
    (p.dialled.count c : Int) = p.closes.count c +
      (total (fun idle => (idle.count c : Int)) p.perWorker +
      total (fun x => (x.stage.conns.count c : Int)) p.sessions + p.health.conns.count c +
      p.closer.conns.count c) := by
  have hs := ((connLaw_kept fun d => if d = c then 1 else 0).runs h).trans connLaw_newPool
  have hc : total (fun d : Conn => if d = c then 1 else 0) = fun l => (l.count c : Int) :=
    funext (total_ite_eq c)
  simp only [Law.sum, connLaw, hc] at hs
  omega

/-- A sum of counts is not negative. -/
theorem total_count_nonneg {α : Type} (f : α → List Conn) (c : Conn) (l : List α) :
    0 ≤ total (fun a => ((f a).count c : Int)) l :=
  total_nonneg fun _ _ => Int.natCast_nonneg _

theorem count_closes_le (h : Runs (step cfg) ok (newPool cfg) p) (c : Conn) :
    p.closes.count c ≤ 1 := by
  have hc := count_dialled_eq h c
  have hle := count_dialled_le h c
  have hi := total_count_nonneg id c p.perWorker
  have hs := total_count_nonneg (fun x : Session => x.stage.conns) c p.sessions
  simp only [id] at hi
  omega

/-- A connection that a caller has is not closed. -/
theorem inUse_open (h : Runs (step cfg) ok (newPool cfg) p) (hx : x ∈ p.sessions) {c : Conn}
    (hc : x.stage = .inUse c) : c ∈ p.dialled ∧ c ∉ p.closes := by
  have hco := count_dialled_eq h c
  have hle := count_dialled_le h c
  have hi := total_count_nonneg id c p.perWorker
  have hs : ((x.stage.conns.count c : Nat) : Int) ≤ _ :=
    le_total (f := fun x : Session => (x.stage.conns.count c : Int))
      (fun _ _ => Int.natCast_nonneg _) hx
  have ho : x.stage.conns.count c = 1 := by
    rw [hc]
    exact count_singleton_self ..
  simp only [id] at hi
  exact ⟨count_pos_iff.mp (by omega), count_eq_zero.mp (by omega)⟩

/-! ## `Close` drains the lists -/

/-- What `Close` has passed stays empty. -/
structure Draining (cfg : PoolConfig) (p : Pool) : Prop where
  length_eq : p.perWorker.length = cfg.numWorkers
  unchecked : cfg.healthCheck = false → p.health = .stopped
  stopped : p.closer.waited = true → p.health = .stopped
  drained : ∀ w < p.closer.reached cfg, ∀ idle, p.perWorker[w]? = some idle → idle = []

theorem draining_newPool : Draining cfg (newPool cfg) where
  length_eq := length_replicate
  unchecked h := by simp [newPool, h]
  stopped := nofun
  drained := nofun

section

variable (h : p.Draining cfg)

include h

/-- A list that `Close` has not passed changes. -/
theorem Draining.setIdle (hw : p.closer.reached cfg ≤ w) :
    (p.perWorker.set w idle).length = cfg.numWorkers ∧
      ∀ v < p.closer.reached cfg, ∀ l, (p.perWorker.set w idle)[v]? = some l → l = [] := by
  refine ⟨by rw [length_set]; exact h.length_eq, fun v hv l hl => ?_⟩
  rw [getElem?_set_ne (by omega)] at hl
  exact h.drained v hv l hl

theorem Draining.advanced {k : Nat} {x' : Session}
    (hp : ∀ c w, x.stage = .pushIdle c w → p.closer.reached cfg ≤ w)
    (hst : Advanced cfg p.toShared x s' x') : Draining cfg (p.put k (s', x')) := by
  cases hst with
  | popped hi | expired hi =>
    obtain ⟨hl, hd⟩ :=
      h.setIdle (Nat.le_of_not_lt fun hlt => absurd (h.drained _ hlt _ hi) (by simp))
    exact { h with length_eq := hl, drained := hd }
  | pushed hi =>
    obtain ⟨hl, hd⟩ := h.setIdle (hp _ _ rfl)
    exact { h with length_eq := hl, drained := hd }
  | _ => exact { h with }

/-- The health check has ended before `Close` comes to the lists. -/
theorem Draining.swept (hst : Swept cfg p.toShared p.health s' health') :
    Draining cfg { p with toShared := s', health := health' } := by
  have hr : p.health ≠ .stopped := hst.ne_stopped
  have hwa : p.closer.waited ≠ true := fun hw => hr (h.stopped hw)
  exact {
    length_eq := hst.length_eq.trans h.length_eq
    unchecked := fun hc => (hr (h.unchecked hc)).elim
    stopped := fun hw => (hwa hw).elim
    drained := fun w hw => (not_lt_zero w (reached_of_not_waited hwa ▸ hw)).elim }

theorem Draining.shut {closer closer' : Closer} (hc : p.closer = closer)
    (hst : Shut cfg p.health p.toShared closer s' closer') :
    Draining cfg { p with toShared := s', closer := closer' } := by
  have hs := h.stopped
  have hd := h.drained
  rw [hc] at hs hd
  cases hst with
  | called | stop => exact { h with stopped := nofun, drained := nofun }
  | unchecked hch => exact { h with stopped := fun _ => h.unchecked hch, drained := nofun }
  | waited he => exact { h with stopped := fun _ => he, drained := nofun }
  | returned hw =>
    exact { h with
      stopped := fun _ => hs rfl
      drained := fun v hv => hd v (lt_of_lt_of_le hv hw) }
  | taken hi =>
    refine { h with length_eq := ?_, stopped := fun _ => hs rfl, drained := fun v hv l hl => ?_ }
    · exact length_set.trans h.length_eq
    · rcases lt_or_eq_of_le (le_of_lt_succ hv) with hlt | rfl
      · exact hd v hlt l ((getElem?_set_ne (ne_of_gt hlt)).symm.trans hl)
      · exact (Option.some.inj ((getElem?_set_of_some hi []).symm.trans hl)).symm
  | drain | drained | unlocked => exact { h with stopped := fun _ => hs rfl, drained := hd }

theorem Draining.stepped (hok : p.Prompt cfg a) (hst : Stepped cfg p a q) : q.Draining cfg := by
  cases hst with
  | acquire => exact { h with }
  | @session _ k x _ _ hs hk hst =>
    refine h.advanced (fun c w hstage => hok k hs w ?_) hst
    rw [pushes, hk, ← Session.withStage hstage]
    rfl
  | health hst => exact h.swept hst
  | closer hst => exact h.shut rfl hst

/-- When `Close` has returned and the callers have finished, no connection is anywhere. -/
theorem Draining.nothing_held (hc : p.closer = .returned)
    (hf : ∀ x ∈ p.sessions, x.stage = .finished) :
    (∀ idle ∈ p.perWorker, idle = []) ∧ (∀ x ∈ p.sessions, x.stage.conns = []) ∧
      p.health = .stopped := by
  refine ⟨fun idle hi => ?_, fun x hx => by rw [hf x hx]; rfl, h.stopped (by rw [hc]; rfl)⟩
  obtain ⟨w, hw, rfl⟩ := getElem_of_mem hi
  refine h.drained w ?_ _ (getElem?_eq_getElem hw)
  rw [hc]
  exact lt_of_lt_of_eq hw h.length_eq

end

/-- When no connection is anywhere, what was dialled was closed. -/
theorem total_closes_eq (h : Runs (step cfg) ok (newPool cfg) p)
    (hl : ∀ idle ∈ p.perWorker, idle = [])
    (hs : ∀ x ∈ p.sessions, x.stage.conns = []) (hh : p.health = .stopped)
    (hc : p.closer = .returned) (f : Conn → Int) : total f p.closes = total f p.dialled := by
  have hsum := ((connLaw_kept f).runs h).trans connLaw_newPool
  have hi : total (total f) p.perWorker = 0 :=
    total_eq_zero fun idle hi => by rw [hl idle hi]; rfl
  have hheld : total (fun x : Session => total f x.stage.conns) p.sessions = 0 :=
    total_eq_zero fun x hx => by rw [hs x hx]; rfl
  simp only [Law.sum, connLaw, hi, hheld, hh, hc, HealthLoop.conns, Closer.conns, total_nil] at hsum
  omega

/-! ## The result -/

/-- In every run in which a connection is put only on a list that `Close` has not drained
yet, the pool leaves nothing behind. -/
theorem leaksNothing_of_prompt (h : Runs (step cfg) (Prompt cfg) (newPool cfg) p) :
    p.LeaksNothing where
  closed_once := count_closes_le h
  inUse_open _ hx _ hc := inUse_open h hx hc
  slots x hx := by
    have hso := (Accounted.runs h).sessions x hx
    have ht := hso.took_eq
    refine ⟨hso.took_le, by omega, fun hf => ?_⟩
    rw [hf] at ht
    simpa [Stage.slot] using ht.symm
  sem_eq := sem_eq h
  returned hcl hf := by
    have hdr : p.Draining cfg :=
      Runs.invariant (P := Draining cfg) (fun hd hok hst => hd.stepped hok (Pool.stepped hst))
        draining_newPool h
    obtain ⟨hli, hs, hh⟩ := hdr.nothing_held hcl hf
    have hcloses := total_closes_eq h hli hs hh hcl
    constructor
    · intro c hc
      have hco := hcloses fun d => if d = c then 1 else 0
      rw [total_ite_eq, total_ite_eq, Int.natCast_inj] at hco
      exact count_pos_iff.mp (hco ▸ count_pos_iff.mpr hc)
    · have hl := hcloses fun _ => 1
      have hsum : countLaw.sum p = 0 := (countLaw_kept.runs h).trans countLaw_newPool
      have ho : total countLaw.session p.sessions = 0 :=
        total_eq_zero fun x hx => by simp only [countLaw, hf x hx]; rfl
      rw [total_one, total_one] at hl
      simp only [Law.sum, ho] at hsum
      simp only [countLaw, hh, hcl, HealthLoop.owes, owes] at hsum
      omega

/-- Whatever the interleaving, a connection that was dialled is in one place, and no other is
anywhere; and `openCount` is the number of those that are open, but for what goroutines are about to
count. -/
theorem conns_owned (h : Runs (step cfg) (fun _ _ => True) (newPool cfg) p) :
    (∀ c, (p.closes.count c : Int) + (total (fun idle => (idle.count c : Int)) p.perWorker +
      total (fun x => (x.stage.conns.count c : Int)) p.sessions + p.health.conns.count c +
      p.closer.conns.count c) = if c ∈ p.dialled then 1 else 0) ∧
    p.openCount = p.dialled.length - p.closes.length + total (fun x => x.stage.owes) p.sessions +
      p.health.owes + p.closer.owes := by
  constructor
  · intro c
    have hle := count_dialled_le h c
    rw [← count_dialled_eq h c]
    split_ifs with hc
    · have hpos := count_pos_iff.mpr hc
      omega
    · rw [count_eq_zero.mpr hc]
      rfl
  · have hs := (countLaw_kept.runs h).trans countLaw_newPool
    simp only [Law.sum, countLaw, total_neg] at hs
    omega

/-- One connection and one worker, without a health check. -/
def onlyWorker : PoolConfig where
  maxOpen := 1
  maxIdlePerWorker := 0
  healthCheck := false
  numWorkers := 1
  numWorkers_pos := Nat.one_pos

/-- A caller dials a connection and comes to the test of `Release`. -/
def heldRun : List Action :=
  .acquire 0 :: List.replicate 5 (.advance 0 false) ++ [.dialDone 0 (some 0), .giveUp 0 false]

/-- `Close`, from its call to its return. -/
def closeRun : List Action := .close :: List.replicate 4 .shut

theorem conns_owned_held : ∃ p, Runs (step onlyWorker) (fun _ _ => True) (newPool onlyWorker) p ∧
    p.dialled = [⟨0, 0⟩] ∧ p.openCount = p.dialled.length - p.closes.length +
      total (fun x => x.stage.owes) p.sessions + p.health.owes + p.closer.owes := by
  obtain ⟨p, hr, hd⟩ : ∃ p, Runs (step onlyWorker) (fun _ _ => True) (newPool onlyWorker) p ∧
      p.dialled = [⟨0, 0⟩] :=
    exists_runs heldRun (by decide +kernel)
  exact ⟨p, hr, hd, (conns_owned hr).2⟩

theorem leaksNothing_held : ∃ p, Runs (step onlyWorker) (Prompt onlyWorker) (newPool onlyWorker) p ∧
    p.dialled = [⟨0, 0⟩] ∧ (∀ c ∈ p.dialled, c ∈ p.closes) ∧ p.openCount = 0 := by
  obtain ⟨p, hr, hd, hc, hf⟩ : ∃ p, Runs (step onlyWorker) (Prompt onlyWorker)
    (newPool onlyWorker) p ∧
    p.dialled = [⟨0, 0⟩] ∧ p.closer = .returned ∧ ∀ x ∈ p.sessions, x.stage = .finished :=
      exists_runs (heldRun ++ closeRun ++ replicate 4 (.advance 0 false)) (by decide +kernel)
  exact ⟨p, hr, hd, (leaksNothing_of_prompt hr).returned hc hf⟩

/-- A caller that has loaded `closed` puts its connection back after `Close` has returned. -/
theorem lateRelease_leaks :
    ∃ p, Runs (step onlyWorker) (fun _ _ => True) (newPool onlyWorker) p ∧ ¬ p.LeaksNothing := by
  obtain ⟨p, hr, hco, hc, hf⟩ : ∃ p, Runs (step onlyWorker) (fun _ _ => True)
    (newPool onlyWorker) p ∧
    p.openCount = 1 ∧ p.closer = .returned ∧ ∀ x ∈ p.sessions, x.stage = .finished :=
      exists_runs (heldRun ++ [.advance 0 false] ++ closeRun ++
        [.advance 0 false, .advance 0 false]) (by decide +kernel)
  refine ⟨p, hr, fun hl => ?_⟩
  have hz := (hl.returned hc hf).2
  omega

end Pool

end Celeris.Driver
