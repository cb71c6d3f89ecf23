import Celeris.Driver.Pool

/-!
# What the pool conserves

A connection that was dialled is on a list, in the hands of a caller, of the health check
or of `Close`, or it has been closed; `openCount` counts the open ones, up to those that a
goroutine is about to count; the semaphore holds what the callers have taken and not given
back. Each of these is a `Law`: a quantity to which the shared state and every goroutine
contribute, and which no goroutine changes by its own steps.
-/

namespace Celeris.Driver

open Transition Counting Shared Stage HealthLoop Closer List Nat

/-! ## Laws -/

/-- A quantity, by what contributes to it. -/
structure Law where
  shared : Shared → Int
  session : Session → Int
  health : HealthLoop → Int
  closer : Closer → Int

namespace Law

variable {cfg : PoolConfig}

/-- The quantity in a state. -/
def sum (l : Law) (p : Pool) : Int :=
  l.shared p.toShared + total l.session p.sessions + l.health p.health + l.closer p.closer

/-- What a goroutine changes in the shared state, it makes up for itself. -/
structure Kept (cfg : PoolConfig) (l : Law) : Prop where
  fresh (hint : Int) : l.session ⟨.loadClosed hint, 0, 0⟩ = 0
  advanced {s s' : Shared} {x x' : Session} : Advanced cfg s x s' x' →
    l.shared s' + l.session x' = l.shared s + l.session x
  swept {s s' : Shared} {health health' : HealthLoop} : Swept cfg s health s' health' →
    l.shared s' + l.health health' = l.shared s + l.health health
  shut {s s' : Shared} {health : HealthLoop}
    {closer closer' : Closer} : Shut cfg health s closer s' closer' →
    l.shared s' + l.closer closer' = l.shared s + l.closer closer

variable {l : Law} {p q : Pool}

theorem Kept.stepped (hl : l.Kept cfg) {a : Pool.Action} (h : p.Stepped cfg a q) :
    l.sum q = l.sum p := by
  unfold sum
  cases h with
  | @acquire hint =>
    have hf := hl.fresh hint
    simp only [total_append, total_cons, total_nil]
    omega
  | @session _ k x x' s' _ hk hst =>
    have hkept := hl.advanced hst
    have hs := total_set (f := l.session) hk x'
    simp only [Pool.put]
    omega
  | health hst =>
    have hkept := hl.swept hst
    dsimp only
    omega
  | closer hst =>
    have hkept := hl.shut hst
    dsimp only
    omega

theorem Kept.runs (hl : l.Kept cfg) {ok : Pool → Pool.Action → Prop}
    (h : Runs (Pool.step cfg) ok p q) : l.sum q = l.sum p :=
  Runs.invariant (P := fun q => l.sum q = l.sum p)
    (fun hs _ hst => (hl.stepped (Pool.stepped hst)).trans hs) rfl h

end Law

/-! ## Connections -/

def Stage.conns : Stage → List Conn
  | .evict _ _ c | .inUse c | .release c | .pushIdle c _ | .close c => [c]
  | _ => []

/-- The connections in the hands of the health check. -/
def HealthLoop.conns : HealthLoop → List Conn
  | .check _ rest survivors | .failed _ rest survivors => rest ++ survivors
  | .fail _ c rest survivors => c :: (rest ++ survivors)
  | .lock _ survivors | .reinsert _ survivors | .dropped _ survivors => survivors
  | .drop _ c survivors => c :: survivors
  | _ => []

/-- The connections in the hands of `Close`. -/
def Closer.conns : Closer → List Conn
  | .drain _ idle | .drained _ idle => idle
  | _ => []

variable {cfg : PoolConfig}

/-- Every connection that was dialled is somewhere, or closed. -/
def connLaw (f : Conn → Int) : Law where
  shared s := total (total f) s.perWorker + total f s.closes - total f s.dialled
  session x := total f x.stage.conns
  health h := total f h.conns
  closer c := total f c.conns

theorem connLaw_kept (f : Conn → Int) : (connLaw f).Kept cfg where
  fresh _ := rfl
  advanced h := by
    cases h with
    | popped hi | expired hi | pushed hi =>
      have hs := total_set (f := total f) hi
      simp only [connLaw, Stage.conns, setIdle, hs, total_append, total_cons, total_nil]
      omega
    | evict | close | dialled =>
      simp only [connLaw, Stage.conns, closeConn, total_append, total_cons, total_nil]
      omega
    | _ => rfl
  swept h := by
    cases h with
    | taken hi | reinserted hi =>
      have hs := total_set (f := total f) hi
      simp only [connLaw, HealthLoop.conns, setIdle, hs, total_append, total_cons, total_nil]
      omega
    | good | fail | drop =>
      simp only [connLaw, HealthLoop.conns, closeConn, total_append, total_cons, total_nil]
      omega
    | _ => rfl
  shut h := by
    cases h with
    | taken hi =>
      have hs := total_set (f := total f) hi
      simp only [connLaw, Closer.conns, setIdle, hs, total_nil]
      omega
    | drain =>
      simp only [connLaw, Closer.conns, closeConn, total_append, total_cons, total_nil]
      omega
    | _ => rfl

/-! ## `openCount` -/

/-- A caller is about to change `openCount` for what it has done, or dials. -/
def Stage.owes : Stage → Int
  | .evicted .. | .dial _ | .dialFailed | .closed => 1
  | _ => 0

/-- The health check is about to change `openCount`. -/
def HealthLoop.owes : HealthLoop → Int
  | .failed .. | .dropped .. => 1
  | _ => 0

/-- `Close` is about to change `openCount`. -/
def Closer.owes : Closer → Int
  | .drained .. => 1
  | _ => 0

/-- `openCount` is the number of connections dialled and not closed, up to what is owed. -/
def countLaw : Law where
  shared s := s.openCount + s.closes.length - s.dialled.length
  session x := -x.stage.owes
  health h := -h.owes
  closer c := -c.owes

theorem countLaw_kept : countLaw.Kept cfg where
  fresh _ := rfl
  advanced h := by
    cases h with
    | evict | dialled | close =>
      simp only [countLaw, Stage.owes, closeConn, List.length_append, List.length_singleton]
      omega
    | evicted | countDial | dialFailed | closed =>
      simp only [countLaw, Stage.owes, uncount]
      omega
    | _ => rfl
  swept h := by
    cases h with
    | fail | drop =>
      simp only [countLaw, HealthLoop.owes, closeConn, List.length_append, List.length_singleton]
      omega
    | failed | dropped =>
      simp only [countLaw, HealthLoop.owes, uncount]
      omega
    | _ => rfl
  shut h := by
    cases h with
    | drain =>
      simp only [countLaw, Closer.owes, closeConn, List.length_append, List.length_singleton]
      omega
    | drained =>
      simp only [countLaw, Closer.owes, uncount]
      omega
    | _ => rfl

/-! ## The semaphore -/

/-- The semaphore holds what was taken and not given back. -/
def semLaw : Law where
  shared s := s.sem
  session x := x.gave - x.took
  health _ := 0
  closer _ := 0

theorem semLaw_kept : semLaw.Kept cfg where
  fresh _ := rfl
  advanced h := by
    cases h with
    | reserved | gaveBack =>
      simp only [semLaw]
      omega
    | _ => rfl
  swept h := by cases h <;> rfl
  shut h := by cases h <;> rfl

def Stage.slot : Stage → Nat
  | .loadClosed _ | .reserve _ | .finished => 0
  | _ => 1

def Stage.early : Stage → Bool
  | .loadClosed _ | .reserve _ => true
  | _ => false

/-- A caller takes one slot at most, and has given it back when it does not hold it. -/
structure Session.Sound (cfg : PoolConfig) (x : Session) : Prop where
  took_eq : x.took = x.gave + if cfg.maxOpen = 0 then 0 else x.stage.slot
  took_le : x.took ≤ 1
  early : x.stage.early = true → x.took = 0

variable {s s' : Shared} {health : HealthLoop}

theorem Session.Sound.advanced {x x' : Session} (h : x.Sound cfg)
    (hst : Advanced cfg s x s' x') : x'.Sound cfg := by
  cases hst with
  | refused | cancelled =>
    have ht := h.took_eq
    exact ⟨by simpa [slot] using ht, h.took_le, nofun⟩
  | opened => exact { h with }
  | unlimited hz | noSem hz =>
    have ht := h.took_eq
    rw [if_pos hz] at ht
    exact ⟨by rw [if_pos hz]; exact ht, h.took_le, nofun⟩
  | @reserved hint _ x hr =>
    have ht : x.took = 0 := h.early rfl
    have hg : x.gave = 0 := by
      have hs : x.took = x.gave + _ := h.took_eq
      omega
    refine ⟨?_, ?_, nofun⟩
    · rw [if_neg (ne_of_gt (zero_lt_of_lt hr))]
      simp [slot, ht, hg]
    · simp [ht]
  | gaveBack hl =>
    have ht := h.took_eq
    rw [if_neg hl] at ht
    exact ⟨by rw [if_neg hl]; exact ht, h.took_le, nofun⟩
  | _ => exact { h with early := nofun }

theorem Swept.sem_eq {health' : HealthLoop} (h : Swept cfg s health s' health') :
    s'.sem = s.sem := by
  cases h <;> rfl

theorem Shut.sem_eq {closer closer' : Closer}
    (h : Shut cfg health s closer s' closer') : s'.sem = s.sem := by
  cases h <;> rfl

namespace Pool

/-- Every caller is accounted for, and the semaphore is not overrun. -/
structure Accounted (cfg : PoolConfig) (p : Pool) : Prop where
  sessions : ∀ x ∈ p.sessions, x.Sound cfg
  sem_le : p.sem ≤ cfg.maxOpen

theorem accounted_newPool : Accounted cfg (newPool cfg) := ⟨nofun, zero_le _⟩

variable {p : Pool} {ok : Pool → Action → Prop}

theorem Accounted.stepped {q : Pool} {a : Action} (h : p.Accounted cfg) (hst : Stepped cfg p a q) :
    q.Accounted cfg := by
  cases hst with
  | @acquire hint =>
    refine { h with sessions := forall_mem_append.mpr ⟨h.sessions, forall_mem_singleton.mpr ?_⟩ }
    exact ⟨by simp [slot], zero_le _, fun _ => rfl⟩
  | @session a k x x' s' _ hk hst =>
    refine ⟨forall_mem_set h.sessions ((h.sessions x (mem_of_getElem? hk)).advanced hst), ?_⟩
    cases hst with
    | reserved hr => exact hr
    | gaveBack => exact le_trans (sub_le ..) h.sem_le
    | _ => exact h.sem_le
  | health hst | closer hst => exact { h with sem_le := hst.sem_eq ▸ h.sem_le }

theorem Accounted.runs (h : Runs (step cfg) ok (newPool cfg) p) : p.Accounted cfg :=
  Runs.invariant (P := Accounted cfg) (fun ha _ hst => ha.stepped (Pool.stepped hst))
    accounted_newPool h

/-- What the callers have taken and not given back is in the semaphore. -/
theorem sem_eq (h : Runs (step cfg) ok (newPool cfg) p) :
    (p.sem : Int) = total (fun x => (x.took : Int) - x.gave) p.sessions := by
  have hs : semLaw.sum p = 0 := semLaw_kept.runs h
  have hn : total (fun x : Session => (x.gave : Int) - x.took) p.sessions =
      -total (fun x => (x.took : Int) - x.gave) p.sessions := by
    simp only [← total_neg, Int.neg_sub]
  simp only [Law.sum, semLaw, hn] at hs
  omega

end Pool

end Celeris.Driver
