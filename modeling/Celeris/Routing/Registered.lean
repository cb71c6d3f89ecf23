import Celeris.Routing.Table
import Celeris.Routing.Insertion

/-!
# What a router stands for

A router built by registrations stands for one table per method, and its static
map for the fully static patterns of these. `Router.Stands.addRoute` is the
step: a registration appends its pattern to the table of its method.
-/

namespace Celeris.Routing

open PerMethod Function List Router

universe u v

variable {H : Type u} {V : Type v}

/-! ## Values per method -/

theorem methodIndex_injective {m m' : Bytes} {i : Fin 7} (h : methodIndex m = some i)
    (h' : methodIndex m' = some i) : m = m' := by
  have hn : ∀ {m : Bytes} {i : Fin 7}, methodIndex m = some i →
      m = ([ascii "GET", ascii "POST", ascii "PUT", ascii "DELETE", ascii "PATCH", ascii "HEAD",
        ascii "OPTIONS"] : List Bytes).get i := by
    intro m i h
    unfold methodIndex at h
    split_ifs at h <;> cases h <;> assumption
  rw [hn h, hn h']

namespace PerMethod

variable {α : Type u} {a : α} {m : Bytes} {t : PerMethod α}

@[simp] theorem get_const : (const a).get m = a := by
  unfold get const
  cases methodIndex m <;> rfl

@[simp] theorem get_set_self : (t.set m a).get m = a := by
  unfold get set
  cases h : methodIndex m <;> simp

theorem get_set_of_ne {m' : Bytes} (h : m' ≠ m) : (t.set m a).get m' = t.get m' := by
  unfold get set
  cases hm : methodIndex m with
  | none => cases hm' : methodIndex m' <;> simp [h]
  | some i =>
    cases hm' : methodIndex m' with
    | none => rfl
    | some j =>
      have hij : j ≠ i := by
        rintro rfl
        exact h (methodIndex_injective hm' hm)
      simp [hij]

end PerMethod

/-! ## One registration -/

namespace Router

/-- The dispatch flag a registration gives its node: an adaptive route starts
sync. -/
def flagFor (r : Router H) (setting : AsyncSetting) : Bool :=
  if setting = .default && r.defaultAsync then false else r.resolveAsync setting

/-- The trie of a method after a registration. -/
def placement (r : Router H) (method path : Bytes) (handlers : List H) (setting : AsyncSetting) :
    Placed H :=
  insertSegments handlers path (r.flagFor setting) (splitPath path) (r.rootOrNew method).2
    (r.rootOrNew method).1

variable {r : Router H} {method path : Bytes}

theorem get_setStaticEntry {e : StaticEntry H} (hs : isStaticPath path = true)
    (m : Bytes) {p : Bytes} : (r.setStaticEntry method path e).staticRoutes.get m p =
      if m = method ∧ p = path ∧ isStaticPath p = true then some e else r.staticRoutes.get m p := by
  rw [setStaticEntry]
  by_cases hm : m = method
  · subst hm
    by_cases hp : p = path
    · simp [hp, hs]
    · simp [hp]
  · rw [get_set_of_ne hm, if_neg fun e => hm e.1]

variable {r' : Router H} {handlers : List H} {setting : AsyncSetting} {route : Route}
  {T : Bytes → Table V}

/-- What `addRouteWithAsync` changes. -/
theorem addRouteWithAsync_spec (h : r.addRouteWithAsync method path handlers setting =
    some (r', route)) : path.head? = some slash ∧ validatePath path = true ∧
      route = ⟨method, path, (r.placement method path handlers setting).target⟩ ∧
      r'.trees = r.trees.set method (some (r.placement method path handlers setting).node) ∧
      r'.next = (r.placement method path handlers setting).next ∧
      ∀ m p, r'.staticRoutes.get m p = if m = method ∧ p = path ∧ isStaticPath p = true then
        some ⟨handlers, path, r.flagFor setting⟩ else r.staticRoutes.get m p := by
  unfold addRouteWithAsync at h
  split_ifs at h with h1 h2 h3 <;> cases h
  · exact ⟨by simpa using h1, by simpa using h2, rfl, rfl, rfl, get_setStaticEntry h3⟩
  · exact ⟨by simpa using h1, by simpa using h2, rfl, rfl, rfl, fun m p =>
      (if_neg (by rintro ⟨-, rfl, hp⟩; exact h3 hp)).symm⟩

/-! ## The tables of a router -/

/-- `r.Stands val T`: the trie of every method stands for its table. -/
def Stands (val : NodeData H → List H → V) (r : Router H) (T : Bytes → Table V) : Prop :=
  ∀ m, match r.trees.get m with
    | none => T m = []
    | some root => root.nType = .static ∧ Rep val root (T m)

variable {val : NodeData H → List H → V}

theorem stands_newRouter {defaultAsync noAutoHEAD : Bool} :
    (newRouter defaultAsync noAutoHEAD : Router H).Stands val fun _ => [] := by
  intro m
  simp [newRouter]

/-- The root a registration starts from stands for the table of its method. -/
theorem Stands.root (h : r.Stands val T) {m : Bytes} :
    (r.rootOrNew m).1.nType = .static ∧ Rep val (r.rootOrNew m).1 (T m) := by
  have hm := h m
  unfold rootOrNew
  cases ht : r.trees.get m with simp only [ht] at hm
  | none =>
    rw [hm]
    exact ⟨rfl, rep_fresh rfl⟩
  | some root => exact hm

/-- A registration appends its pattern to the table of its method, if the cell it
splits keeps its value. -/
theorem Stands.addRoute (h : r.Stands val T)
    (ha : r.addRouteWithAsync method path handlers setting = some (r', route)) {X : Nat → V}
    (hX : ∀ d : NodeData H,
      val { d with handlers := some handlers, fullPath := path, async := r.flagFor setting }
        handlers = X d.id)
    (hk : ∀ s ∈ splitBy (splitPath path) (r.rootOrNew method).1, Keeps val s) :
    r'.Stands val (Function.update T method (T method ++ [(toks path, X route.node)])) := by
  obtain ⟨-, -, rfl, ht, -, -⟩ := addRouteWithAsync_spec ha
  obtain ⟨hr, hrep⟩ := h.root
  obtain ⟨he, hn⟩ :=
    rep_insertSegments hX .static splitPath_chained (r.rootOrNew method).2 _ _ hr hk hrep
  intro m
  by_cases hm : m = method
  · subst hm
    rw [ht, get_set_self, update_self]
    exact ⟨he.nType.trans hr, hn⟩
  · rw [ht, get_set_of_ne hm, update_of_ne hm]
    exact h m

end Router

/-! ## Routers built by registrations -/

/-- A call of `addRouteWithAsync`. -/
structure Registration (H : Type u) where
  method : Bytes
  pattern : Bytes
  chain : List H
  setting : AsyncSetting := .default

/-- Make one registration; `none` if it panics. -/
def Router.register (r : Router H) (g : Registration H) : Option (Router H) :=
  (r.addRouteWithAsync g.method g.pattern g.chain g.setting).map Prod.fst

/-- Make registrations one after the other. -/
def Router.build (r : Router H) (regs : List (Registration H)) : Option (Router H) :=
  regs.foldlM Router.register r

/-- The patterns registered for a method, with chain and pattern. -/
def patternsFor (regs : List (Registration H)) (method : Bytes) : Table (List H × Bytes) :=
  (regs.filter fun g => g.method = method).map fun g => (toks g.pattern, (g.chain, g.pattern))

/-- The last registration of a pattern for a method. -/
def lastFor (regs : List (Registration H)) (method pattern : Bytes) : Option (Registration H) :=
  (regs.filter fun g => g.method = method ∧ g.pattern = pattern).getLast?

def chainAndPath (d : NodeData H) (handlers : List H) : List H × Bytes := (handlers, d.fullPath)

/-- What holds of a router built by the registrations `regs`. -/
structure Built (regs : List (Registration H)) (r : Router H) : Prop where
  stands : r.Stands chainAndPath (patternsFor regs)
  static : ∀ m p, (r.staticRoutes.get m p).map (fun e => (e.handlers, e.fullPath)) =
    if Router.isStaticPath p then (lastFor regs m p).map fun g => (g.chain, g.pattern) else none
  slashed : ∀ g ∈ regs, g.pattern.head? = some slash

variable {regs : List (Registration H)} {g : Registration H} {r : Router H}

theorem patternsFor_concat : patternsFor (regs ++ [g]) = Function.update (patternsFor regs) g.method
      (patternsFor regs g.method ++ [(toks g.pattern, (g.chain, g.pattern))]) := by
  funext m
  by_cases hm : m = g.method
  · subst hm
    simp [patternsFor]
  · rw [update_of_ne hm]
    simp [patternsFor, Ne.symm hm]

theorem lastFor_concat {m p : Bytes} : lastFor (regs ++ [g]) m p =
      if g.method = m ∧ g.pattern = p then some g else lastFor regs m p := by
  unfold lastFor
  split_ifs with h
  · rw [filter_append]
    simp [h]
  · rw [filter_append]
    simp [h]

theorem Built.register {r' : Router H} (h : Built regs r) (hg : r.register g = some r') :
    Built (regs ++ [g]) r' := by
  obtain ⟨⟨r₁, route⟩, ha, rfl⟩ := Option.map_eq_some_iff.mp hg
  obtain ⟨hsl, -, -, -, -, hst⟩ := addRouteWithAsync_spec ha
  refine ⟨?_, ?_, ?_⟩
  · rw [patternsFor_concat]
    exact h.stands.addRoute ha (X := fun _ => (g.chain, g.pattern)) (fun _ => rfl)
      fun s _ _ _ => rfl
  · intro m p
    rw [hst, lastFor_concat]
    by_cases hm : g.method = m ∧ g.pattern = p
    · obtain ⟨rfl, rfl⟩ := hm
      by_cases hs : isStaticPath g.pattern = true
      · simp [hs]
      · simpa [hs] using h.static g.method g.pattern
    · rw [if_neg hm, if_neg fun e => hm ⟨e.1.symm, e.2.1.symm⟩, h.static]
  · exact forall_mem_append.mpr ⟨h.slashed, forall_mem_singleton.mpr hsl⟩

theorem Built.build {done : List (Registration H)} {r' : Router H} (h : Built done r)
    (hb : r.build regs = some r') : Built (done ++ regs) r' := by
  induction regs generalizing r done with
  | nil =>
    cases hb
    rwa [append_nil]
  | cons g regs ih =>
    rw [build, foldlM_cons] at hb
    obtain ⟨r₁, hg, hb⟩ := Option.bind_eq_some_iff.mp hb
    have := ih (h.register hg) hb
    rwa [append_assoc] at this

/-- Every router that registrations build stands for them. -/
theorem built_of_build {defaultAsync noAutoHEAD : Bool}
    (h : (newRouter defaultAsync noAutoHEAD).build regs = some r) : Built regs r := by
  have hn : Built [] (newRouter defaultAsync noAutoHEAD : Router H) :=
    ⟨stands_newRouter, fun m p => by simp [newRouter, lastFor], by simp⟩
  exact hn.build h

end Celeris.Routing
