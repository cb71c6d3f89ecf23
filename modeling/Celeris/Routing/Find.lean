import Celeris.Routing.Registered
import Celeris.Routing.Search
import Celeris.Routing.Precedence

/-!
# What `find` finds

`find` described on the table of a method: `Looks T s path o` says that the
lookup finds `o`. The three ways to find something are those of the source: a
static pattern that is the path byte by byte, the root for a path that collapses
to `/`, and the walk through the trie for every other path. `Finds` is the
lookup on the table of a sequence of registrations.
-/

namespace Celeris.Routing

open List

universe u v

variable {H : Type u} {V : Type v}

/-! ## The path that is routed -/

/-- The slash-collapsed path: a leading slash, and one slash for each run of slashes. -/
def slashCollapsed (path : Bytes) : Bytes := slash :: collapseFrom slash path

/-- The path that is routed: `cleanPath` documents a leading slash. -/
def routedPath (path : Bytes) : Bytes :=
  if (cleanPath path).head? = some slash then cleanPath path else slash :: cleanPath path

def restOf (path : Bytes) : Bytes := (routedPath path).drop 1

/-- Whether `cleanPath` drops a slash at the end, which it does behind a double slash only. -/
def losesSlash (path : Bytes) : Bool :=
  hasDouble path && path.getLast? = some slash && slashCollapsed path ≠ [slash]

variable {path pattern : Bytes} {params : Params} {x : List H × Bytes} {s : Option V} {r : Router H}

theorem routedPath_cons : routedPath path = slash :: restOf path := by
  unfold restOf routedPath
  split_ifs with h
  · obtain ⟨bs, hc⟩ := head?_eq_some_iff.mp h
    rw [hc]
    rfl
  · rfl

theorem length_collapseFrom_le (prev : UInt8) (bs : Bytes) :
    (collapseFrom prev bs).length ≤ bs.length := by
  induction bs generalizing prev with
  | nil => exact Nat.le_refl _
  | cons b bs ih =>
    unfold collapseFrom
    split_ifs
    · exact Nat.le_succ_of_le (ih b)
    · exact Nat.succ_le_succ (ih b)

theorem collapseFrom_eq_self_iff {prev : UInt8} {bs : Bytes} :
    collapseFrom prev bs = bs ↔ hasDouble (prev :: bs) = false := by
  induction bs generalizing prev with
  | nil => exact iff_of_true rfl rfl
  | cons b bs ih =>
    rw [collapseFrom, hasDouble]
    split_ifs with hb
    · refine iff_of_false (fun h => ?_) (by simp [hb])
      have hl := length_collapseFrom_le b bs
      rw [h, length_cons] at hl
      omega
    · have hb' : ¬ (prev = slash ∧ b = slash) := fun h => hb h.symm
      simp [ih, hb']

theorem getLast?_collapseFrom {prev : UInt8} {bs : Bytes} :
    (prev :: collapseFrom prev bs).getLast? = (prev :: bs).getLast? := by
  induction bs generalizing prev with
  | nil => rfl
  | cons b bs ih =>
    rw [collapseFrom, getLast?_cons_cons, ← ih]
    split_ifs with hb
    · rw [hb.1, hb.2]
    · rw [getLast?_cons_cons]

/-- Nothing that is left behind a slash starts with one. -/
theorem head?_collapseFrom (bs : Bytes) : (collapseFrom slash bs).head? ≠ some slash := by
  induction bs with
  | nil => nofun
  | cons b bs ih =>
    rw [collapseFrom]
    split_ifs with hb
    · rw [hb.1]
      exact ih
    · simpa using fun h => hb ⟨h, rfl⟩

variable {path method : Bytes} {regs : List (Registration H)}

/-- The path is its collapsed form just when there is no double slash. -/
theorem slashCollapsed_eq_self_iff (h : path.head? = some slash) :
    slashCollapsed path = path ↔ hasDouble path = false := by
  obtain ⟨bs, rfl⟩ := head?_eq_some_iff.mp h
  rw [slashCollapsed, collapseFrom, if_pos ⟨rfl, rfl⟩, cons.injEq, collapseFrom_eq_self_iff]
  exact and_iff_right rfl

theorem cleanPath_ne_nil : cleanPath path ≠ [] := by
  cases path with
  | nil => simp [cleanPath]
  | cons b bs =>
    simp only [cleanPath]
    split_ifs with h1 h2
    · intro hn
      have := congrArg length hn
      simp only [length_dropLast, length_cons, length_nil] at this h2
      omega
    · simp
    · simp

/-- The two cases of `cleanPath` as one. -/
theorem cleanPath_cons {b : UInt8} {bs : Bytes} : cleanPath (b :: bs) =
    if hasDouble (b :: bs) = true ∧ 1 < (b :: collapseFrom b bs).length ∧
      (b :: bs).getLast? = some slash then (b :: collapseFrom b bs).dropLast
    else b :: collapseFrom b bs := by
  rw [cleanPath, ← getLast?_collapseFrom]
  by_cases hd : hasDouble (b :: bs) = true
  · simp only [hd, if_true, true_and]
  · rw [if_neg hd, if_neg fun h => hd h.1, collapseFrom_eq_self_iff.mpr (Bool.eq_false_iff.mpr hd)]

/-- What is routed is the collapsed path, with or without the slash at its end. -/
theorem routedPath_eq : routedPath path =
    if losesSlash path = true then (slashCollapsed path).dropLast else slashCollapsed path := by
  cases path with
  | nil => rfl
  | cons b bs =>
    have hloses : losesSlash (b :: bs) = true ↔ hasDouble (b :: bs) = true ∧
        (b :: bs).getLast? = some slash ∧ slashCollapsed (b :: bs) ≠ [slash] := by
      simp [losesSlash, and_assoc]
    simp only [hloses, routedPath, cleanPath_cons]
    by_cases hb : b = slash
    · have hc : slashCollapsed (b :: bs) = b :: collapseFrom b bs := by
        rw [slashCollapsed, collapseFrom, if_pos ⟨hb, rfl⟩, hb]
      rw [hc, hb]
      cases collapseFrom slash bs with
      | nil => simp
      | cons c cs => by_cases hd : hasDouble (slash :: bs) = true <;> simp [hd, apply_ite head?]
    · have hc : slashCollapsed (b :: bs) = slash :: b :: collapseFrom b bs := by
        rw [slashCollapsed, collapseFrom, if_neg fun h => hb h.1]
      have hl := @getLast?_collapseFrom b bs
      rw [hc, ← hl]
      cases collapseFrom b bs with
      | nil => simp [hb]
      | cons c cs =>
        by_cases hd : hasDouble (b :: bs) = true <;> simp [hd, hb, apply_ite head?,
          apply_ite (cons slash)]

theorem routedPath_eq_iff : routedPath path = slashCollapsed path ↔ losesSlash path = false := by
  rw [routedPath_eq]
  split_ifs with hl
  · refine iff_of_false (fun h => ?_) (by simp [hl])
    have hlen := congrArg length h
    rw [length_dropLast, slashCollapsed, length_cons] at hlen
    omega
  · exact iff_of_true rfl (Bool.eq_false_iff.mpr hl)

/-- Without a loss the collapsed path is routed. -/
theorem restOf_of_kept (h : losesSlash path = false) : restOf path = collapseFrom slash path := by
  rw [restOf, routedPath_eq_iff.mpr h]
  rfl

theorem restOf_eq_nil_iff : restOf path = [] ↔ slashCollapsed path = [slash] := by
  rw [restOf, routedPath_eq]
  split_ifs with hl
  · simp only [losesSlash, Bool.and_eq_true, decide_eq_true_eq] at hl
    obtain ⟨⟨-, hlast⟩, hne⟩ := hl
    refine iff_of_false (fun h => ?_) hne
    have hhead := head?_collapseFrom path
    have hend := @getLast?_collapseFrom slash path
    rw [slashCollapsed] at h hne
    cases hc : collapseFrom slash path with rw [hc] at h hne hhead hend
    | nil => exact hne rfl
    | cons c cs =>
      cases cs with
      | nil =>
        cases path with
        | nil => cases hc
        | cons b bs =>
          simp_all
      | cons d ds => cases h
  · rw [slashCollapsed]
    simp

/-- `find`, with the path it routes written out. -/
theorem Router.find_eq (r : Router H) : r.find method path params =
      match r.staticRoutes.get method path with
      | some e => (e.found, params)
      | none =>
        match r.trees.get method with
        | none => (.miss, params)
        | some root =>
          if restOf path = [] then (root.found, params) else search root (restOf path) params := by
  unfold Router.find
  cases r.staticRoutes.get method path with
  | some e => rfl
  | none =>
    cases r.trees.get method with
    | none => rfl
    | some root =>
      unfold restOf routedPath
      cases hc : cleanPath path with
      | nil => exact absurd hc cleanPath_ne_nil
      | cons b bs =>
        by_cases hb : b = slash
        · subst hb
          cases bs <;> simp
        · simp [hb]

/-! ## The lookup on the registrations -/

theorem mem_patternsFor {p : List Tok} : (p, x) ∈ patternsFor regs method ↔
      ∃ g ∈ regs, g.method = method ∧ toks g.pattern = p ∧ (g.chain, g.pattern) = x := by
  simp [patternsFor, and_assoc]

theorem wellFormed_patternsFor (regs : List (Registration H)) (method : Bytes) :
    (patternsFor regs method).WellFormed := by
  rintro ⟨p, x⟩ he
  obtain ⟨g, -, -, rfl, -⟩ := mem_patternsFor.mp he
  exact toks_wellFormed

theorem toks_of_isStaticPath (h : Router.isStaticPath path = true) :
    toks path = (path.drop 1).map .lit := by
  refine toks_of_static fun b hb => ?_
  have := all_eq_true.mp h b hb
  simpa using this

/-- `Looks T s path o`: a lookup of `path` on the table `T`, in which the static
map holds `s` for the very path, finds `o`. -/
inductive Looks (T : Table V) (s : Option V) (path : Bytes) : Option V → Prop
  | static {x : V} : s = some x → Looks T s path (some x)
  | root : s = none → restOf path = [] → Looks T s path (valueAt T [])
  | walk {p : List Tok} {x : V} : s = none → restOf path ≠ [] → Answers T (restOf path) p →
      Holds T p x → Looks T s path (some x)
  | miss : s = none → restOf path ≠ [] →
      (∀ e ∈ T, Matches e.1 (restOf path) → reachable T e.1 (restOf path) = true → False) →
      Looks T s path none

/-- A lookup finds one thing. -/
theorem Looks.unique {T : Table V} (hwf : T.WellFormed)
    {o o' : Option V} (h : Looks T s path o) (h' : Looks T s path o') : o = o' := by
  cases h with
  | static hs =>
    cases h' with
    | static hs' => rw [← hs, hs']
    | root hs' _ | walk hs' _ _ _ | miss hs' _ _ => rw [hs] at hs'; cases hs'
  | root hs hq =>
    cases h' with
    | static hs' => rw [hs] at hs'; cases hs'
    | root _ _ => rfl
    | walk _ hq' _ _ | miss _ hq' _ => exact absurd hq hq'
  | walk hs hq ha hx =>
    cases h' with
    | static hs' => rw [hs] at hs'; cases hs'
    | root _ hq' => exact absurd hq' hq
    | walk _ _ ha' hx' => rw [ha.unique hwf ha' hx hx']
    | miss _ _ hn => exact absurd ha.reach fun hr => hn _ hx.1 ha.covers hr
  | miss hs hq hn =>
    cases h' with
    | static hs' => rw [hs] at hs'; cases hs'
    | root _ hq' => exact absurd hq' hq
    | walk _ _ ha hx => exact absurd ha.reach fun hr => hn _ hx.1 ha.covers hr
    | miss _ _ _ => rfl

/-- `Shows rel f o`: what `find` returned, `f`, shows the value `o`. -/
def Shows (rel : Found H → V → Prop) (f : Found H) : Option V → Prop
  | some x => rel f x
  | none => f.handlers = none

/-- `find` is a lookup on the table of the method. -/
theorem Router.Stands.find_looks {val : NodeData H → List H → V} (rel : Found H → V → Prop)
    (hrel : ∀ (n : Node H) x, n.data.entry val = some x → rel n.found x)
    {T : Bytes → Table V} (h : r.Stands val T) (hwf : (T method).WellFormed)
    (hs : (∃ e x, r.staticRoutes.get method path = some e ∧ s = some x ∧ rel e.found x) ∨
      (r.staticRoutes.get method path = none ∧ s = none)) :
    ∃ o, Looks (T method) s path o ∧ Shows rel (r.find method path params).1 o := by
  rw [r.find_eq]
  rcases hs with ⟨e, x, he, hs, hx⟩ | ⟨he, hs⟩
  · rw [he]
    exact ⟨some x, .static hs, hx⟩
  · rw [he]
    have hst := h method
    cases ht : r.trees.get method with simp only [ht] at hst
    | none =>
      refine ⟨none, ?_, rfl⟩
      by_cases hq : restOf path = []
      · have := Looks.root (T := T method) hs hq
        rwa [hst] at this ⊢
      · refine .miss hs hq fun e he => ?_
        rw [hst] at he
        exact absurd he not_mem_nil
    | some root =>
      obtain ⟨-, hrep⟩ := hst
      by_cases hq : restOf path = []
      · simp only [hq, if_true]
        refine ⟨_, .root hs hq, ?_⟩
        obtain ⟨d, cs⟩ := root
        have hval : valueAt (T method) [] = d.entry val := by
          rw [valueAt, after_nil, ← hrep.here]
        rw [hval]
        cases hd : d.handlers with
        | none =>
          rw [NodeData.entry, hd]
          exact hd
        | some hs =>
          have hen : d.entry val = some (val d hs) := by rw [NodeData.entry, hd]; rfl
          rw [hen]
          exact hrel (.mk d cs) _ hen
      · simp only [hq, if_false]
        have hout := search_outcome hrep hwf _ params hq
        generalize search root (restOf path) params = res at hout
        cases hout with
        | miss hnone => exact ⟨none, .miss hs hq hnone, rfl⟩
        | @hit p x n bound hans hval hn hcap =>
          exact ⟨some x, .walk hs hq hans hval, hrel n x hn⟩

/-! ## Lookups and registrations -/

/-- Whether the path is, byte by byte, a static pattern of the method. -/
def Literal (regs : List (Registration H)) (method path : Bytes) : Prop :=
  Router.isStaticPath path = true ∧ ∃ g ∈ regs, g.method = method ∧ g.pattern = path

/-- What the static map holds for a path. -/
def literalFor (regs : List (Registration H)) (method path : Bytes) : Option (List H × Bytes) :=
  if Router.isStaticPath path then (lastFor regs method path).map fun g => (g.chain, g.pattern)
  else none

/-- `Finds regs method path o`: a router built by `regs` finds `o`. -/
def Finds (regs : List (Registration H)) (method path : Bytes) (o : Option (List H × Bytes)) :
    Prop :=
  Looks (patternsFor regs method) (literalFor regs method path) path o

def Found.route (f : Found H) : Option (List H × Bytes) := f.handlers.map fun hs => (hs, f.fullPath)

theorem lastFor_isSome (h : ∃ g ∈ regs, g.method = method ∧ g.pattern = pattern) :
    ∃ g, lastFor regs method pattern = some g := by
  obtain ⟨g, hg, hm, hp⟩ := h
  refine Option.ne_none_iff_exists'.mp fun hn => ?_
  rw [lastFor, getLast?_eq_none_iff, filter_eq_nil_iff] at hn
  exact hn g hg (by simp [hm, hp])

theorem literalFor_eq_some (h : literalFor regs method path = some x) :
    Router.isStaticPath path = true ∧ ∃ g ∈ regs, g.method = method ∧ g.pattern = path ∧
      (g.chain, g.pattern) = x := by
  unfold literalFor at h
  split_ifs at h with hs
  obtain ⟨g, hg, hgx⟩ := Option.map_eq_some_iff.mp h
  obtain ⟨hmem, hm, hp⟩ : g ∈ _ ∧ g.method = _ ∧ g.pattern = _ := by
    simpa [mem_filter] using mem_of_getLast? hg
  exact ⟨hs, g, hmem, hm, hp, hgx⟩

theorem literalFor_eq_none (h : literalFor regs method path = none) :
    ¬ Literal regs method path := by
  rintro ⟨hs, hg⟩
  obtain ⟨g, hg⟩ := lastFor_isSome hg
  rw [literalFor, if_pos hs, hg] at h
  cases h

/-- What `find` returns is what the registrations say. -/
theorem Built.find_finds (h : Built regs r) (method path : Bytes) (params : Params) :
    Finds regs method path (r.find method path params).1.route := by
  have hst : (r.staticRoutes.get method path).map (fun e => (e.handlers, e.fullPath)) =
      literalFor regs method path := h.static method path
  have hs : (∃ e x, r.staticRoutes.get method path = some e ∧
      literalFor regs method path = some x ∧ e.found.route = some x) ∨
      (r.staticRoutes.get method path = none ∧ literalFor regs method path = none) := by
    cases he : r.staticRoutes.get method path with rw [he] at hst
    | none => exact .inr ⟨rfl, hst.symm⟩
    | some e => exact .inl ⟨e, _, rfl, hst.symm, rfl⟩
  have hr : ∀ (n : Node H) x, n.data.entry chainAndPath = some x → n.found.route = some x :=
    fun _ _ hn => hn
  obtain ⟨o, hl, hsh⟩ :=
    h.stands.find_looks (fun f x => f.route = some x) hr (wellFormed_patternsFor regs method) hs
  have : (r.find method path params).1.route = o := by
    cases o with
    | none =>
      rw [Found.route, show (r.find method path params).1.handlers = none from hsh]
      rfl
    | some x => exact hsh
  rw [this]
  exact hl

end Celeris.Routing
