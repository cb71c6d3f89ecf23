import Celeris.Routing.Cells
import Celeris.Routing.Smallest

/-!
# Route handles (`router.go`)

A registration returns a handle that points to a cell of the trie, and `Async`,
`Sync` and `Use` write through it. A `World` is a router together with the
handles it returned and what their owner may expect of each: the chain, the flag
set last and whether the route still follows the server's default.

`Faithful` says that the router holds for every handle what its owner expects.
A registration that splits no cell with a chain keeps it (`Faithful.add`), and so
does every write through a handle (`Faithful.update`).
-/

namespace Celeris.Routing

open List Function PerMethod Router NodeData Alike

universe u v

variable {H : Type u} {V : Type v}

/-! ## Worlds and calls -/

/-- A registered route as its owner knows it. -/
structure Handle (H : Type u) where
  route : Route
  chain : List H
  async : Bool
  adaptive : Bool

/-- A router and the handles it returned. -/
structure World (H : Type u) where
  router : Router H
  handles : List (Handle H)

/-- A call on the router or on one of its handles. -/
inductive Call (H : Type u) where
  | add (g : Registration H)
  | setAsync (route : Route) (want : Bool)
  | use (route : Route) (middleware : List H)

def withMiddleware (chain middleware : List H) : List H :=
  chain.dropLast ++ middleware ++ chain.getLast?.toList

/-- Change what is expected of one route. -/
def Handle.change (route : Route) (u : Handle H → Handle H) (h : Handle H) : Handle H :=
  if h.route = route then u h else h

/-- What a handle's owner expects after `Use`. -/
def Handle.used (middleware : List H) (h : Handle H) : Handle H :=
  { h with chain := withMiddleware h.chain middleware }

/-- What a handle's owner expects after `Async` or `Sync`. -/
def Handle.flagged (want : Bool) (h : Handle H) : Handle H :=
  { h with async := want, adaptive := false }

/-- Make a call; `none` if it panics or its handle was never returned. -/
def World.step (w : World H) : Call H → Option (World H)
  | .add g =>
    (w.router.addRouteWithAsync g.method g.pattern g.chain g.setting).map fun p =>
      ⟨p.1, w.handles ++ [⟨p.2, g.chain, w.router.flagFor g.setting,
        g.setting = .default && w.router.defaultAsync⟩]⟩
  | .setAsync route want =>
    if w.handles.any (fun h => h.route = route) then
      some ⟨w.router.setAsync route want, w.handles.map (Handle.change route (Handle.flagged want))⟩
    else none
  | .use route middleware =>
    if w.handles.any (fun h => h.route = route) then
      (w.router.use route middleware).map fun r =>
        ⟨r, w.handles.map (Handle.change route (Handle.used middleware))⟩
    else none

/-- The worlds that calls which meet `ok` lead to. -/
inductive Reaches (ok : World H → Call H → Prop) (start : World H) : World H → Prop
  | start : Reaches ok start start
  | step {w w' : World H} {c : Call H} : Reaches ok start w → ok w c → w.step c = some w' →
      Reaches ok start w'

/-- No pattern is registered twice for a method. -/
def Fresh (w : World H) : Call H → Prop
  | .add g => ∀ h ∈ w.handles, (h.route.method, h.route.path) ≠ (g.method, g.pattern)
  | _ => True

/-- A registration gives a chain, does not share the cell of another route, which
patterns that differ only in the name of the catch-all do, and splits no cell that
carries a chain. -/
def Clean (w : World H) : Call H → Prop
  | .add g => g.chain ≠ [] ∧
      (∀ h ∈ w.handles, h.route.method = g.method → ¬ Alike (toks h.route.path) (toks g.pattern)) ∧
      (splitBy (splitPath g.pattern) (w.router.rootOrNew g.method).1).all
        (fun s => s.data.handlers.isNone) = true
  | _ => True

instance (w : World H) : (c : Call H) → Decidable (Fresh w c)
  | .add g => inferInstanceAs (Decidable (∀ h ∈ w.handles, _ ≠ (g.method, g.pattern)))
  | .setAsync _ _ => .isTrue trivial
  | .use _ _ => .isTrue trivial

instance (w : World H) : (c : Call H) → Decidable (Clean w c)
  | .add _ => inferInstanceAs (Decidable (_ ≠ [] ∧ _ ∧ _ = true))
  | .setAsync _ _ => .isTrue trivial
  | .use _ _ => .isTrue trivial

/-- Make calls one after the other, as long as they meet `ok`. -/
def World.run (ok : World H → Call H → Prop) [∀ w c, Decidable (ok w c)] (w : World H)
    (calls : List (Call H)) : Option (World H) :=
  calls.foldlM (fun w c => if ok w c then w.step c else none) w

variable {w w' : World H} {handles : List (Handle H)} {m path : Bytes} {p : List Tok} {h : Handle H}
  {r : Router H} {route : Route}

theorem Reaches.of_run {ok : World H → Call H → Prop} [∀ w c, Decidable (ok w c)]
    {start : World H} {calls : List (Call H)} (h : Reaches ok start w)
    (hrun : w.run ok calls = some w') : Reaches ok start w' := by
  induction calls generalizing w with
  | nil =>
    cases hrun
    exact h
  | cons c calls ih =>
    rw [World.run, foldlM_cons] at hrun
    obtain ⟨w₁, h₁, hr⟩ := Option.bind_eq_some_iff.mp hrun
    split_ifs at h₁ with hc
    exact ih (h.step hc h₁) hr

theorem exists_reaches {ok : World H → Call H → Prop} [∀ w c, Decidable (ok w c)] {start : World H}
    {P : World H → Prop} (calls : List (Call H)) (h : ∃ w ∈ start.run ok calls, P w) :
    ∃ w, Reaches ok start w ∧ P w :=
  h.imp fun _ hw => ⟨.of_run .start hw.1, hw.2⟩

/-! ## What a router holds for its handles -/

/-- What a cell holds for a route. -/
structure RouteCell (H : Type u) where
  chain : List H
  path : Bytes
  async : Bool
  node : Nat

def RouteCell.entry (x : RouteCell H) : StaticEntry H := ⟨x.chain, x.path, x.async⟩

def RouteCell.found (x : RouteCell H) : Found H := ⟨some x.chain, x.path, x.async⟩

def routeCell (d : NodeData H) (handlers : List H) : RouteCell H :=
  ⟨handlers, d.fullPath, d.async, d.id⟩

def Handle.cell (h : Handle H) : RouteCell H := ⟨h.chain, h.route.path, h.async, h.route.node⟩

/-- The patterns of a method with their cells. -/
def tableOf (handles : List (Handle H)) (method : Bytes) : Table (RouteCell H) :=
  (handles.filter fun h => h.route.method = method).map fun h => (toks h.route.path, h.cell)

/-- The handle of a pattern. -/
def handleFor (handles : List (Handle H)) (method path : Bytes) : Option (Handle H) :=
  handles.find? fun h => h.route.method = method ∧ h.route.path = path

/-- What the static map is to hold for a path. -/
def staticFor (handles : List (Handle H)) (method path : Bytes) : Option (RouteCell H) :=
  if Router.isStaticPath path then (handleFor handles method path).map Handle.cell else none

/-- Every identity of a trie is used once, and none that is still to come. -/
def Router.Unique (r : Router H) : Prop :=
  ∀ m root, r.trees.get m = some root → root.ids.Nodup ∧ ∀ i ∈ root.ids, i < r.next

/-- The router holds for every handle what its owner expects. -/
structure Faithful (w : World H) : Prop where
  stands : w.router.Stands routeCell (tableOf w.handles)
  unique : w.router.Unique
  static : ∀ m p, w.router.staticRoutes.get m p =
    (staticFor w.handles m p).map RouteCell.entry
  apart : w.handles.Pairwise fun h h' => h.route.method = h'.route.method →
    ¬ Alike (toks h.route.path) (toks h'.route.path)
  slashed : ∀ h ∈ w.handles, h.route.path.head? = some slash
  chains : ∀ h ∈ w.handles, h.chain ≠ []

theorem mem_tableOf {x : RouteCell H} : (p, x) ∈ tableOf handles m ↔
      ∃ h ∈ handles, h.route.method = m ∧ toks h.route.path = p ∧ h.cell = x := by
  simp [tableOf, and_assoc]

theorem wellFormed_tableOf {handles : List (Handle H)} {m : Bytes} :
    (tableOf handles m).WellFormed := by
  rintro ⟨p, x⟩ he
  obtain ⟨h, -, -, rfl, -⟩ := mem_tableOf.mp he
  exact toks_wellFormed

theorem handleFor_mem {p : Bytes} (hf : handleFor handles m p = some h) :
    h ∈ handles ∧ h.route.method = m ∧ h.route.path = p := by
  refine ⟨mem_of_find?_eq_some hf, ?_⟩
  simpa using find?_some hf

theorem holds_of_apart {R : Table V} (hap : R.Pairwise fun a b => ¬ Alike a.1 b.1)
    {x : V} (hm : (p, x) ∈ R) : Holds R p x := by
  refine ⟨hm, ?_⟩
  obtain ⟨A, B, rfl⟩ := append_of_mem hm
  rw [pairwise_append, pairwise_cons] at hap
  have hA : A.filterMap (fun e => if Alike p e.1 then some e.2 else none) = [] := by
    rw [filterMap_eq_nil_iff]
    intro a ha
    have := hap.2.2 a ha (p, x) mem_cons_self
    rw [if_neg fun h => this h.symm]
  have hB : B.filterMap (fun e => if Alike p e.1 then some e.2 else none) = [] := by
    rw [filterMap_eq_nil_iff]
    intro b hb
    rw [if_neg (hap.2.1.1 b hb)]
  rw [valueAt_eq_getLast, filterMap_append, filterMap_cons, hA, hB, if_pos (refl p)]
  rfl

namespace Faithful

variable {w : World H}

/-- Two handles of one route are the same. -/
theorem eq_of_alike (hw : Faithful w) {h' : Handle H} (hh : h ∈ w.handles)
    (hh' : h' ∈ w.handles) (hm : h.route.method = h'.route.method)
    (ha : Alike (toks h.route.path) (toks h'.route.path)) : h = h' := by
  by_contra hne
  have : Std.Symm fun h h' : Handle H => h.route.method = h'.route.method →
      ¬ Alike (toks h.route.path) (toks h'.route.path) :=
    ⟨fun _ _ hab hba ha => hab hba.symm ha.symm⟩
  exact hw.apart.forall hh hh' hne hm ha

theorem holds (hw : Faithful w) (hh : h ∈ w.handles) :
    Holds (tableOf w.handles h.route.method) (toks h.route.path) h.cell := by
  refine holds_of_apart ?_ (mem_tableOf.mpr ⟨h, hh, rfl, rfl, rfl⟩)
  rw [tableOf, pairwise_map]
  refine (hw.apart.filter _).imp_of_mem fun ha hb hab => hab ?_
  rw [mem_filter, decide_eq_true_eq] at ha hb
  exact ha.2.trans hb.2.symm

section

variable (hw : Faithful w) (hh : h ∈ w.handles)

include hw hh

theorem handleFor_eq : handleFor w.handles h.route.method h.route.path = some h := by
  obtain ⟨h', hh'⟩ : ∃ h', handleFor w.handles h.route.method h.route.path = some h' :=
    Option.isSome_iff_exists.mp (find?_isSome.mpr ⟨h, hh, by simp⟩)
  obtain ⟨hmem, hm, hp⟩ := handleFor_mem hh'
  rw [hh', hw.eq_of_alike hmem hh hm (by rw [hp]; exact refl _)]

/-- The trie of a registered route, and in it the cell of the route. -/
theorem exists_cell : ∃ root, w.router.trees.get h.route.method = some root ∧ ∃ d ∈ root.cells,
      root.cell h.route.node = some d ∧ d.handlers = some h.chain ∧
      d.fullPath = h.route.path ∧ d.async = h.async ∧ d.id = h.route.node := by
  have hst := hw.stands h.route.method
  have hho := hw.holds hh
  cases ht : w.router.trees.get h.route.method with simp only [ht] at hst
  | none =>
    rw [hst] at hho
    cases hho.1
  | some root =>
    obtain ⟨d, hd, hv⟩ := hst.2.exists_cell hho
    obtain ⟨hs, hhs, hc⟩ := Option.map_eq_some_iff.mp hv
    simp only [routeCell, Handle.cell, RouteCell.mk.injEq] at hc
    obtain ⟨rfl, hp, ha, hid⟩ := hc
    refine ⟨root, rfl, d, hd, ?_, hhs, hp, ha, hid⟩
    rw [← hid]
    exact cell_of_mem (hw.unique _ _ ht).1 hd

theorem cell_eq : ∃ d, w.router.cell h.route = some d ∧ d.handlers = some h.chain ∧
      d.fullPath = h.route.path ∧ d.async = h.async := by
  obtain ⟨root, ht, d, -, hc, hhs, hp, ha, -⟩ := hw.exists_cell hh
  refine ⟨d, ?_, hhs, hp, ha⟩
  rw [cell, ht]
  exact hc

/-- Routes of one method do not share a cell. -/
theorem eq_of_node {h' : Handle H} (hh' : h' ∈ w.handles) (hm : h.route.method = h'.route.method)
    (hn : h.route.node = h'.route.node) : h = h' := by
  obtain ⟨d, hd, -, hp, -⟩ := hw.cell_eq hh
  obtain ⟨d', hd', -, hp', -⟩ := hw.cell_eq hh'
  have hs : d = d' := by
    rw [cell, hm, hn] at hd
    exact Option.some.inj (hd.symm.trans hd')
  refine hw.eq_of_alike hh hh' hm ?_
  rw [← hp, ← hp', hs]
  exact refl _

end

end Faithful

theorem faithful_newRouter {defaultAsync noAutoHEAD : Bool} :
    Faithful (⟨newRouter defaultAsync noAutoHEAD, []⟩ : World H) where
  stands := stands_newRouter
  unique := by
    intro m root h
    simp [newRouter] at h
  static := by
    intro m p
    simp [newRouter, staticFor, handleFor]
  apart := .nil
  slashed := by simp
  chains := by simp

/-! ## Registration -/

theorem tableOf_concat : tableOf (handles ++ [h]) = Function.update (tableOf handles) h.route.method
      (tableOf handles h.route.method ++ [(toks h.route.path, h.cell)]) := by
  funext m
  by_cases hm : m = h.route.method
  · subst hm
    simp [tableOf]
  · rw [update_of_ne hm]
    simp [tableOf, Ne.symm hm]

/-- A registration keeps identities unique. -/
theorem Router.Unique.addRoute {r' : Router H} (hu : r.Unique) {method : Bytes}
    {handlers : List H} {setting : AsyncSetting}
    (ha : r.addRouteWithAsync method path handlers setting = some (r', route)) : r'.Unique := by
  obtain ⟨-, -, -, htr, hn, -⟩ := addRouteWithAsync_spec ha
  have hr : (r.rootOrNew method).1.ids.Nodup ∧
    (∀ i ∈ (r.rootOrNew method).1.ids, i < (r.rootOrNew method).2) ∧
      r.next ≤ (r.rootOrNew method).2 := by
    unfold rootOrNew
    cases ht : r.trees.get method with
    | none => simp [Node.ids, Node.cells, cellsIn]
    | some root => exact ⟨(hu _ _ ht).1, (hu _ _ ht).2, Nat.le_refl _⟩
  have hg := growsAt_insertSegments handlers path (r.flagFor setting) (splitPath path)
    (r.rootOrNew method).2 (r.rootOrNew method).1
  have hnew := hg.unique hr.1 hr.2.1
  intro m root hm
  rw [htr] at hm
  rw [hn]
  by_cases hmm : m = method
  · subst hmm
    rw [get_set_self, Option.some.injEq] at hm
    rw [← hm]
    exact hnew
  · rw [get_set_of_ne hmm] at hm
    refine ⟨(hu _ _ hm).1, fun i hi => ?_⟩
    exact Nat.lt_of_lt_of_le ((hu _ _ hm).2 i hi) (Nat.le_trans hr.2.2 hg.1)

theorem keeps_of_no_handlers {s : Node H} (h : s.data.handlers = none) : Keeps routeCell s := by
  obtain ⟨d, cs⟩ := s
  intro id cp
  have hd : d.handlers = none := h
  simp [lowerHalf, entry, hd]

/-- A clean registration keeps a router faithful. -/
theorem Faithful.add (hw : Faithful w) {g : Registration H}
    (hc : Clean w (.add g)) (hs : w.step (.add g) = some w') : Faithful w' := by
  obtain ⟨hch, hap, hsp⟩ := hc
  obtain ⟨⟨r, route⟩, ha, rfl⟩ := Option.map_eq_some_iff.mp hs
  obtain ⟨hsl, -, hr, -, -, hstatic⟩ := addRouteWithAsync_spec ha
  have hm : route.method = g.method := by rw [hr]
  have hp : route.path = g.pattern := by rw [hr]
  constructor
  · rw [tableOf_concat]
    simp only [hm, hp, Handle.cell]
    refine hw.stands.addRoute ha (X := fun id => ⟨g.chain, g.pattern, w.router.flagFor g.setting,
      id⟩) (fun d => rfl) ?_
    intro s hs
    rw [Option.all_eq_true] at hsp
    exact keeps_of_no_handlers (by simpa using hsp s hs)
  · exact hw.unique.addRoute ha
  · intro m p
    have hfor {x : Handle H} (hx : x.route = route) : handleFor (w.handles ++ [x]) m p =
        if m = g.method ∧ p = g.pattern then some x else handleFor w.handles m p := by
      rw [handleFor, find?_append, ← handleFor]
      by_cases heq : m = g.method ∧ p = g.pattern
      · have hn : handleFor w.handles m p = none := by
          rw [handleFor, find?_eq_none]
          rintro h hh hmp
          rw [decide_eq_true_eq, heq.1, heq.2] at hmp
          exact hap h hh hmp.1 (by rw [hmp.2]; exact refl _)
        rw [if_pos heq, hn]
        simp [hx, hm, hp, heq.1, heq.2]
      · rw [if_neg heq, find?_singleton, if_neg, Option.or_none]
        simp only [hx, hm, hp, decide_eq_true_eq]
        exact fun h => heq ⟨h.1.symm, h.2.symm⟩
    rw [hstatic, staticFor, hfor rfl]
    by_cases heq : m = g.method ∧ p = g.pattern
    · obtain ⟨rfl, rfl⟩ := heq
      by_cases hst : isStaticPath g.pattern = true
      · simp [hst, Handle.cell, RouteCell.entry, hp]
      · rw [if_neg hst, if_neg fun e => hst e.2.2, hw.static, staticFor, if_neg hst]
    · rw [if_neg heq, ← staticFor, ← hw.static, if_neg fun e => heq ⟨e.1, e.2.1⟩]
  · rw [pairwise_append]
    refine ⟨hw.apart, pairwise_singleton _ _, fun h hh h' hh' hmm => ?_⟩
    rw [mem_singleton.mp hh'] at hmm ⊢
    simp only [hm, hp] at hmm ⊢
    exact hap h hh hmm
  · rw [forall_mem_append, forall_mem_singleton]
    exact ⟨hw.slashed, by rw [hp]; exact hsl⟩
  · rw [forall_mem_append, forall_mem_singleton]
    exact ⟨hw.chains, hch⟩

/-! ## Writing through a handle -/

/-- A write to one cell changes the values of the table of its method. -/
theorem Router.Stands.write {val : NodeData H → List H → V} {T : Bytes → Table V}
    (h : r.Stands val T) {f : NodeData H → NodeData H} {φ : V → V}
    (hf : ∀ d cs, SameEdge (Node.mk d cs) (Node.mk (f d) cs))
    (hφ : ∀ root, r.trees.get route.method = some root → ∀ d ∈ root.cells,
      (if d.id = route.node then f d else d).entry val = (d.entry val).map φ) :
        (r.write route f).Stands val
      (Function.update T route.method ((T route.method).map φ)) := by
  intro m
  have hm := h m
  by_cases hmm : m = route.method
  · subst hmm
    rw [Router.write, get_set_self, update_self]
    cases ht : r.trees.get route.method with simp only [ht] at hm
    | none =>
      rw [hm]
      rfl
    | some root => exact ⟨(sameEdge_modify hf root).nType.trans hm.1, hm.2.modify hf (hφ root ht)⟩
  · rw [Router.write, get_set_of_ne hmm, update_of_ne hmm]
    exact hm

theorem Router.Unique.write (hu : r.Unique)
    {f : NodeData H → NodeData H} (hf : ∀ d, (f d).id = d.id) : (r.write route f).Unique := by
  intro m root hm
  by_cases hmm : m = route.method
  · subst hmm
    rw [Router.write, get_set_self] at hm
    obtain ⟨root', ht, rfl⟩ := Option.map_eq_some_iff.mp hm
    rw [ids_modify hf]
    exact hu _ _ ht
  · rw [Router.write, get_set_of_ne hmm] at hm
    exact hu _ _ hm

/-- A write through the handle `h` that turns what its owner expects into what
`u` says. `f` is what happens to the cell. -/
structure Writes (h : Handle H) (u : Handle H → Handle H) (f : NodeData H → NodeData H) :
    Prop where
  edge : ∀ d cs, SameEdge (Node.mk d cs) (Node.mk (f d) cs)
  id : ∀ d, (f d).id = d.id
  route : ∀ h, (u h).route = h.route
  chain : (u h).chain ≠ []
  cell : ∀ d, d.handlers = some h.chain → d.fullPath = h.route.path → d.async = h.async →
    d.id = h.route.node → (f d).entry routeCell = some (u h).cell

section Update

variable {w : World H} {h : Handle H} {u : Handle H → Handle H} {f : NodeData H → NodeData H}

/-- What a write through `h` makes of a cell. -/
def Handle.rewrite (h : Handle H) (u : Handle H → Handle H) (x : RouteCell H) : RouteCell H :=
  if x.node = h.route.node then (u h).cell else x

theorem change_route (hu : ∀ h, (u h).route = h.route) : (h.change route u).route = h.route := by
  unfold Handle.change
  split_ifs
  · exact hu h
  · rfl

theorem Faithful.change_cell (hw : Faithful w) (hh : h ∈ w.handles) {h' : Handle H}
    (hh' : h' ∈ w.handles) (hm : h'.route.method = h.route.method) :
    (h'.change h.route u).cell = h.rewrite u h'.cell := by
  by_cases hn : h'.route.node = h.route.node
  · have heq := hw.eq_of_node hh' hh hm hn
    subst heq
    simp [Handle.change, Handle.rewrite, Handle.cell]
  · have hr : h'.route ≠ h.route := fun e => hn (by rw [e])
    simp [Handle.change, Handle.rewrite, Handle.cell, hr, hn]

theorem Faithful.tableOf_change (hw : Faithful w) (hh : h ∈ w.handles)
    (hu : ∀ h, (u h).route = h.route) :
    tableOf (w.handles.map (Handle.change h.route u)) = Function.update
      (tableOf w.handles) h.route.method
        ((tableOf w.handles h.route.method).map (h.rewrite u)) := by
  funext m
  have hf : (w.handles.map (Handle.change h.route u)).filter (fun h => h.route.method = m) =
      (w.handles.filter fun h => h.route.method = m).map (Handle.change h.route u) := by
    rw [filter_map]
    congr 2
    funext h'
    simp [change_route hu]
  rw [tableOf, hf, map_map]
  by_cases hm : m = h.route.method
  · subst hm
    rw [update_self, Table.map, tableOf, map_map]
    refine map_congr_left fun h' hh' => ?_
    rw [mem_filter, decide_eq_true_eq] at hh'
    simp [change_route hu, hw.change_cell hh hh'.1 hh'.2]
  · rw [update_of_ne hm, tableOf]
    refine map_congr_left fun h' hh' => ?_
    rw [mem_filter, decide_eq_true_eq] at hh'
    have hr : h'.route ≠ h.route := fun e => hm (by rw [← hh'.2, e])
    simp [Handle.change, if_neg hr]

theorem handleFor_change (hu : ∀ h, (u h).route = h.route) {p : Bytes} :
    handleFor (handles.map (Handle.change route u)) m p = (handleFor handles m p).map
      (Handle.change route u) := by
  rw [handleFor, find?_map, handleFor]
  congr 2
  funext h'
  simp [change_route hu]

/-- What the static map is to hold after a write. -/
theorem Faithful.staticFor_change (hw : Faithful w) (hh : h ∈ w.handles)
    (hu : ∀ h, (u h).route = h.route) {m p : Bytes} :
    staticFor (w.handles.map (Handle.change h.route u)) m p =
      if m = h.route.method then (staticFor w.handles m p).map (h.rewrite u)
      else staticFor w.handles m p := by
  unfold staticFor
  rw [handleFor_change hu]
  cases hf : handleFor w.handles m p with
  | none => simp
  | some h' =>
    obtain ⟨hh', hm', -⟩ := handleFor_mem hf
    by_cases hm : m = h.route.method
    · have := hw.change_cell (u := u) hh hh' (hm'.trans hm)
      split_ifs <;> simp [this]
    · have hr : h'.route ≠ h.route := fun e => hm (by rw [← hm', e])
      simp [hm, Handle.change, hr]

/-- A write through a handle keeps a router faithful, if it also writes to the
static map. -/
theorem Faithful.update (hw : Faithful w) (hh : h ∈ w.handles) (hwr : Writes h u f)
    (htr : r.trees = (w.router.write h.route f).trees) (hnext : r.next = w.router.next)
    (hstatic : ∀ m p, r.staticRoutes.get m p =
      if m = h.route.method ∧ p = h.route.path ∧ Router.isStaticPath p = true then
        some (u h).cell.entry else w.router.staticRoutes.get m p) :
    Faithful ⟨r, w.handles.map (Handle.change h.route u)⟩ := by
  have hφ : ∀ root, w.router.trees.get h.route.method = some root → ∀ d ∈ root.cells,
      (if d.id = h.route.node then f d else d).entry routeCell =
        (d.entry routeCell).map (h.rewrite u) := by
    intro root ht d hd
    split_ifs with hid
    · obtain ⟨root', ht', e, he, -, hhs, hpath, ha, heid⟩ := hw.exists_cell hh
      rw [ht, Option.some.injEq] at ht'
      subst ht'
      have hde : d = e :=
        inj_on_of_nodup_map (hw.unique _ _ ht).1 hd he (hid.trans heid.symm)
      subst hde
      rw [hwr.cell d hhs hpath ha hid, entry, hhs]
      simp [routeCell, Handle.rewrite, hid]
    · cases hhs : d.handlers with
      | none => simp [entry, hhs]
      | some hs => simp [entry, hhs, routeCell, Handle.rewrite, hid]
  constructor
  · rw [hw.tableOf_change hh hwr.route]
    have := hw.stands.write hwr.edge hφ
    unfold Router.Stands at this ⊢
    rw [htr]
    exact this
  · have : (w.router.write h.route f).Unique := hw.unique.write hwr.id
    unfold Router.Unique at this ⊢
    rw [htr, hnext]
    exact this
  · intro m p
    rw [hstatic, hw.staticFor_change hh hwr.route]
    by_cases hst : isStaticPath p = true
    · by_cases hm : m = h.route.method
      · subst hm
        by_cases hp : p = h.route.path
        · subst hp
          rw [if_pos ⟨rfl, rfl, hst⟩, staticFor, if_pos hst, hw.handleFor_eq hh]
          simp [Handle.rewrite, Handle.cell]
        · rw [if_neg fun e => hp e.2.1, hw.static]
          unfold staticFor
          cases hf : handleFor w.handles h.route.method p with
          | none => simp
          | some h' =>
            obtain ⟨hh', hm', hp'⟩ := handleFor_mem hf
            have hn : h'.route.node ≠ h.route.node := by
              intro hn
              rw [hw.eq_of_node hh' hh hm' hn] at hp'
              exact hp hp'.symm
            simp [hst, Handle.rewrite, Handle.cell, hn]
      · rw [if_neg fun e => hm e.1, if_neg hm, hw.static]
    · rw [if_neg fun e => hst e.2.2, hw.static]
      simp [staticFor, hst]
  · rw [pairwise_map]
    refine hw.apart.imp fun hab => ?_
    rwa [change_route hwr.route, change_route hwr.route]
  · rw [forall_mem_map]
    intro h' hh'
    rw [change_route hwr.route]
    exact hw.slashed h' hh'
  · rw [forall_mem_map]
    intro h' hh'
    unfold Handle.change
    split_ifs with hr
    · have heq := hw.eq_of_alike hh' hh (by rw [hr]) (by rw [hr]; exact refl _)
      rw [heq]
      exact hwr.chain
    · exact hw.chains h' hh'

end Update

/-! ## `Use` and `setAsync` -/

theorem Faithful.static_self (hw : Faithful w)
    (hh : h ∈ w.handles) : w.router.staticRoutes.get h.route.method h.route.path =
      if Router.isStaticPath h.route.path then some h.cell.entry else none := by
  rw [hw.static, staticFor, hw.handleFor_eq hh]
  split_ifs <;> rfl

/-- `Use` on a registered handle does not panic. -/
theorem Faithful.use (hw : Faithful w) (hh : h ∈ w.handles)
    {middleware : List H} : ∃ r, w.router.use h.route middleware = some r ∧
      Faithful ⟨r, w.handles.map (Handle.change h.route (Handle.used middleware))⟩ := by
  obtain ⟨d, hd, hhs, -, ha⟩ := hw.cell_eq hh
  have hs := hw.static_self hh
  obtain ⟨final, hf⟩ : ∃ final, h.chain.getLast? = some final :=
    Option.ne_none_iff_exists'.mp fun e => hw.chains h hh (getLast?_eq_none_iff.mp e)
  have hc : withMiddleware h.chain middleware = h.chain.dropLast ++ middleware ++ [final] := by
    rw [withMiddleware, hf]
    rfl
  have hwr : Writes h (Handle.used middleware)
      fun d => { d with handlers := some (withMiddleware h.chain middleware) } := by
    refine ⟨fun _ _ => ⟨rfl, rfl, rfl⟩, fun _ => rfl, fun _ => rfl, ?_, ?_⟩
    · simp [Handle.used, hc]
    · intro d _ hpath ha hid
      simp [entry, routeCell, Handle.cell, Handle.used, hpath, ha, hid]
  unfold Router.use
  simp only [hd, hhs, Option.bind_some, hf, Option.getD_some, ← hc, hs]
  by_cases hst : isStaticPath h.route.path = true
  · simp only [hst, if_true]
    refine ⟨_, rfl, hw.update hh hwr rfl rfl fun m p => ?_⟩
    rw [get_setStaticEntry hst, ha]
    rfl
  · simp only [hst]
    refine ⟨_, rfl, hw.update hh hwr rfl rfl fun m p => ?_⟩
    rw [if_neg (by rintro ⟨-, rfl, hp⟩; exact hst hp)]
    rfl

theorem Faithful.setAsync (hw : Faithful w) (hh : h ∈ w.handles)
    (want : Bool) : Faithful ⟨w.router.setAsync h.route want,
      w.handles.map (Handle.change h.route (Handle.flagged want))⟩ := by
  obtain ⟨d, hd, -, -, -⟩ := hw.cell_eq hh
  have hself := hw.static_self hh
  have hwr : Writes h (Handle.flagged want) fun d => { d with async := want } := by
    refine ⟨fun _ _ => ⟨rfl, rfl, rfl⟩, fun _ => rfl, fun _ => rfl, hw.chains h hh, ?_⟩
    intro d hhs hpath _ hid
    simp [entry, routeCell, Handle.cell, Handle.flagged, hhs, hpath, hid]
  unfold Router.setAsync
  simp only [hd, hself]
  -- Neither the count nor the adaptive set is part of what a lookup reads.
  generalize hr : (if w.router.adaptiveRoutes h.route.path = true then _ else _ : Router H) = r₁
  have hr₁ : r₁.trees = w.router.trees ∧ r₁.staticRoutes = w.router.staticRoutes ∧
      r₁.next = w.router.next := by
    rw [← hr]
    split_ifs <;> exact ⟨rfl, rfl, rfl⟩
  obtain ⟨ht, hs, hn⟩ := hr₁
  split_ifs with hst
  · refine hw.update hh hwr ?_ hn fun m p => ?_
    · simp [setStaticEntry, write, ht]
    · rw [get_setStaticEntry hst, write, hs]
      rfl
  · refine hw.update hh hwr ?_ hn fun m p => ?_
    · simp [write, ht]
    · rw [if_neg (by rintro ⟨-, rfl, hp⟩; exact hst hp)]
      simp [write, hs]

/-! ## Runs -/

theorem any_route_iff : handles.any (fun h => h.route = route) = true ↔
    ∃ h ∈ handles, h.route = route := by
  simp

theorem Faithful.step (hw : Faithful w) {c : Call H} (hc : Clean w c) (hs : w.step c = some w') :
    Faithful w' := by
  cases c with
  | add g => exact hw.add hc hs
  | setAsync route want =>
    simp only [World.step] at hs
    split_ifs at hs with ha
    obtain ⟨h, hh, rfl⟩ := any_route_iff.mp ha
    rw [← Option.some.inj hs]
    exact hw.setAsync hh want
  | use route middleware =>
    simp only [World.step] at hs
    split_ifs at hs with ha
    obtain ⟨h, hh, rfl⟩ := any_route_iff.mp ha
    obtain ⟨r, hr, hf⟩ := hw.use hh
    rw [hr, Option.map_some, Option.some.injEq] at hs
    rw [← hs]
    exact hf

/-- A router is faithful after every run of clean calls. -/
theorem Reaches.faithful {ok : World H → Call H → Prop} (hok : ∀ w c, ok w c → Clean w c)
    {start : World H} (hr : Reaches ok start w) (hs : Faithful start) : Faithful w := by
  induction hr with
  | start => exact hs
  | step _ hc hstep ih => exact ih.step (hok _ _ hc) hstep

/-! ## Lookups -/

theorem Looks.map {W : Type v} {φ : V → W} {T : Table V} {s o : Option V}
    (h : Looks T s path o) : Looks (T.map φ) (s.map φ) path (o.map φ) := by
  cases h with
  | static hs => exact .static (by rw [hs]; rfl)
  | root hs hq =>
    rw [← valueAt_map]
    exact .root (by rw [hs]; rfl) hq
  | walk hs hq ha hx => exact .walk (by rw [hs]; rfl) hq (answers_map.mpr ha) hx.map
  | miss hs hq hn =>
    refine .miss (by rw [hs]; rfl) hq fun e he hm hr => ?_
    obtain ⟨x, hx, -⟩ := mem_map_table.mp he
    exact hn _ hx hm (by rwa [reachable_map] at hr)

theorem Looks.exists_handle {x : RouteCell H}
    (hl : Looks (tableOf handles m) (staticFor handles m path) path (some x)) :
    ∃ h ∈ handles, h.route.method = m ∧ h.cell = x := by
  have hv : ∀ {p}, valueAt (tableOf handles m) p = some x →
      ∃ h ∈ handles, h.route.method = m ∧ h.cell = x := by
    intro p hx
    obtain ⟨p₀, hmem, -⟩ := mem_after.mp (mem_of_lastHere hx)
    obtain ⟨h, hh, hm, -, hc⟩ := mem_tableOf.mp hmem
    exact ⟨h, hh, hm, hc⟩
  generalize ho : some x = o at hl
  cases hl with
  | static hs =>
    cases ho
    unfold staticFor at hs
    split_ifs at hs
    obtain ⟨h, hf, hc⟩ := Option.map_eq_some_iff.mp hs
    exact ⟨h, (handleFor_mem hf).1, (handleFor_mem hf).2.1, hc⟩
  | root _ _ => exact hv ho.symm
  | walk _ _ _ hx =>
    cases ho
    exact hv hx.2
  | miss _ _ _ => cases ho

namespace Faithful

variable {w : World H}

/-- `find` is a lookup on what the owners expect. -/
theorem find_looks (hw : Faithful w) (m path : Bytes) {params : Params} :
    ∃ o, Looks (tableOf w.handles m) (staticFor w.handles m path) path o ∧
      Shows (fun f x => f = RouteCell.found x) (w.router.find m path params).1 o := by
  refine hw.stands.find_looks _ ?_ wellFormed_tableOf ?_
  · intro n x hx
    obtain ⟨hs, hhs, rfl⟩ := Option.map_eq_some_iff.mp hx
    simp [Node.found, RouteCell.found, routeCell, hhs]
  · rw [hw.static]
    cases hs : staticFor w.handles m path with
    | none => exact .inr ⟨rfl, rfl⟩
    | some x => exact .inl ⟨x.entry, x, rfl, rfl, rfl⟩

/-- A write through a handle changes what `find` returns for its route and
nothing else. -/
theorem find_change (hw : Faithful w) (hh : h ∈ w.handles) {u : Handle H → Handle H}
    (hu : ∀ h, (u h).route = h.route)
    (hw' : Faithful ⟨r, w.handles.map (Handle.change h.route u)⟩) {m path : Bytes}
    {params : Params} :
    ((w.router.find m path params).1.handlers = none → (r.find m path params).1.handlers = none) ∧
    ((w.router.find m path params).1.handlers.isSome → (r.find m path params).1 =
        if m = h.route.method ∧ (w.router.find m path params).1.fullPath = h.route.path then
          (u h).cell.found else (w.router.find m path params).1) := by
  obtain ⟨o, hl, ho⟩ := hw.find_looks m path
  obtain ⟨o', hl', ho'⟩ := hw'.find_looks m path
  have hlook : o' = if m = h.route.method then o.map (h.rewrite u) else o := by
    simp only [hw.tableOf_change hh hu, hw.staticFor_change hh hu] at hl'
    by_cases hm : m = h.route.method
    · subst hm
      simp only [update_self, if_true] at hl' ⊢
      refine hl'.unique ?_ hl.map
      rintro ⟨p, x⟩ he
      obtain ⟨y, hy, -⟩ := mem_map_table.mp he
      exact wellFormed_tableOf (p, y) hy
    · simp only [update_of_ne hm, hm, if_false] at hl' ⊢
      exact hl'.unique wellFormed_tableOf hl
  cases o with
  | none =>
    have hnone : o' = none := by rw [hlook]; split_ifs <;> rfl
    rw [hnone] at ho'
    have hf : (w.router.find m path params).1.handlers = none := ho
    exact ⟨fun _ => ho', fun hs => by rw [hf] at hs; cases hs⟩
  | some x =>
    have hf : (w.router.find m path params).1 = x.found := ho
    obtain ⟨h', hh', hm', rfl⟩ := hl.exists_handle
    refine ⟨fun hn => (by rw [hf] at hn; cases hn), fun _ => ?_⟩
    rw [hf]
    split_ifs at hlook with hm
    · rw [hlook] at ho'
      have hf' : (r.find m path params).1 = (h.rewrite u h'.cell).found := ho'
      rw [hf', Handle.rewrite]
      have hiff : h'.cell.node = h.route.node ↔ h'.cell.found.fullPath = h.route.path := by
        constructor
        · intro hn
          rw [hw.eq_of_node hh' hh (hm'.trans hm) hn]
          rfl
        · intro hp
          have hp' : h'.route.path = h.route.path := hp
          rw [hw.eq_of_alike hh' hh (hm'.trans hm) (by rw [hp']; exact refl _)]
          rfl
      split
      · rename_i hn
        rw [if_pos ⟨hm, hiff.mp hn⟩]
      · rename_i hn
        rw [if_neg fun e => hn (hiff.mpr e.2)]
    · rw [hlook] at ho'
      rw [if_neg fun e => hm e.1]
      exact ho'

end Faithful

end Celeris.Routing
