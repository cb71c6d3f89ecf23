import Celeris.Routing.Handles
import Celeris.Routing.Dispatch

/-!
# Dispatch classes per route

`Async` and `Sync` on one route should leave the class of every other route as it
is, and the count of async and adaptive routes should say whether there is one.

The adaptive set is keyed by the pattern alone. A call on a route drops its
pattern from the set, and with it every route that has the same pattern for
another method and is not marked async. `Alone` excludes that.
-/

namespace Celeris.Routing

open Option List Handle Router Function

universe u

variable {H : Type u}

/-- A call on a route whose pattern is in the adaptive set meets no other route
of that pattern that is not marked async. -/
def Alone (w : World H) : Call H → Prop
  | .setAsync route _ => w.router.adaptiveRoutes route.path = true →
      ∀ h ∈ w.handles, h.route.path = route.path → h.route = route ∨ h.async = true
  | _ => True

instance (w : World H) : (c : Call H) → Decidable (Alone w c)
  | .setAsync route _ => inferInstanceAs (Decidable (w.router.adaptiveRoutes route.path = true → _))
  | .add _ => .isTrue trivial
  | .use _ _ => .isTrue trivial

/-- A call on `route` leaves the class of every other route unchanged. -/
structure ClassesKept (w w' : World H) (route : Route) : Prop where
  /-- Requests that another route answers are dispatched as before. -/
  requests : ∀ m path params, (w.router.find m path params).1.handlers.isSome →
    ¬ (m = route.method ∧ (w.router.find m path params).1.fullPath = route.path) →
    w'.router.classOf (w'.router.find m path params).1 =
      w.router.classOf (w.router.find m path params).1
  /-- The cells of the other handles have the class they had. -/
  handles : ∀ h ∈ w.handles, h.route ≠ route →
    w'.router.routeClass h.route = w.router.routeClass h.route

/-- The count is positive just when some route is async or adaptive. -/
def CountsClasses (w : World H) : Prop :=
  0 < w.router.asyncRouteCount ↔ ∃ h ∈ w.handles, w.router.routeClass h.route ≠ some .sync

/-! ## What the count and the adaptive set stand for -/

def Handle.counts (h : Handle H) : Bool := h.async || h.adaptive

/-- The adaptive set holds the patterns of the handles that still follow the
default, and the count counts these and the async ones. -/
structure Counted (w : World H) : Prop where
  adaptive : ∀ p, w.router.adaptiveRoutes p = true ↔
    ∃ h ∈ w.handles, h.adaptive = true ∧ h.route.path = p
  own : ∀ h ∈ w.handles, h.adaptive = true → h.async = false
  count : w.router.asyncRouteCount = w.handles.countP Handle.counts

variable {w : World H} {h : Handle H} {want : Bool} {w' : World H} {r : Router H}

theorem Counted.add (hw : Counted w) {g : Registration H}
    (hs : w.step (.add g) = some w') : Counted w' := by
  obtain ⟨⟨r, route⟩, ha, rfl⟩ := map_eq_some_iff.mp hs
  obtain ⟨hset, hc⟩ := addRouteWithAsync_classes ha
  obtain ⟨-, -, rfl, -⟩ := addRouteWithAsync_spec ha
  have hflag : w.router.flagFor g.setting =
      (!w.router.follows g.setting && w.router.resolveAsync g.setting) := by
    simp only [flagFor, follows]
    cases decide (g.setting = .default) && w.router.defaultAsync <;> simp
  have hf : (decide (g.setting = .default) && w.router.defaultAsync) = w.router.follows g.setting :=
    rfl
  constructor
  · intro p
    simp only [hset, mem_append, mem_singleton, or_and_right, exists_or, exists_eq_left, hf]
    cases w.router.follows g.setting with
    | false =>
      simp only [Bool.false_eq_true, if_false, false_and, or_false]
      exact hw.adaptive p
    | true =>
      simp only [if_true, true_and]
      by_cases hp : p = g.pattern
      · subst hp
        simp
      · rw [update_of_ne hp, hw.adaptive p]
        simp [Ne.symm hp]
  · rw [forall_mem_append, forall_mem_singleton]
    refine ⟨hw.own, fun hf => ?_⟩
    have hf' : w.router.follows g.setting = true := hf
    simp [hflag, hf']
  · rw [hc, hw.count, countP_append, countP_singleton]
    simp only [counts, hflag, hf]
    cases w.router.follows g.setting <;> cases w.router.resolveAsync g.setting <;> rfl

/-- A change through a handle changes this handle and no other. -/
theorem Faithful.map_change (hw : Faithful w) (hh : h ∈ w.handles)
    {u : Handle H → Handle H} : ∃ A B, w.handles = A ++ h :: B ∧
      w.handles.map (Handle.change h.route u) = A ++ u h :: B := by
  obtain ⟨A, B, hAB⟩ := append_of_mem hh
  refine ⟨A, B, hAB, ?_⟩
  have hap := hw.apart
  rw [hAB, pairwise_append, pairwise_cons] at hap
  have hk {l : List (Handle H)} (hl : ∀ a ∈ l, a.route ≠ h.route) : l.map (change h.route u) = l :=
    (map_congr_left fun a ha => if_neg (hl a ha)).trans (map_id l)
  rw [hAB, map_append, map_cons, hk, hk, change, if_pos rfl]
  · exact fun b hb e => hap.2.1.1 b hb (by rw [e]) (by rw [e]; exact Alike.refl _)
  · exact fun a ha e => hap.2.2 a ha h mem_cons_self (by rw [e]) (by rw [e]; exact Alike.refl _)

/-- What drops out of the adaptive set with a call is the called route. -/
theorem Counted.adaptive_self (hc : Counted w)
    (hal : Alone w (.setAsync h.route want)) (hw : Faithful w) (hh : h ∈ w.handles) :
    w.router.adaptiveRoutes h.route.path = h.adaptive := by
  rw [Bool.eq_iff_iff]
  constructor
  · intro hs
    obtain ⟨h₀, hh₀, ho, hp⟩ := (hc.adaptive _).mp hs
    rcases hal hs h₀ hh₀ hp with hr | ha
    · rw [← hw.eq_of_alike hh₀ hh (by rw [hr]) (by rw [hr]; exact Alike.refl _)]
      exact ho
    · rw [hc.own h₀ hh₀ ho] at ha
      cases ha
  · exact fun ho => (hc.adaptive _).mpr ⟨h, hh, ho, rfl⟩

theorem Counted.setAsync (hc : Counted w) (hw : Faithful w)
    (hh : h ∈ w.handles) (hal : Alone w (.setAsync h.route want)) :
    Counted ⟨w.router.setAsync h.route want,
      w.handles.map (Handle.change h.route (Handle.flagged want))⟩ := by
  obtain ⟨d, hd, -, -, hasync⟩ := hw.cell_eq hh
  obtain ⟨hset, hco⟩ := setAsync_classes hd
  obtain ⟨A, B, hAB, hmap⟩ := hw.map_change hh
  have hs := hc.adaptive_self hal hw hh
  have hl : ∀ p, (∃ h' ∈ w.handles.map (change h.route (flagged want)), h'.adaptive = true ∧
    h'.route.path = p) ↔
      ∃ h' ∈ w.handles, h'.route ≠ h.route ∧ h'.adaptive = true ∧ h'.route.path = p := by
    intro p
    simp only [List.mem_map, exists_exists_and_eq_and]
    refine exists_congr fun h' => and_congr_right fun _ => ?_
    by_cases hr : h'.route = h.route <;> simp [change, flagged, hr]
  constructor
  · intro p
    rw [hl, hset]
    by_cases hp : p = h.route.path
    · subst hp
      refine iff_of_false (by simp) ?_
      rintro ⟨h', hh', hr, hown, hp⟩
      rcases hal ((hc.adaptive _).mpr ⟨h', hh', hown, hp⟩) h' hh' hp with hr' | ha
      · exact hr hr'
      · rw [hc.own h' hh' hown] at ha
        cases ha
    · rw [update_of_ne hp, hc.adaptive p]
      refine exists_congr fun h' => and_congr_right fun _ => ?_
      exact ⟨fun h => ⟨fun e => hp (by rw [← h.2, e]), h⟩, fun h => h.2⟩
  · rw [hmap, forall_mem_append, forall_mem_cons]
    have hown := hc.own
    rw [hAB, forall_mem_append, forall_mem_cons] at hown
    exact ⟨hown.1, fun e => (by cases e), hown.2.2⟩
  · rw [hco, hc.count, hs, hasync, hmap, hAB]
    simp only [countP_append, countP_cons, counts, flagged]
    rcases h.async.eq_false_or_eq_true with ha | ha <;>
      rcases h.adaptive.eq_false_or_eq_true with ho | ho <;> cases want <;>
      (simp [ha, ho]; try omega)

theorem Counted.use (hc : Counted w) (hw : Faithful w) (hh : h ∈ w.handles) {middleware : List H}
    (hr : w.router.use h.route middleware = some r) :
    Counted ⟨r, w.handles.map (Handle.change h.route (Handle.used middleware))⟩ := by
  obtain ⟨hs, hco⟩ := use_classes hr
  obtain ⟨A, B, hAB, hm⟩ := hw.map_change hh
  constructor
  · intro p
    rw [hs, hc.adaptive p, hm, hAB]
    simp only [mem_append, mem_cons, or_and_right, exists_or, exists_eq_left]
    rfl
  · rw [hm, forall_mem_append, forall_mem_cons]
    have ho := hc.own
    rw [hAB, forall_mem_append, forall_mem_cons] at ho
    exact ho
  · rw [hco, hc.count, hm, hAB]
    simp only [countP_append, countP_cons]
    rfl

/-! ## Runs -/

theorem Counted.step (hc : Counted w) (hw : Faithful w) {c : Call H}
    (hal : Alone w c) (hs : w.step c = some w') : Counted w' := by
  cases c with
  | add g => exact hc.add hs
  | setAsync route want =>
    simp only [World.step] at hs
    split_ifs at hs with ha
    obtain ⟨h, hh, rfl⟩ := any_route_iff.mp ha
    rw [← some.inj hs]
    exact hc.setAsync hw hh hal
  | use route middleware =>
    simp only [World.step] at hs
    split_ifs at hs with ha
    obtain ⟨h, hh, rfl⟩ := any_route_iff.mp ha
    obtain ⟨r, hr, rfl⟩ := map_eq_some_iff.mp hs
    exact hc.use hw hh hr

theorem Reaches.counted {ok : World H → Call H → Prop} (hok : ∀ w c, ok w c → Clean w c ∧ Alone w c)
    {start : World H}
    (hr : Reaches ok start w) (hs : Faithful start) (hc : Counted start) : Counted w := by
  induction hr with
  | start => exact hc
  | step hr' hc' hstep ih =>
    exact ih.step (hr'.faithful (fun w c h => (hok w c h).1) hs) (hok _ _ hc').2 hstep

theorem Faithful.routeClass_eq (hw : Faithful w) (hh : h ∈ w.handles) :
    w.router.routeClass h.route = some (w.router.classOf h.cell.found) := by
  obtain ⟨d, hd, hhs, hp, ha⟩ := hw.cell_eq hh
  rw [routeClass, hd, map_some, hhs, hp, ha]
  rfl

theorem classOf_cell : r.classOf h.cell.found =
    if h.async then .async else if r.adaptiveRoutes h.route.path then .adaptive else .sync := rfl

theorem Counted.countsClasses (hc : Counted w) (hw : Faithful w) : CountsClasses w := by
  rw [CountsClasses, hc.count, countP_pos_iff]
  constructor
  · rintro ⟨h, hh, hco⟩
    refine ⟨h, hh, ?_⟩
    rw [hw.routeClass_eq hh, classOf_cell]
    rcases Bool.or_eq_true _ _ ▸ hco with ha | ho
    · simp [ha]
    · have hs := (hc.adaptive _).mpr ⟨h, hh, ho, rfl⟩
      split_ifs <;> simp
  · rintro ⟨h, hh, hcl⟩
    rw [hw.routeClass_eq hh, classOf_cell] at hcl
    by_cases ha : h.async = true
    · exact ⟨h, hh, by simp [counts, ha]⟩
    · by_cases hs : w.router.adaptiveRoutes h.route.path = true
      · obtain ⟨h₀, hh₀, ho, -⟩ := (hc.adaptive _).mp hs
        exact ⟨h₀, hh₀, by simp [counts, ho]⟩
      · simp [ha, hs] at hcl

/-- A call on one route leaves the class of another route's cell as it is. -/
theorem Faithful.classOf_setAsync (hw : Faithful w) {h' : Handle H}
    (hh : h ∈ w.handles) (hh' : h' ∈ w.handles) (hne : h'.route ≠ h.route)
    (hal : Alone w (.setAsync h.route want)) :
    (w.router.setAsync h.route want).classOf h'.cell.found = w.router.classOf h'.cell.found := by
  obtain ⟨d, hd, -, -, -⟩ := hw.cell_eq hh
  obtain ⟨hs, -⟩ := setAsync_classes hd
  rw [classOf_cell, classOf_cell, hs]
  by_cases hp : h'.route.path = h.route.path
  · rw [hp, update_self]
    cases ha : w.router.adaptiveRoutes h.route.path with
    | false => rfl
    | true =>
      rcases hal ha h' hh' hp with hr | hasync
      · exact absurd hr hne
      · simp [hasync]
  · rw [update_of_ne hp]

theorem Faithful.classesKept (hw : Faithful w) (hh : h ∈ w.handles)
    (hal : Alone w (.setAsync h.route want)) : ClassesKept w ⟨w.router.setAsync h.route want,
      w.handles.map (Handle.change h.route (Handle.flagged want))⟩ h.route := by
  have hw' := hw.setAsync hh want
  constructor
  · intro m path params hs hne
    have hf := (hw.find_change hh (u := flagged want) (fun _ => rfl) hw').2 hs
    rw [if_neg hne] at hf
    obtain ⟨o, hl, ho⟩ := hw.find_looks m path
    cases o with
    | none =>
      have hn : (w.router.find m path params).1.handlers = none := ho
      rw [hn] at hs
      cases hs
    | some x =>
      have hx : (w.router.find m path params).1 = x.found := ho
      obtain ⟨h', hh', hm', rfl⟩ := hl.exists_handle
      simp only [hf, hx] at hne ⊢
      refine hw.classOf_setAsync hh hh' (fun e => hne ⟨by rw [← hm', e], ?_⟩) hal
      exact congrArg Route.path e
  · intro h' hh' hne
    have hmem : h' ∈ w.handles.map (change h.route (flagged want)) := by
      refine mem_map.mpr ⟨h', hh', ?_⟩
      rw [change, if_neg hne]
    rw [hw'.routeClass_eq hmem, hw.routeClass_eq hh', hw.classOf_setAsync hh hh' hne hal]

/-- In every run whose calls are clean and alone, `Async` and `Sync` keep the
classes of the other routes, and the count says whether a route is async or
adaptive. -/
theorem classes_perRoute {defaultAsync noAutoHEAD : Bool} {w : World H}
    (hr : Reaches (fun w c => Fresh w c ∧ Clean w c ∧ Alone w c)
      ⟨newRouter defaultAsync noAutoHEAD, []⟩ w) :
    CountsClasses w ∧ ∀ route want w', Alone w (.setAsync route want) →
      w.step (.setAsync route want) = some w' → ClassesKept w w' route := by
  have hw : Faithful w := hr.faithful (fun _ _ h => h.2.1) faithful_newRouter
  have hc : Counted w :=
    hr.counted (fun _ _ h => h.2) faithful_newRouter ⟨by simp [newRouter], by simp, rfl⟩
  refine ⟨hc.countsClasses hw, fun route want w' hal hs => ?_⟩
  simp only [World.step] at hs
  split_ifs at hs with ha
  obtain ⟨h, hh, rfl⟩ := any_route_iff.mp ha
  rw [← some.inj hs]
  exact hw.classesKept hh hal

/-- Splits of static routes are not clean either. A pattern that ends where the cell of one was
split shares the cell with it, and `Sync` on both takes one route off the count. -/
example : ∃ w : World Nat,
    Reaches (fun w c => Fresh w c ∧ Alone w c) ⟨newRouter false false, []⟩ w ∧
      w.router.asyncRouteCount = 1 ∧
      ∀ h ∈ w.handles, w.router.classOf (w.router.find h.route.method h.route.path []).1 = .sync :=
  exists_reaches [.add ⟨ascii "GET", ascii "/abc", [1], .on⟩,
    .add ⟨ascii "GET", ascii "/abd", [2], .default⟩,
    .add ⟨ascii "GET", ascii "/ab", [3], .on⟩, .setAsync ⟨ascii "GET", ascii "/abc", 1⟩ false,
    .setAsync ⟨ascii "GET", ascii "/ab", 1⟩ false] (by decide +kernel)

/-- The handle of `/x` for a method, where `/x` is the first pattern of that
method. -/
def routeX (method : Bytes) (node : Nat) : Route := ⟨method, ascii "/x", node⟩

/-- With the async default on, `Sync` on `GET /x` makes `POST /x` sync too, and
`Sync` on both leaves a count of one. -/
theorem samePattern_not_perRoute :
    ∃ w w' w'' : World Nat, Reaches Fresh ⟨newRouter true false, []⟩ w ∧
      w.step (.setAsync (routeX (ascii "GET") 1) false) = some w' ∧
        ¬ ClassesKept w w' (routeX (ascii "GET") 1) ∧
      w'.step (.setAsync (routeX (ascii "POST") 3) false) = some w'' ∧ ¬ CountsClasses w'' := by
  obtain ⟨w, hr, w', hw', ⟨h, hh, hne, hcl⟩, w'', hw'', hpos, hall⟩ : ∃ w : World Nat,
      Reaches Fresh ⟨newRouter true false, []⟩ w ∧
        ∃ w' ∈ w.step (.setAsync (routeX (ascii "GET") 1) false),
        (∃ h ∈ w.handles, h.route ≠ routeX (ascii "GET") 1 ∧
          w'.router.routeClass h.route ≠ w.router.routeClass h.route) ∧
        ∃ w'' ∈ w'.step (.setAsync (routeX (ascii "POST") 3) false),
          0 < w''.router.asyncRouteCount ∧
          ∀ h ∈ w''.handles, w''.router.routeClass h.route = some .sync :=
    exists_reaches [.add ⟨ascii "GET", ascii "/x", [1], .default⟩,
      .add ⟨ascii "POST", ascii "/x", [2], .default⟩] (by decide +kernel)
  refine ⟨w, w', w'', hr, hw', fun hk => hcl (hk.handles h hh hne), hw'', fun hc => ?_⟩
  obtain ⟨h, hh, hne⟩ := hc.mp hpos
  exact hne (hall h hh)

/-- `Async` on an adaptive route keeps the class of the other. -/
theorem twoPatterns_perRoute : ∃ w : World Nat,
    Reaches (fun w c => Fresh w c ∧ Clean w c ∧ Alone w c) ⟨newRouter true false, []⟩ w ∧
      w.router.asyncRouteCount = 1 ∧ CountsClasses w := by
  obtain ⟨w, hr, hc⟩ : ∃ w : World Nat, Reaches (fun w c => Fresh w c ∧ Clean w c ∧ Alone w c)
      ⟨newRouter true false, []⟩ w ∧ w.router.asyncRouteCount = 1 :=
    exists_reaches [.add ⟨ascii "GET", ascii "/x", [1], .default⟩,
      .add ⟨ascii "POST", ascii "/x", [2], .on⟩,
      .setAsync (routeX (ascii "GET") 1) false] (by decide +kernel)
  exact ⟨w, hr, hc, (classes_perRoute hr).1⟩

end Celeris.Routing
