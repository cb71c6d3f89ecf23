import Celeris.Routing.Handles

/-!
# Route handles stay valid

After any run of registrations, `Async`/`Sync` and `Use`, a handle should still
point to the cell its route is served from, `find` should report the chain and
the flag set last, and `Use` should change that route's chain and no other.

A registration that splits a cell moves its chain to a new cell below, while the
handle still points to the upper half and the flag stays there. Where no
registration splits a cell that carries a chain, handles stay valid.
-/

namespace Celeris.Routing

open Registration

universe u

variable {H : Type u}

/-- The registration a handle stands for, with the chain it has now. -/
def Handle.registration (h : Handle H) : Registration H where
  method := h.route.method
  pattern := h.route.path
  chain := h.chain

def registrations (handles : List (Handle H)) : List (Registration H) :=
  handles.map Handle.registration

/-- The pattern of the handle matches the path, and no other does. -/
def Only (handles : List (Handle H)) (h : Handle H) (path : Bytes) : Prop :=
  h.registration.Covers h.route.method path ∧
    ∀ h' ∈ handles, h'.registration.Covers h.route.method path → h'.route.path = h.route.path

/-- What the owners of handles may expect, for lookups of the paths in `asked`. -/
structure HandlesValid (w : World H) (asked : Bytes → Bytes → Prop) : Prop where
  /-- The handle's cell holds the chain, the pattern and the flag set last. -/
  node : ∀ h ∈ w.handles, ∃ d, w.router.cell h.route = some d ∧ d.handlers = some h.chain ∧
    d.fullPath = h.route.path ∧ d.async = h.async
  /-- These are what `find` returns for a path that only this pattern matches. -/
  found : ∀ h ∈ w.handles, ∀ path params, asked h.route.method path → Only w.handles h path →
    (w.router.find h.route.method path params).1 = ⟨some h.chain, h.route.path, h.async⟩
  /-- `Use` does not panic, and changes the chain of this route and nothing else. -/
  use : ∀ h ∈ w.handles, ∀ middleware, ∃ r, w.router.use h.route middleware = some r ∧
    ∀ m path params,
      ((w.router.find m path params).1.handlers = none → (r.find m path params).1.handlers = none) ∧
      ((w.router.find m path params).1.handlers.isSome → (r.find m path params).1 =
        if m = h.route.method ∧ (w.router.find m path params).1.fullPath = h.route.path then
          ⟨some (withMiddleware h.chain middleware), h.route.path, h.async⟩
        else (w.router.find m path params).1)

variable {handles : List (Handle H)}

theorem patternsFor_registrations {m : Bytes} : patternsFor (registrations handles) m =
      (tableOf handles m).map fun x => (x.chain, x.path) := by
  simp only [patternsFor, registrations, tableOf, Table.map, List.filter_map, List.map_map]
  rfl

theorem mem_registrations {h : Handle H} (hh : h ∈ handles) :
    h.registration ∈ registrations handles := List.mem_map_of_mem hh

/-- A static pattern without double slashes matches itself. -/
theorem covers_of_literal {g : Registration H} {method path : Bytes} (hm : g.method = method)
    (hp : g.pattern = path) (hs : path.head? = some slash)
    (hst : Router.isStaticPath path = true) (hd : hasDouble path = false) :
    g.Covers method path := by
  refine covers_iff.mpr ⟨hm, ?_⟩
  obtain ⟨bs, rfl⟩ := List.head?_eq_some_iff.mp hs
  rw [hp, toks_of_isStaticPath hst, matches_text_iff, collapseFrom, if_pos ⟨rfl, rfl⟩]
  exact collapseFrom_eq_self_iff.mpr hd

namespace Faithful

variable {w : World H}

/-- A path that only one pattern matches leads to its route. -/
theorem find_only (hw : Faithful w) {h : Handle H} (hh : h ∈ w.handles) {path : Bytes}
    (hun : Unhidden (registrations w.handles) h.route.method path) (ho : Only w.handles h path)
    {params : Params} : (w.router.find h.route.method path params).1 = h.cell.found := by
  obtain ⟨o, hl, hshow⟩ := hw.find_looks h.route.method path
  have hcov := (covers_iff.mp ho.1).2
  -- Whatever handle a lookup ends at, if its pattern matches it is this one.
  have ht : ∀ h' ∈ w.handles, h'.route.method = h.route.method →
      Matches (toks h'.route.path) (collapseFrom slash path) → h' = h := by
    intro h' hh' hm hma
    have hp := ho.2 h' hh' (covers_iff.mpr ⟨hm, hma⟩)
    exact hw.eq_of_alike hh' hh hm (by rw [hp]; exact Alike.refl _)
  have hsm : Smallest (registrations w.handles) h.route.method path h.registration := by
    refine ⟨mem_registrations hh, ho.1, fun g hg hc => .inl ?_⟩
    obtain ⟨h', hh', rfl⟩ := List.mem_map.mp hg
    rw [ht h' hh' hc.1 (covers_iff.mp hc).2]
    exact Alike.refl _
  have hr := hun.dead _ hsm
  rw [reached, patternsFor_registrations, reachable_map] at hr
  cases hl with
  | @static x hs =>
    unfold staticFor at hs
    split_ifs at hs with hst
    obtain ⟨h', hf, rfl⟩ := Option.map_eq_some_iff.mp hs
    obtain ⟨hh', hm', hp'⟩ := handleFor_mem hf
    have hd : hasDouble path = false :=
      hun.literal ⟨hst, h'.registration, mem_registrations hh', hm', hp'⟩
    have hc : h'.registration.Covers h.route.method path :=
      covers_of_literal hm' hp' (hp' ▸ hw.slashed h' hh') hst hd
    rw [ht h' hh' hm' (covers_iff.mp hc).2] at hshow
    exact hshow
  | root hs hq =>
    have hroot := restOf_eq_nil_iff.mp hq
    replace hq := (List.cons.inj hroot).2
    have hnil : toks h.route.path = [] := by
      rw [hq] at hcov
      rcases matches_empty hcov with hnil | ⟨n, hstar⟩
      · exact hnil
      · obtain ⟨g, hg, hgm, hgp⟩ :=
          hun.root hroot ⟨h.registration, mem_registrations hh, rfl, n, hstar⟩
        obtain ⟨h', hh', rfl⟩ := List.mem_map.mp hg
        have hp' : h'.route.path = [slash] := hgp
        have heq := ht h' hh' hgm (by rw [hp', hq]; exact .nil)
        rw [← heq, hp']
        rfl
    have hval := (hw.holds hh).2
    rw [hnil] at hval
    rw [hval] at hshow
    exact hshow
  | @walk p x hs hq ha hx =>
    obtain ⟨h', hh', hm', rfl, rfl⟩ := mem_tableOf.mp hx.1
    obtain ⟨g, hg, hle⟩ := hun.exists_le (mem_registrations hh') hm' ha.covers
      (by rw [reached, patternsFor_registrations, reachable_map]; exact ha.reach)
    obtain ⟨h₀, hh₀, rfl⟩ := List.mem_map.mp hg.1
    rw [ht h₀ hh₀ hg.2.1.1 (covers_iff.mp hg.2.1).2, NoLarger, patternsFor_registrations,
      beats_map] at hle
    have hal := hle.resolve_right (ha.best _ (hw.holds hh).1 (hun.matches hsm) hr)
    rw [← hw.eq_of_alike hh hh' hm'.symm hal] at hshow
    exact hshow
  | miss hs hq hn => exact (hn _ (hw.holds hh).1 (hun.matches hsm) hr).elim

end Faithful

/-- In every run whose registrations are clean, route handles stay valid. -/
theorem handlesValid_of_reaches {defaultAsync noAutoHEAD : Bool} {w : World H}
    (hr : Reaches (fun w c => Fresh w c ∧ Clean w c) ⟨newRouter defaultAsync noAutoHEAD, []⟩ w) :
    HandlesValid w (Unhidden (registrations w.handles)) := by
  have hw : Faithful w := hr.faithful (fun _ _ h => h.2) faithful_newRouter
  constructor
  · exact fun h hh => hw.cell_eq hh
  · exact fun h hh path params hun ho => hw.find_only hh hun ho
  · intro h hh middleware
    obtain ⟨r, hr, hw'⟩ := hw.use hh
    refine ⟨r, hr, fun m path params => ?_⟩
    exact hw.find_change hh (u := Handle.used middleware) (fun _ => rfl) hw'

/-- `Use` panics on the handle of `/:id/abc` after `/:id/abd` was registered: the
second registration splits the cell of the first. -/
theorem split_not_handlesValid : ∃ w : World Nat, Reaches Fresh ⟨newRouter false false, []⟩ w ∧
      ¬ HandlesValid w (Unhidden (registrations w.handles)) := by
  obtain ⟨w, hw, h, hh, hp⟩ : ∃ w : World Nat, Reaches Fresh ⟨newRouter false false, []⟩ w ∧
      ∃ h ∈ w.handles, (w.router.use h.route []).isNone = true :=
    exists_reaches [.add ⟨ascii "GET", ascii "/:id/abc", [1], .on⟩,
      .add ⟨ascii "GET", ascii "/:id/abd", [2], .on⟩] (by decide +kernel)
  refine ⟨w, hw, fun hv => ?_⟩
  obtain ⟨r, hr, -⟩ := hv.use h hh []
  rw [hr] at hp
  cases hp

/-- The handle of `/:id/abc` stays valid when routes are registered beside it. -/
theorem beside_handlesValid : ∃ w : World Nat,
    Reaches (fun w c => Fresh w c ∧ Clean w c) ⟨newRouter false false, []⟩ w ∧
      w.handles.map Handle.chain = [[7, 1], [2], [3]] ∧
        HandlesValid w (Unhidden (registrations w.handles)) := by
  obtain ⟨w, hr, hc⟩ : ∃ w : World Nat, Reaches (fun w c => Fresh w c ∧ Clean w c)
    ⟨newRouter false false, []⟩ w ∧
      w.handles.map Handle.chain = [[7, 1], [2], [3]] :=
    exists_reaches [.add ⟨ascii "GET", ascii "/:id/abc", [1], .on⟩,
      .add ⟨ascii "GET", ascii "/:id/xyz", [2], .off⟩,
      .add ⟨ascii "GET", ascii "/files/*rest", [3], .default⟩,
        .setAsync ⟨ascii "GET", ascii "/:id/abc", 3⟩ false,
      .use ⟨ascii "GET", ascii "/:id/abc", 3⟩ [7]] (by decide +kernel)
  exact ⟨w, hr, hc, handlesValid_of_reaches hr⟩

end Celeris.Routing
