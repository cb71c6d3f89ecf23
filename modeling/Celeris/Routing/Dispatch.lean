import Celeris.Routing.Table

/-!
# Inline or async (`router.go`)

A request runs inline on the worker unless its route is marked async, or is
adaptive and has been promoted after a blocking run. `routeAsync` decides; a
request that no route matches runs the unmatched chain, which may be promoted
too.

The clock is an argument. That an expired promotion is also dropped from the
map, and the streaks that lead to a promotion, are left out: neither changes
what `isPromoted` answers.
-/

namespace Celeris.Routing

universe u

variable {H : Type u}

/-- `adaptivePromoteTTL`, in nanoseconds. -/
def adaptivePromoteTTL : Int := 5000000000

def unmatchedAdaptiveKey : Bytes := ascii "<unmatched>"

namespace Router

def isPromoted (r : Router H) (now : Int) (fullPath : Bytes) : Bool :=
  match r.promoted fullPath with
  | none => false
  | some t => !(now - t > adaptivePromoteTTL)

def adaptivePromoted (r : Router H) (now : Int) (fullPath : Bytes) : Bool :=
  r.adaptiveRoutes fullPath && r.isPromoted now fullPath

def unmatchedPromoted (r : Router H) (now : Int) : Bool :=
  r.unmatchedAdaptive && r.isPromoted now unmatchedAdaptiveKey

/-- `routeAsync`: whether the request is handed to the async path. -/
def routeAsync (r : Router H) (now : Int) (method path : Bytes) : Bool :=
  match r.staticRoutes.get method path with
  | some e => e.async || r.adaptivePromoted now e.fullPath
  | none =>
    let found := r.find method path []
    let found :=
      if found.1.handlers.isNone ∧ method = ascii "HEAD" then r.findHEADAsGET path found.2 0
      else found
    if found.1.handlers.isNone then r.unmatchedPromoted now
    else found.1.async || r.adaptivePromoted now found.1.fullPath

end Router

/-- How a route is dispatched: on a goroutine, on the worker, or on the worker
until it is seen to block. -/
inductive DispatchClass where
  | async
  | sync
  | adaptive
deriving DecidableEq, Repr

namespace Router

/-- The class of what a lookup found. -/
def classOf (r : Router H) (f : Found H) : DispatchClass :=
  if f.async then .async else if r.adaptiveRoutes f.fullPath then .adaptive else .sync

/-- The class of the cell a handle points to. -/
def routeClass (r : Router H) (route : Route) : Option DispatchClass :=
  (r.cell route).map fun d => r.classOf ⟨d.handlers, d.fullPath, d.async⟩

variable {r : Router H} {route : Route}

/-! ## What a registration and a call change -/

/-- Whether a registration follows the server's default. -/
def follows (r : Router H) (setting : AsyncSetting) : Bool := setting = .default && r.defaultAsync

theorem addRouteWithAsync_classes {r' : Router H} {method path : Bytes} {handlers : List H}
    {setting : AsyncSetting}
    (h : r.addRouteWithAsync method path handlers setting = some (r', route)) :
    r'.adaptiveRoutes = (if r.follows setting then Function.update r.adaptiveRoutes path true
      else r.adaptiveRoutes) ∧
    r'.asyncRouteCount = r.asyncRouteCount +
      (if r.resolveAsync setting || r.follows setting then 1 else 0) := by
  unfold addRouteWithAsync at h
  split_ifs at h <;>
  · obtain ⟨rfl, -⟩ := h
    cases hf : r.follows setting <;> cases hr : r.resolveAsync setting <;>
      simp_all [follows, setStaticEntry]

theorem setAsync_classes {d : NodeData H} (hd : r.cell route = some d) {want : Bool} :
    (r.setAsync route want).adaptiveRoutes = Function.update r.adaptiveRoutes route.path false ∧
    (r.setAsync route want).asyncRouteCount =
      if r.adaptiveRoutes route.path || d.async then
        (if want then r.asyncRouteCount else r.asyncRouteCount - 1)
      else r.asyncRouteCount + (if want then 1 else 0) := by
  unfold setAsync
  simp only [hd]
  cases ha : r.adaptiveRoutes route.path with
  | true => split <;> simp [setStaticEntry, write]
  | false =>
    have hs : Function.update r.adaptiveRoutes route.path false = r.adaptiveRoutes := by
      rw [← ha, Function.update_eq_self]
    rw [hs]
    split <;> cases hda : d.async <;> cases want <;> simp [setStaticEntry, write]

theorem use_classes {r' : Router H} {middleware : List H} (h : r.use route middleware = some r') :
    r'.adaptiveRoutes = r.adaptiveRoutes ∧ r'.asyncRouteCount = r.asyncRouteCount := by
  unfold use at h
  split at h
  · cases h
  · split at h
    · cases h
    · split at h <;> cases h <;> exact ⟨rfl, rfl⟩

end Router

end Celeris.Routing
