import Celeris.Routing.Tree
import Mathlib.Logic.Function.Basic

/-!
# The routing table (`router.go`)

The router keeps, for every method, a trie and a map from fully static patterns
to their chains. The seven standard methods live in arrays, every other method
in a map; `methodIndex` decides. A Go map is a function to `Option` here: a
missing key and a nil map both read as `none`.

A registration that panics in the source is `none` in the model.
-/

namespace Celeris.Routing

universe u

variable {H : Type u}

/-! ## Methods -/

/-- `methodIndex`: the array index of a standard method; `none` is the source's
`-1`. -/
def methodIndex (method : Bytes) : Option (Fin 7) :=
  if method = ascii "GET" then some 0
  else if method = ascii "POST" then some 1
  else if method = ascii "PUT" then some 2
  else if method = ascii "DELETE" then some 3
  else if method = ascii "PATCH" then some 4
  else if method = ascii "HEAD" then some 5
  else if method = ascii "OPTIONS" then some 6
  else none

/-- A value for every method: an array for the standard ones and a map for the
others. -/
structure PerMethod (α : Type u) where
  standard : Fin 7 → α
  custom : Bytes → α

namespace PerMethod

variable {α : Type u}

def const (a : α) : PerMethod α := ⟨fun _ => a, fun _ => a⟩

def get (t : PerMethod α) (method : Bytes) : α :=
  match methodIndex method with
  | some i => t.standard i
  | none => t.custom method

def set (t : PerMethod α) (method : Bytes) (a : α) : PerMethod α :=
  match methodIndex method with
  | some i => { t with standard := Function.update t.standard i a }
  | none => { t with custom := Function.update t.custom method a }

end PerMethod

/-! ## The router -/

/-- `asyncSetting`: the dispatch override a registration carries. -/
inductive AsyncSetting where
  | default
  | on
  | off
deriving DecidableEq, Repr

/-- `staticEntry`: the chain, pattern and dispatch flag of a fully static
route. -/
structure StaticEntry (H : Type u) where
  handlers : List H
  fullPath : Bytes
  async : Bool

/-- What `find` returns for a hit in the static map. -/
def StaticEntry.found (e : StaticEntry H) : Found H := ⟨some e.handlers, e.fullPath, e.async⟩

/-- `router`, without the named routes and the adaptive streaks. `next` is the
next unused node identity. `promoted` maps an adaptive pattern to the time of
its promotion. -/
structure Router (H : Type u) where
  trees : PerMethod (Option (Node H)) := .const none
  staticRoutes : PerMethod (Bytes → Option (StaticEntry H)) := .const fun _ => none
  defaultAsync : Bool := false
  noAutoHEAD : Bool := false
  asyncRouteCount : Nat := 0
  adaptiveRoutes : Bytes → Bool := fun _ => false
  unmatchedAdaptive : Bool := false
  promoted : Bytes → Option Int := fun _ => none
  next : Nat := 0

/-- `newRouter`, with the server default seeded by `New`. -/
def newRouter (defaultAsync noAutoHEAD : Bool) : Router H :=
  { defaultAsync := defaultAsync, noAutoHEAD := noAutoHEAD }

/-- `Route`: the handle a registration returns; `node` is the identity of the
cell it points to. -/
structure Route where
  method : Bytes
  path : Bytes
  node : Nat
deriving DecidableEq, Repr

namespace Router

def resolveAsync (r : Router H) : AsyncSetting → Bool
  | .on => true
  | .off => false
  | .default => r.defaultAsync

def isStaticPath (path : Bytes) : Bool := path.all fun b => b ≠ colon ∧ b ≠ star

def setStaticEntry (r : Router H) (method path : Bytes) (e : StaticEntry H) : Router H :=
  { r with
    staticRoutes := r.staticRoutes.set method
      (Function.update (r.staticRoutes.get method) path (some e)) }

/-- The root of the trie of a method, created if there is none. -/
def rootOrNew (r : Router H) (method : Bytes) : Node H × Nat :=
  match r.trees.get method with
  | some root => (root, r.next)
  | none => (.mk { id := r.next, path := [slash] } [], r.next + 1)

/-- `addRouteWithAsync`. The pattern `/` has no segments, and its branch of the
source does what the loop over no segments does. -/
def addRouteWithAsync (r : Router H) (method path : Bytes) (handlers : List H)
    (setting : AsyncSetting) : Option (Router H × Route) :=
  if path.head? ≠ some slash then none
  else if !validatePath path then none
  else
    let adaptive : Bool := setting = .default && r.defaultAsync
    let async := if adaptive then false else r.resolveAsync setting
    let adaptiveRoutes :=
      if adaptive then Function.update r.adaptiveRoutes path true else r.adaptiveRoutes
    let root := r.rootOrNew method
    let placed := insertSegments handlers path async (splitPath path) root.2 root.1
    let r' : Router H :=
      { r with
        adaptiveRoutes := adaptiveRoutes
        trees := r.trees.set method (some placed.node)
        next := placed.next
        asyncRouteCount := if async || adaptive then r.asyncRouteCount + 1
          else r.asyncRouteCount }
    let r'' := if isStaticPath path then r'.setStaticEntry method path ⟨handlers, path, async⟩
      else r'
    some (r'', ⟨method, path, placed.target⟩)

/-! ## Lookup -/

/-- `find`: the chain, pattern and flag of the route registered for a method and
path, and the parameters after the walk. -/
def find (r : Router H) (method path : Bytes) (params : Params) : Found H × Params :=
  match r.staticRoutes.get method path with
  | some e => (e.found, params)
  | none =>
    match r.trees.get method with
    | none => (.miss, params)
    | some root =>
      let path := cleanPath path
      if path = [slash] then (root.found, params)
      else if 1 < path.length ∧ path.head? = some slash then search root (path.drop 1) params
      else search root path params

/-- `findHEADAsGET`: the GET route for a HEAD request; `n` is how many
parameters there were before the walk that missed. -/
def findHEADAsGET (r : Router H) (path : Bytes) (params : Params) (n : Nat) : Found H × Params :=
  if r.noAutoHEAD then (.miss, params) else r.find (ascii "GET") path (params.take n)

/-! ## Writing through a route handle -/

end Router

mutual

def Node.cell (id : Nat) : Node H → Option (NodeData H)
  | .mk d cs => if d.id = id then some d else cellIn id cs

def cellIn (id : Nat) : List (Node H) → Option (NodeData H)
  | [] => none
  | c :: cs => (c.cell id).or (cellIn id cs)

end

mutual

/-- Write to the cell of a subtree with a given identity. -/
def Node.modify (id : Nat) (f : NodeData H → NodeData H) : Node H → Node H
  | .mk d cs => .mk (if d.id = id then f d else d) (modifyIn id f cs)

/-- Write to the cell of a list of subtrees with a given identity. -/
def modifyIn (id : Nat) (f : NodeData H → NodeData H) : List (Node H) → List (Node H)
  | [] => []
  | c :: cs => c.modify id f :: modifyIn id f cs

end

namespace Router

def cell (r : Router H) (route : Route) : Option (NodeData H) :=
  (r.trees.get route.method).bind (Node.cell route.node)

/-- Write to the cell a route handle points to. -/
def write (r : Router H) (route : Route) (f : NodeData H → NodeData H) : Router H :=
  { r with
    trees := r.trees.set route.method
      ((r.trees.get route.method).map (Node.modify route.node f)) }

/-- `Route.Use`; `none` is its panic on a route with no handlers. -/
def use (r : Router H) (route : Route) (middleware : List H) : Option (Router H) :=
  match r.cell route with
  | none => none
  | some d =>
    match d.handlers.bind List.getLast? with
    | none => none
    | some final =>
      let chain := (d.handlers.getD []).dropLast ++ middleware ++ [final]
      let r' := r.write route fun d => { d with handlers := some chain }
      match r.staticRoutes.get route.method route.path with
      | some _ => some (r'.setStaticEntry route.method route.path ⟨chain, route.path, d.async⟩)
      | none => some r'

/-- `Route.setAsync`, without the adaptive streaks. -/
def setAsync (r : Router H) (route : Route) (want : Bool) : Router H :=
  match r.cell route with
  | none => r
  | some d =>
    let r₁ : Router H :=
      if r.adaptiveRoutes route.path then
        { r with
          adaptiveRoutes := Function.update r.adaptiveRoutes route.path false
          promoted := Function.update r.promoted route.path none
          asyncRouteCount := if want then r.asyncRouteCount else r.asyncRouteCount - 1 }
      else if d.async ≠ want then
        { r with asyncRouteCount :=
            if want then r.asyncRouteCount + 1 else r.asyncRouteCount - 1 }
      else r
    let r₂ := r₁.write route fun d => { d with async := want }
    match r.staticRoutes.get route.method route.path with
    | some e => r₂.setStaticEntry route.method route.path { e with async := want }
    | none => r₂

end Router

end Celeris.Routing
