import Celeris.Data.Bytes

/-!
# The radix trie of the router (`router_tree.go`)

One trie per HTTP method. A Go `*node` is a mutable cell that other parts of
the router keep pointers to, so every node carries an identity: `id` plays the
part of the address, and allocating a node takes the next unused one. A trie
never shares nodes, so it is an ordinary tree of such cells.

`insertChild` of the source returns a pointer to a child and its caller goes on
mutating what it points to. Here `insertChild` takes the rest of the work as a
continuation, applied to the child in place: what the continuation returns
takes the child's position under its parent.
-/

namespace Celeris.Routing

universe u

variable {H : Type u}

/-! ## Nodes -/

/-- What an edge of the trie stands for. -/
inductive NodeType where
  | static
  | param
  | catchAll
deriving DecidableEq, Repr

/-- The order of the constants of `nodeType`: children are kept sorted by it. -/
def NodeType.rank : NodeType → Nat
  | .static => 0
  | .param => 1
  | .catchAll => 2

/-- The fields of a `node` other than its children. `handlers` is `none` for a
nil slice. -/
structure NodeData (H : Type u) where
  id : Nat
  nType : NodeType := .static
  path : Bytes := []
  paramKey : Bytes := []
  handlers : Option (List H) := none
  fullPath : Bytes := []
  async : Bool := false

/-- A node of the trie with the nodes below it. -/
inductive Node (H : Type u) where
  | mk (data : NodeData H) (children : List (Node H))

namespace Node

def data : Node H → NodeData H
  | .mk d _ => d

def children : Node H → List (Node H)
  | .mk _ cs => cs

def nType (n : Node H) : NodeType := n.data.nType

def path (n : Node H) : Bytes := n.data.path

def withChildren (n : Node H) (cs : List (Node H)) : Node H := .mk n.data cs

variable {d : NodeData H} {cs : List (Node H)}

@[simp] theorem data_mk : (mk d cs).data = d := rfl
@[simp] theorem children_mk (d : NodeData H) (cs : List (Node H)) : (mk d cs).children = cs := rfl
@[simp] theorem nType_mk : (mk d cs).nType = d.nType := rfl
@[simp] theorem path_mk : (mk d cs).path = d.path := rfl
@[simp] theorem withChildren_mk {ds : List (Node H)} : (mk d cs).withChildren ds = mk d ds := rfl

end Node

/-! ## Cutting a pattern into segments -/

/-- One piece of a pattern: `text` keeps the `:` or `*` of a parameter. -/
structure Segment where
  kind : NodeType
  text : Bytes
deriving DecidableEq, Repr

/-- The index of the first `/`, or the length. -/
def findSegmentEnd : Bytes → Nat
  | [] => 0
  | b :: bs => if b = slash then 0 else findSegmentEnd bs + 1

/-- The index of the first `:` or `*`, or the length: where a static piece
ends. -/
def findSpecial : Bytes → Nat
  | [] => 0
  | b :: bs => if b = colon ∨ b = star then 0 else findSpecial bs + 1

/-- The loop of `splitPath`. Every round takes at least one byte off, so a
budget of as many rounds as there are bytes never runs out. -/
def splitLoop : Nat → Bytes → List Segment
  | 0, _ => []
  | _ + 1, [] => []
  | fuel + 1, b :: bs =>
    if b = colon then
      let stop := findSegmentEnd (b :: bs)
      ⟨.param, (b :: bs).take stop⟩ ::
        match (b :: bs).drop stop with
        | [] => []
        | c :: rest =>
          if c = slash then ⟨.static, [slash]⟩ :: splitLoop fuel rest
          else splitLoop fuel (c :: rest)
    else if b = star then [⟨.catchAll, b :: bs⟩]
    else
      let stop := findSpecial (b :: bs)
      ⟨.static, (b :: bs).take stop⟩ :: splitLoop fuel ((b :: bs).drop stop)

/-- The segments of a pattern; the leading `/` belongs to the root. -/
def splitPath (path : Bytes) : List Segment :=
  if path = [slash] then [] else splitLoop path.length (path.drop 1)

/-- The loop of `validatePath` from byte `i` on: `true` when it returns, `false`
when it panics on an empty parameter name, an empty catch-all name or a
catch-all that is not the last segment. The scan goes on byte by byte inside a
parameter name. -/
def validatePath : Bytes → Bool
  | [] => true
  | b :: bs =>
    if b = colon then findSegmentEnd bs ≠ 0 && validatePath bs
    else if b = star then bs ≠ [] && !bs.contains slash
    else validatePath bs

/-! ## Insertion -/

/-- Split a list at the first element satisfying `p`: the loop
`for _, ch := range … { if p(ch) { … } }` of the source, keeping what stands
before and after the element it stops at. -/
def splitFirst {α : Type u} (p : α → Bool) : List α → Option (List α × α × List α)
  | [] => none
  | a :: l =>
    if p a then some ([], a, l)
    else (splitFirst p l).map fun r => (a :: r.1, r.2.1, r.2.2)

def longestPrefix : Bytes → Bytes → Nat
  | a :: as, b :: bs => if a = b then longestPrefix as bs + 1 else 0
  | _, _ => 0

/-- Insert `child` behind every child of its own kind or an earlier one. -/
def insertSorted : List (Node H) → Node H → List (Node H)
  | [], child => [child]
  | c :: cs, child =>
    if c.nType.rank ≤ child.nType.rank then c :: insertSorted cs child else child :: c :: cs

/-- The lower half of a split node: the text from `cp` on, with the children,
chain and pattern of the node. `async` is not among the fields the source
copies. -/
def lowerHalf (id cp : Nat) (ch : Node H) : Node H :=
  .mk { id := id
        path := ch.path.drop cp
        handlers := ch.data.handlers
        nType := ch.data.nType
        paramKey := ch.data.paramKey
        fullPath := ch.data.fullPath } ch.children

/-- Split the text of a node at `cp`: the cell keeps the upper half, and a new
cell below it takes the rest. -/
def splitNode (id cp : Nat) (ch : Node H) : Node H :=
  .mk { ch.data with path := ch.path.take cp, handlers := none, fullPath := [] }
    [lowerHalf id cp ch]

/-- A subtree after an insertion: the cell that the inserted route ended at, and
the next unused identity. -/
structure Placed (H : Type u) where
  node : Node H
  target : Nat
  next : Nat

/-- Put an updated child back between its siblings. -/
def Placed.under (r : Placed H) (parent : Node H) (pre post : List (Node H)) : Placed H :=
  { r with node := parent.withChildren (pre ++ r.node :: post) }

/-- Add an updated new child to its parent. -/
def Placed.added (r : Placed H) (parent : Node H) : Placed H :=
  { r with node := parent.withChildren (insertSorted parent.children r.node) }

/-- `insertStatic`: `fuel` bounds the depth of the recursion, each step of which
takes at least one byte off `text`. -/
def insertStatic : Nat → Nat → Node H → Bytes → (Nat → Node H → Placed H) → Placed H
  | 0, next, parent, _, _ => ⟨parent, parent.data.id, next⟩
  | fuel + 1, next, parent, text, k =>
    match splitFirst (fun ch => ch.nType = .static ∧ longestPrefix text ch.path ≠ 0)
        parent.children with
    | some (pre, ch, post) =>
      let cp := longestPrefix text ch.path
      if cp = ch.path.length ∧ cp = text.length then (k next ch).under parent pre post
      else if cp < ch.path.length then
        if cp = text.length then (k (next + 1) (splitNode next cp ch)).under parent pre post
        else (insertStatic fuel (next + 1) (splitNode next cp ch) (text.drop cp) k).under
          parent pre post
      else (insertStatic fuel next ch (text.drop cp) k).under parent pre post
    | none => (k (next + 1) (.mk { id := next, path := text } [])).added parent

/-- `insertChild`: find or create the child of `parent` for a segment, and go on
with `k` at it. -/
def insertChild (next : Nat) (parent : Node H) (seg : Segment)
    (k : Nat → Node H → Placed H) : Placed H :=
  match seg.kind with
  | .param =>
    let key := seg.text.drop 1
    match splitFirst (fun ch => ch.nType = .param ∧ ch.data.paramKey = key) parent.children with
    | some (pre, ch, post) => (k next ch).under parent pre post
    | none => (k (next + 1) (.mk { id := next, nType := .param, paramKey := key } [])).added parent
  | .catchAll =>
    let key := seg.text.drop 1
    match splitFirst (fun ch => ch.nType = .catchAll) parent.children with
    | some (pre, ch, post) => (k next ch).under parent pre post
    | none =>
      (k (next + 1) (.mk { id := next, nType := .catchAll, paramKey := key } [])).added parent
  | .static => insertStatic seg.text.length next parent seg.text k

/-- The loop of `addRouteWithAsync` over the segments of a pattern, with the
assignments to the node it ends at. -/
def insertSegments (handlers : List H) (fullPath : Bytes) (async : Bool) :
    List Segment → Nat → Node H → Placed H
  | [], next, n =>
    ⟨.mk { n.data with handlers := some handlers, fullPath := fullPath, async := async }
      n.children, n.data.id, next⟩
  | seg :: segs, next, n =>
    insertChild next n seg fun next ch => insertSegments handlers fullPath async segs next ch

/-! ## Search -/

/-- The path parameters of a request, as names and values. -/
abbrev Params := List (Bytes × Bytes)

/-- What `search` and `find` return besides the parameters. -/
structure Found (H : Type u) where
  handlers : Option (List H)
  fullPath : Bytes
  async : Bool

def Found.miss : Found H := ⟨none, [], false⟩

def Node.found (n : Node H) : Found H := ⟨n.data.handlers, n.data.fullPath, n.data.async⟩

mutual

/-- `search`: the loop over the children of a node. -/
def search : Node H → Bytes → Params → Found H × Params
  | .mk _ children, path, params => searchIn children path params

/-- The rounds of the loop of `search` that are left. -/
def searchIn : List (Node H) → Bytes → Params → Found H × Params
  | [], _, params => (.miss, params)
  | ch :: rest, path, params =>
    match ch.nType with
    | .static =>
      if ch.path.isPrefixOf path then
        let remaining := path.drop ch.path.length
        if remaining = [] then
          if ch.data.handlers.isSome then (ch.found, params)
          else
            match ch.children.find? (fun gc => gc.nType = .catchAll) with
            | some gc => (gc.found, params ++ [(gc.data.paramKey, [])])
            | none => (.miss, params)
        else
          let r := search ch remaining params
          if r.1.handlers.isSome then r else searchIn rest path r.2
      else searchIn rest path params
    | .param =>
      let stop := findSegmentEnd path
      if stop = 0 then searchIn rest path params
      else
        let pushed := params ++ [(ch.data.paramKey, path.take stop)]
        let remaining := path.drop stop
        if remaining = [] then
          if ch.data.handlers.isSome then (ch.found, pushed)
          else searchIn rest path pushed.dropLast
        else
          let r := search ch remaining pushed
          if r.1.handlers.isSome then r else searchIn rest path r.2.dropLast
    | .catchAll => (ch.found, params ++ [(ch.data.paramKey, slash :: path)])

end

/-! ## Cleaning a request path -/

def hasDouble : Bytes → Bool
  | a :: b :: bs => (a = slash ∧ b = slash) || hasDouble (b :: bs)
  | _ => false

/-- Drop every slash that follows a slash; `prev` is the byte before. -/
def collapseFrom (prev : UInt8) : Bytes → Bytes
  | [] => []
  | b :: bs =>
    if b = slash ∧ prev = slash then collapseFrom b bs else b :: collapseFrom b bs

/-- `cleanPath`: a path with no double slash is returned as it is; any other is
collapsed and loses a trailing slash. -/
def cleanPath : Bytes → Bytes
  | [] => [slash]
  | b :: bs =>
    if hasDouble (b :: bs) then
      let buf := b :: collapseFrom b bs
      if 1 < buf.length ∧ buf.getLast? = some slash then buf.dropLast else buf
    else b :: bs

end Celeris.Routing
