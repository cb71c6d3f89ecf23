import Celeris.Routing.Dispatch
import Celeris.Routing.Find
import Mathlib.Data.List.Nodup
import Mathlib.Data.List.TakeWhile

/-!
# The route that is asked about and the route that runs

Before a request runs, the engine asks `routeAsync` whether to run it inline.
Then `HandleStream` looks its route up, from what `extractRequestInfo` made of
the request. Both should resolve to the same route.

HTTP/2 hands `routeAsync` the path before the `?`. HTTP/1 hands it the whole
target, and a target with a query resolves to another route, or to none.
-/

namespace Celeris.Routing

open List Router

universe u

variable {H : Type u}

/-! ## Requests -/

/-- A request as the engine has it when it asks: the method and target of an
HTTP/1 request line, or the header list of an HTTP/2 stream. -/
inductive Incoming where
  | h1 (method target : Bytes)
  | h2 (headers : List (Bytes × Bytes))

/-- `Stream`: the fields that `extractRequestInfo` reads. -/
structure Stream where
  method : Bytes
  path : Bytes
  headers : List (Bytes × Bytes)

/-- The stream of a request. The HTTP/1 engine sets the method and path, HTTP/2
the headers. -/
def Incoming.stream : Incoming → Stream
  | .h1 method target => ⟨method, target, []⟩
  | .h2 headers => ⟨[], [], headers⟩

/-- The part of a target before the `?`. -/
def beforeQuery (target : Bytes) : Bytes := target.takeWhile (· ≠ question)

/-- Whether the second byte of a name is `b`. -/
def secondIs (b : UInt8) (name : Bytes) : Bool := name[1]? = some b

/-- The method and path of `extractRequestInfo`. -/
def extractRequestInfo (s : Stream) : Bytes × Bytes :=
  if s.method ≠ [] then (s.method, beforeQuery s.path)
  else
    match s.headers with
    | m :: p :: rest =>
      -- HPACK usually places `:method` first and `:path` second.
      if secondIs 0x6d m.1 && secondIs 0x70 p.1 then (m.2, beforeQuery p.2)
      else scan (m :: p :: rest)
    | headers => scan headers
where
  /-- The walk over all headers. -/
  scan (headers : List (Bytes × Bytes)) : Bytes × Bytes :=
    headers.foldl (fun acc h =>
      if h.1 = ascii ":method" then (h.2, acc.2)
      else if h.1 = ascii ":path" then (acc.1, beforeQuery h.2)
      else acc) ([], [])

/-- The loop of `streamRouteAsync`, which stops when it has both. -/
def scanPseudo (acc : Bytes × Bytes) : List (Bytes × Bytes) → Bytes × Bytes
  | [] => acc
  | h :: hs =>
    let acc := if h.1 = ascii ":method" then (h.2, acc.2)
      else if h.1 = ascii ":path" then (acc.1, h.2) else acc
    if acc.1 ≠ [] ∧ acc.2 ≠ [] then acc else scanPseudo acc hs

/-- The method and path the engine asks `routeAsync` for, if it asks:
`ProcessH1` and `streamRouteAsync`. -/
def Incoming.asks : Incoming → Option (Bytes × Bytes)
  | .h1 method target => some (method, target)
  | .h2 headers =>
    let found := scanPseudo ([], []) headers
    if found.1 = [] ∨ found.2 = [] then none else some (found.1, beforeQuery found.2)

namespace Router

/-- The route `HandleStream` runs: its lookup, and for a HEAD request without a
route the GET route. -/
def resolve (r : Router H) (method path : Bytes) : Found H :=
  let found := r.find method path []
  if found.1.handlers.isNone ∧ method = ascii "HEAD" then
    (r.findHEADAsGET path found.2 0).1
  else found.1

/-- How the route of a lookup is dispatched. -/
def dispatches (r : Router H) (now : Int) (f : Found H) : Bool :=
  if f.handlers.isNone then r.unmatchedPromoted now
  else f.async || r.adaptivePromoted now f.fullPath

/-- What the engine decides for a request. -/
def decides (r : Router H) (now : Int) (request : Incoming) : Bool :=
  match request.asks with
  | none => false
  | some (method, path) => r.routeAsync now method path

end Router

/-! ## What is asked for -/

def SameRoute (f g : Found H) : Prop :=
  (f.handlers = none ∧ g.handlers = none) ∨ (f.handlers.isSome ∧ f = g)

/-- The engine asks about the route that runs, and dispatches it as that route is
to be dispatched. -/
structure AsksForRoute (r : Router H) (request : Incoming) : Prop where
  route : ∃ method path, request.asks = some (method, path) ∧
    SameRoute (r.resolve method path)
      (r.resolve (extractRequestInfo request.stream).1 (extractRequestInfo request.stream).2)
  decision : ∀ now, r.decides now request = r.dispatches now
    (r.resolve (extractRequestInfo request.stream).1 (extractRequestInfo request.stream).2)

/-- What holds of a header list that `validateRequestHeaders` accepts: the
pseudo-headers come first, each at most once, and no other name starts with a
colon. -/
structure RequestHeaders (headers : List (Bytes × Bytes)) (method target : Bytes) : Prop where
  split : ∃ pseudo regular, headers = pseudo ++ regular ∧ (pseudo.map Prod.fst).Nodup ∧
    (∀ h ∈ pseudo, h.1 ∈ [ascii ":method", ascii ":scheme", ascii ":path", ascii ":authority"]) ∧
    (∀ h ∈ regular, h.1.head? ≠ some colon) ∧
    (ascii ":method", method) ∈ pseudo ∧ (ascii ":path", target) ∈ pseudo

/-- A request with the method and target that a parser lets through. -/
inductive Incoming.Has (method target : Bytes) : Incoming → Prop
  | h1 : Has method target (.h1 method target)
  | h2 {headers : List (Bytes × Bytes)} : RequestHeaders headers method target →
      Has method target (.h2 headers)

/-- An HTTP/2 request, or a target without a query. -/
def Incoming.Plain : Incoming → Prop
  | .h1 _ target => question ∉ target
  | .h2 _ => True

/-! ## HTTP/2 header lists -/

theorem mem_of_name_ne {h : Bytes × Bytes} {hs : List (Bytes × Bytes)} {name value : Bytes}
    (hn : h.1 ≠ name) (hm : (name, value) ∈ h :: hs) : (name, value) ∈ hs := by
  refine (mem_cons.mp hm).resolve_left fun e => hn ?_
  rw [← e]

namespace RequestHeaders

variable {headers : List (Bytes × Bytes)} {method target : Bytes}

section

variable (hr : RequestHeaders headers method target)

include hr

/-- Every header with the name of a pseudo-header has the value of the first. -/
theorem value_eq {h : Bytes × Bytes} (hh : h ∈ headers) :
    (h.1 = ascii ":method" → h.2 = method) ∧ (h.1 = ascii ":path" → h.2 = target) := by
  obtain ⟨pseudo, regular, rfl, hnd, -, hreg, hm, ht⟩ := hr.split
  have hu : ∀ {name value : Bytes}, (name, value) ∈ pseudo → name.head? = some colon →
      h.1 = name → h.2 = value := by
    intro name value hmem hc hn
    rcases mem_append.mp hh with hp | hp
    · exact congrArg Prod.snd (inj_on_of_nodup_map hnd hp hmem hn)
    · exact absurd (hn ▸ hc) (hreg h hp)
  exact ⟨hu hm rfl, hu ht rfl⟩

theorem mem_method : (ascii ":method", method) ∈ headers := by
  obtain ⟨pseudo, regular, rfl, -, -, -, hm, -⟩ := hr.split
  exact mem_append_left _ hm

theorem mem_path : (ascii ":path", target) ∈ headers := by
  obtain ⟨pseudo, regular, rfl, -, -, -, -, ht⟩ := hr.split
  exact mem_append_left _ ht

/-- The first two headers are pseudo-headers, and the second byte of the name
tells which. -/
theorem name_eq {a b : Bytes × Bytes} {rest : List (Bytes × Bytes)} (hh : headers = a :: b :: rest)
    {h : Bytes × Bytes} (hab : h = a ∨ h = b) : (secondIs 0x6d h.1 = true → h.1 = ascii ":method") ∧
      (secondIs 0x70 h.1 = true → h.1 = ascii ":path") := by
  obtain ⟨pseudo, regular, hs, -, hn, -, hm, ht⟩ := hr.split
  have hl : 2 ≤ pseudo.length := by
    by_contra hlt
    match pseudo, hm, ht, hlt with
    | [x], hm, ht, _ =>
      rw [mem_singleton] at hm ht
      have hname : ascii ":method" = ascii ":path" := congrArg Prod.fst (hm.trans ht.symm)
      exact absurd hname (by decide)
    | _ :: _ :: _, _, _, hlt => exact hlt (by simp)
  have hmem : h ∈ pseudo := by
    match pseudo, hl, hs with
    | x :: y :: pseudo, _, hs =>
      rw [hh, cons_append, cons_append, cons.injEq, cons.injEq] at hs
      rcases hab with rfl | rfl
      · rw [hs.1]
        exact mem_cons_self
      · rw [hs.2.1]
        exact mem_cons_of_mem _ mem_cons_self
  have hname := hn h hmem
  simp only [mem_cons, not_mem_nil, or_false] at hname
  rcases hname with e | e | e | e <;> rw [e] <;> decide

/-- The walk over all headers finds the method and path. -/
theorem scan_eq : extractRequestInfo.scan headers = (method, beforeQuery target) := by
  have hne : ascii ":path" ≠ ascii ":method" := by decide
  have hf : ∀ (hs : List (Bytes × Bytes)) (acc : Bytes × Bytes),
      (∀ h ∈ hs, (h.1 = ascii ":method" → h.2 = method) ∧ (h.1 = ascii ":path" → h.2 = target)) →
      (acc.1 = method ∨ (ascii ":method", method) ∈ hs) →
      (acc.2 = beforeQuery target ∨ (ascii ":path", target) ∈ hs) →
      hs.foldl (fun acc h =>
        if h.1 = ascii ":method" then (h.2, acc.2)
        else if h.1 = ascii ":path" then (acc.1, beforeQuery h.2)
        else acc) acc = (method, beforeQuery target) := by
    intro hs
    induction hs with
    | nil =>
      intro acc _ hm ht
      simp only [not_mem_nil, or_false] at hm ht
      rw [foldl_nil, ← hm, ← ht]
    | cons h hs ih =>
      intro acc ha hm ht
      rw [forall_mem_cons] at ha
      rw [foldl_cons]
      refine ih _ ha.2 ?_ ?_
      · split_ifs with h1 h2
        · exact .inl (ha.1.1 h1)
        · exact hm.imp id (mem_of_name_ne h1)
        · exact hm.imp id (mem_of_name_ne h1)
      · split_ifs with h1 h2
        · exact ht.imp id (mem_of_name_ne fun e => hne (e ▸ h1))
        · exact .inl (by rw [ha.1.2 h2])
        · exact ht.imp id (mem_of_name_ne h2)
  exact hf headers _ (fun h hh => hr.value_eq hh) (.inr hr.mem_method) (.inr hr.mem_path)

theorem extract_eq : extractRequestInfo ⟨[], [], headers⟩ = (method, beforeQuery target) := by
  unfold extractRequestInfo
  rw [if_neg (by simp)]
  match headers, hr with
  | [], hr => exact hr.scan_eq
  | [_], hr => exact hr.scan_eq
  | a :: b :: rest, hr =>
    simp only
    split_ifs with hf
    · rw [Bool.and_eq_true] at hf
      have ha := (hr.name_eq rfl (.inl rfl)).1 hf.1
      have hb := (hr.name_eq rfl (.inr rfl)).2 hf.2
      rw [(hr.value_eq mem_cons_self).1 ha, (hr.value_eq (mem_cons_of_mem _ mem_cons_self)).2 hb]
    · exact hr.scan_eq

theorem scanPseudo_eq : scanPseudo ([], []) headers = (method, target) := by
  have hne : ascii ":path" ≠ ascii ":method" := by decide
  have hscan : ∀ (hs : List (Bytes × Bytes)) (acc : Bytes × Bytes),
      (∀ h ∈ hs, (h.1 = ascii ":method" → h.2 = method) ∧ (h.1 = ascii ":path" → h.2 = target)) →
      (acc.1 = method ∨ (acc.1 = [] ∧ (ascii ":method", method) ∈ hs)) →
      (acc.2 = target ∨ (acc.2 = [] ∧ (ascii ":path", target) ∈ hs)) →
      scanPseudo acc hs = (method, target) := by
    intro hs
    induction hs with
    | nil =>
      intro acc _ h1 h2
      simp only [not_mem_nil, and_false, or_false] at h1 h2
      rw [scanPseudo, ← h1, ← h2]
    | cons h hs ih =>
      intro acc hall h1 h2
      rw [forall_mem_cons] at hall
      have hn : ∀ acc' : Bytes × Bytes,
        (acc'.1 = method ∨ (acc'.1 = [] ∧ (ascii ":method", method) ∈ hs)) →
          (acc'.2 = target ∨ (acc'.2 = [] ∧ (ascii ":path", target) ∈ hs)) →
          (if acc'.1 ≠ [] ∧ acc'.2 ≠ [] then acc' else scanPseudo acc' hs) =
            (method, target) := by
        intro acc' h1' h2'
        split_ifs with hb
        · have e1 := h1'.resolve_right fun h => hb.1 h.1
          have e2 := h2'.resolve_right fun h => hb.2 h.1
          rw [← e1, ← e2]
        · exact ih acc' hall.2 h1' h2'
      apply hn
      · split_ifs with e1 e2
        · exact .inl (hall.1.1 e1)
        · exact h1.imp id fun h' => ⟨h'.1, mem_of_name_ne e1 h'.2⟩
        · exact h1.imp id fun h' => ⟨h'.1, mem_of_name_ne e1 h'.2⟩
      · split_ifs with e1 e2
        · exact h2.imp id fun h' => ⟨h'.1, mem_of_name_ne (fun e => hne (e ▸ e1)) h'.2⟩
        · exact .inl (hall.1.2 e2)
        · exact h2.imp id fun h' => ⟨h'.1, mem_of_name_ne e2 h'.2⟩
  exact hscan headers _ (fun h hh => hr.value_eq hh) (.inr ⟨rfl, hr.mem_method⟩)
    (.inr ⟨rfl, hr.mem_path⟩)

end

end RequestHeaders

/-! ## Asking and resolving -/

theorem SameRoute.refl {f : Found H} : SameRoute f f := by
  cases hf : f.handlers with
  | none => exact .inl ⟨hf, hf⟩
  | some hs => exact .inr ⟨by rw [hf]; rfl, rfl⟩

/-- `routeAsync` decides for the route that its own lookup finds. -/
theorem Router.routeAsync_eq (r : Router H) {now : Int} {method path : Bytes} :
    r.routeAsync now method path = r.dispatches now (r.resolve method path) := by
  unfold routeAsync resolve
  cases hs : r.staticRoutes.get method path with
  | some e =>
    have hf : r.find method path [] = (e.found, []) := by
      unfold find
      rw [hs]
    simp [hf, StaticEntry.found, dispatches]
  | none => simp [dispatches, apply_ite Prod.fst]

variable {method target path : Bytes} {request : Incoming} {b : UInt8}

section

variable (h : request.Has method target) (hm : method ≠ [])

include h hm

/-- What the engine asks for and what is looked up, when there is nothing to cut
off. -/
theorem Incoming.Has.asks_eq (ht : target ≠ [])
    (hp : request.Plain) : request.asks = some (method, beforeQuery target) := by
  cases h with
  | h1 =>
    have hq : ∀ b ∈ target, b ≠ question := fun b hb e => hp (e ▸ hb)
    rw [Incoming.asks, beforeQuery, takeWhile_eq_self_iff.mpr (by simpa using hq)]
  | h2 hr =>
    simp only [Incoming.asks, hr.scanPseudo_eq]
    rw [if_neg (by simp [hm, ht])]

theorem Incoming.Has.extract_eq :
    extractRequestInfo request.stream = (method, beforeQuery target) := by
  cases h with
  | h1 =>
    rw [Incoming.stream, extractRequestInfo, if_pos hm]
  | h2 hr => exact hr.extract_eq

theorem Incoming.Has.asksForRoute (ht : target ≠ []) (hp : request.Plain)
    {r : Router H} : AsksForRoute r request := by
  have ha := h.asks_eq hm ht hp
  constructor
  · rw [h.extract_eq hm]
    exact ⟨method, beforeQuery target, ha, .refl⟩
  · intro now
    rw [decides, ha, h.extract_eq hm]
    exact r.routeAsync_eq

end

/-! ## Targets with a query -/

theorem mem_collapseFrom (hb : b ≠ slash) {prev : UInt8} {bs : Bytes} (h : b ∈ bs) :
    b ∈ collapseFrom prev bs := by
  induction bs generalizing prev with
  | nil => cases h
  | cons c bs ih =>
    unfold collapseFrom
    rcases mem_cons.mp h with rfl | h
    · rw [if_neg fun e => hb e.1]
      exact mem_cons_self
    · split_ifs
      · exact ih h
      · exact mem_cons_of_mem _ (ih h)

theorem mem_cleanPath (hb : b ≠ slash) (h : b ∈ path) : b ∈ cleanPath path := by
  cases path with
  | nil => cases h
  | cons c bs =>
    have hbuf : b ∈ c :: collapseFrom c bs := by
      rcases mem_cons.mp h with rfl | h
      · exact mem_cons_self
      · exact mem_cons_of_mem _ (mem_collapseFrom hb h)
    simp only [cleanPath]
    split_ifs with h1 h2
    · have hl := h2.2
      rw [← dropLast_append_getLast? _ hl] at hbuf
      rcases mem_append.mp hbuf with hm | hm
      · exact hm
      · exact absurd (mem_singleton.mp hm) hb
    · exact hbuf
    · exact h

theorem mem_restOf (hb : b ≠ slash) (h : b ∈ path) : b ∈ restOf path := by
  have hm : b ∈ routedPath path := by
    unfold routedPath
    split_ifs
    · exact mem_cleanPath hb h
    · exact mem_cons_of_mem _ (mem_cleanPath hb h)
  rw [routedPath_cons] at hm
  exact (mem_cons.mp hm).resolve_left hb

theorem validatePath_of_isStaticPath (h : isStaticPath path = true) : validatePath path = true := by
  induction path with
  | nil => rfl
  | cons b bs ih =>
    simp only [isStaticPath, all_cons, Bool.and_eq_true, decide_eq_true_eq] at h
    rw [validatePath, if_neg h.1.1, if_neg h.1.2]
    exact ih h.2

theorem exists_build {g : Registration H} (hs : g.pattern.head? = some slash)
    (hst : isStaticPath g.pattern = true) : ∃ r, (newRouter false false).build [g] = some r := by
  simp [build, register, addRouteWithAsync, hs, validatePath_of_isStaticPath hst]

section Static

variable {g : Registration H} {r : Router H}

theorem Built.find_static (hb : Built [g] r) (hst : isStaticPath g.pattern = true) :
    (r.find g.method g.pattern []).1.route = some (g.chain, g.pattern) := by
  have hl : literalFor [g] g.method g.pattern = some (g.chain, g.pattern) := by
    simp [literalFor, lastFor, hst]
  exact (hb.find_finds g.method g.pattern []).unique (wellFormed_patternsFor _ _) (.static hl)

/-- A path with another byte than a static pattern and than `/` is not found. -/
theorem Built.find_other (hb : Built [g] r) (hst : isStaticPath g.pattern = true) (hbs : b ≠ slash)
    (hg : b ∉ g.pattern) (hp : b ∈ path) (m : Bytes) : (r.find m path []).1.handlers = none := by
  refine Option.map_eq_none_iff.mp ((hb.find_finds m path []).unique (wellFormed_patternsFor _ _)
    ?_)
  refine .miss ?_ (ne_nil_of_mem (mem_restOf hbs hp)) ?_
  · have hne : g.pattern ≠ path := fun e => hg (e ▸ hp)
    simp [literalFor, lastFor, hne]
  · rintro ⟨p, x⟩ he hm -
    obtain ⟨g', hg', -, rfl, -⟩ := mem_patternsFor.mp he
    rw [mem_singleton.mp hg', toks_of_isStaticPath hst, matches_text_iff] at hm
    exact hg (mem_of_mem_drop (hm ▸ mem_restOf hbs hp))

end Static

theorem question_not_mem_beforeQuery : question ∉ beforeQuery target := by
  intro h
  simpa using mem_takeWhile_imp h

/-- For every request the engine asks about the route that runs, if the request
is HTTP/2 or its target has no query. Where the path before the query is static
text, a target with a query makes it ask about another route, for some router. -/
theorem asksForRoute_iff_plain (handler : H) {method target : Bytes} {request : Incoming}
    (h : request.Has method target) (hm : method ≠ []) (ht : target ≠ []) :
    (request.Plain → ∀ r : Router H, AsksForRoute r request) ∧
    ((beforeQuery target).head? = some slash → isStaticPath (beforeQuery target) = true →
      (∀ r : Router H, AsksForRoute r request) → request.Plain) := by
  refine ⟨h.asksForRoute hm ht, fun hsl hst hall => ?_⟩
  cases h with
  | h2 _ => trivial
  | h1 =>
    intro hq
    obtain ⟨r, hr⟩ := exists_build (g := ⟨method, beforeQuery target, [handler], .on⟩) hsl hst
    have hb := built_of_build hr
    have ho := hb.find_other hst (b := question) (by decide)
      question_not_mem_beforeQuery hq
    obtain ⟨m, p, hasks, hsame⟩ := (hall r).route
    cases hasks
    have ha : (r.resolve method target).handlers = none := by
      simp only [resolve, findHEADAsGET, take_zero]
      split_ifs
      · rfl
      · -- The GET route of a HEAD request is looked up under the same target.
        exact ho (ascii "GET")
      · exact ho method
    have hruns : (r.resolve method (beforeQuery target)).handlers.isSome := by
      obtain ⟨hs, hhs, -⟩ := Option.map_eq_some_iff.mp (hb.find_static hst)
      have hsome : (r.find method (beforeQuery target) []).1.handlers = some hs := hhs
      simp [resolve, hsome]
    rw [Incoming.Has.extract_eq .h1 hm] at hsame
    rcases hsame with ⟨-, hn⟩ | ⟨hsome, -⟩
    · rw [hn] at hruns
      cases hruns
    · rw [ha] at hsome
      cases hsome

/-- `/x` is async, and `GET /x?y` is run inline on HTTP/1. -/
theorem query_not_asksForRoute : ∃ r : Router Nat,
    (newRouter false false).build [⟨ascii "GET", ascii "/x", [1], .on⟩] = some r ∧
      r.decides 0 (.h1 (ascii "GET") (ascii "/x?y")) = false ∧
        (r.resolve (ascii "GET") (ascii "/x")).async = true ∧
      ¬ AsksForRoute r (.h1 (ascii "GET") (ascii "/x?y")) := by
  obtain ⟨r, hr⟩ : ∃ r, (newRouter false false : Router Nat).build
      [⟨ascii "GET", ascii "/x", [1], .on⟩] = some r := ⟨_, rfl⟩
  have hd : r.decides 0 (.h1 (ascii "GET") (ascii "/x?y")) = false := by
    cases hr
    decide +kernel
  have hasync : (r.resolve (ascii "GET") (ascii "/x")).async = true ∧
      (r.resolve (ascii "GET") (ascii "/x")).handlers.isNone = false := by
    cases hr
    decide +kernel
  refine ⟨r, hr, hd, hasync.1, fun ha => ?_⟩
  have hdec := ha.decision 0
  have he : extractRequestInfo (Incoming.h1 (ascii "GET") (ascii "/x?y")).stream =
      (ascii "GET", ascii "/x") := by decide
  rw [hd, he] at hdec
  simp [dispatches, hasync.1, hasync.2] at hdec

/-- The engine asks about the route that answers `GET /x?y` on HTTP/2. -/
theorem query_asksForRoute_h2 : ∃ r : Router Nat,
    (newRouter false false).build [⟨ascii "GET", ascii "/x", [1], .on⟩] = some r ∧
      AsksForRoute r (.h2 [(ascii ":method", ascii "GET"), (ascii ":path", ascii "/x?y")]) := by
  have hr : RequestHeaders [(ascii ":method", ascii "GET"), (ascii ":path", ascii "/x?y")]
      (ascii "GET") (ascii "/x?y") :=
    ⟨⟨[(ascii ":method", ascii "GET"), (ascii ":path", ascii "/x?y")], [], rfl, by decide,
      by decide, by decide, by decide, by decide⟩⟩
  exact ⟨_, rfl, (asksForRoute_iff_plain 0 (.h2 hr) (by decide) (by decide)).1 trivial _⟩

end Celeris.Routing
