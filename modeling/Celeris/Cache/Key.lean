import Celeris.Data.Separator
import Celeris.H1.Ascii
import Mathlib.Data.Multiset.Basic

/-!
# Cache keys (`middleware/cache/cache.go`)

The default key of a request is its method, path and sorted query, and the name and value of each
header that the cache is configured to vary by, written one after another with blanks and marks in
between. Nothing is escaped.

Without such headers the key tells requests apart: a method has no blank and a path no question
mark, and the parameters of the query are split at the mark they are joined with. With one of
them it does not: `separates_iff`. It still does for requests without a bar.
-/

namespace Celeris.Cache

open H1 List Separator

/-- The byte `&`. -/
def amp : UInt8 := 0x26

/-- The byte `|`. -/
def bar : UInt8 := 0x7c

/-- The byte `=`. -/
def equals : UInt8 := 0x3d

/-- What the key generator reads of a request. A method is a token, and the target is split into
path and query at its first question mark. -/
structure Request where
  method : Bytes
  path : Bytes
  rawQuery : Bytes
  headers : List (Bytes × Bytes)
  space_notMem : space ∉ method
  question_notMem : question ∉ path

/-- `Header`: the first header of a name, which is made lower case. -/
def Request.header (r : Request) (key : Bytes) : Bytes :=
  ((r.headers.find? fun h => h.1 = lower key).map (·.2)).getD []

/-- `sort.Strings`. -/
def sortStrings (parts : List Bytes) : List Bytes := parts.mergeSort fun a b => decide (a ≤ b)

def sortedQuery (rq : Bytes) : Bytes :=
  if amp ∉ rq then rq
  else
    let parts := rq.splitOn amp
    -- Up to eight parts are looked at before they are sorted.
    if parts.length ≤ 8 ∧ parts.IsChain (· ≤ ·) then rq
    else [amp].intercalate (sortStrings parts)

/-- What the key has for a header: `|name=value`. -/
def varyPart (r : Request) (h : Bytes) : Bytes := bar :: h ++ equals :: r.header h

/-- The key up to the headers. -/
def baseKey (r : Request) : Bytes :=
  r.method ++ space :: (r.path ++ if r.rawQuery = [] then [] else question ::
    sortedQuery r.rawQuery)

/-- The key that `defaultKeyGenerator` makes of a request. -/
def defaultKey (vary : List Bytes) (r : Request) : Bytes :=
  let varyLower := vary.map lower
  if r.rawQuery = [] ∧ varyLower = [] then r.method ++ space :: r.path
  else baseKey r ++ varyLower.flatMap (varyPart r)

/-! ## What a key tells -/

def params (rq : Bytes) : List Bytes := if rq = [] then [] else rq.splitOn amp

/-- Two requests that a response may be shared between. -/
structure Agree (vary : List Bytes) (r r' : Request) : Prop where
  method : r.method = r'.method
  path : r.path = r'.path
  query : Multiset.ofList (params r.rawQuery) = Multiset.ofList (params r'.rawQuery)
  headers : ∀ h ∈ vary, r.header h = r'.header h

/-- Requests with one key agree. -/
def Separates (vary : List Bytes) : Prop :=
  ∀ r r', defaultKey vary r = defaultKey vary r' → Agree vary r r'

variable {vary : List Bytes} {r r' : Request} {rq name : Bytes}

theorem defaultKey_eq : defaultKey vary r = baseKey r ++ (vary.map lower).flatMap (varyPart r) := by
  unfold defaultKey
  simp only
  split_ifs with h
  · rw [h.2, baseKey, if_pos h.1, append_nil]
    exact (append_nil _).symm
  · rfl

/-- A sorted query joins the parameters in some order. -/
theorem exists_sortedQuery :
    ∃ parts : List Bytes, parts.Perm (rq.splitOn amp) ∧
      sortedQuery rq = [amp].intercalate parts := by
  unfold sortedQuery
  simp only
  split_ifs with ha hs
  · exact ⟨_, .refl _, (intercalate_splitOn amp).symm⟩
  · exact ⟨_, mergeSort_perm .., rfl⟩
  · exact ⟨_, .refl _, (intercalate_splitOn amp).symm⟩

theorem perm_of_sortedQuery_eq {rq' : Bytes} (h : sortedQuery rq = sortedQuery rq') :
    (rq.splitOn amp).Perm (rq'.splitOn amp) := by
  obtain ⟨parts, hperm, heq⟩ := exists_sortedQuery
  obtain ⟨parts', hperm', heq'⟩ := exists_sortedQuery
  have hf {q : Bytes} {ps : List Bytes} (hp : ps.Perm (q.splitOn amp)) : ∀ p ∈ ps, amp ∉ p :=
    fun p hm => notMem_of_mem_splitOn (hp.mem_iff.mp hm)
  have hne {q : Bytes} {ps : List Bytes} (hp : ps.Perm (q.splitOn amp)) : ps ≠ [] := by
    rintro rfl
    exact splitOn_ne_nil amp q (nil_perm.mp hp)
  have hpa : parts = parts' := by
    rw [← splitOn_intercalate amp (hf hperm) (hne hperm), ← heq, h, heq',
      splitOn_intercalate amp (hf hperm') (hne hperm')]
  exact hperm.symm.trans (hpa ▸ hperm')

/-- The part of a key before the headers tells method, path and query. -/
theorem agree_of_baseKey_eq (h : baseKey r = baseKey r') : r.method = r'.method ∧ r.path = r'.path ∧
      Multiset.ofList (params r.rawQuery) = Multiset.ofList (params r'.rawQuery) := by
  obtain ⟨hm, hr⟩ := append_inj r.space_notMem r'.space_notMem (begins_cons _ _) (begins_cons _ _) h
  have hb (q : Bytes) : Separator.Begins question
      (if q = [] then [] else question :: sortedQuery q) := by
    split_ifs
    · exact begins_nil _
    · exact begins_cons _ _
  obtain ⟨hp, hq⟩ := append_inj r.question_notMem r'.question_notMem (hb _) (hb _) (cons.inj hr).2
  refine ⟨hm, hp, ?_⟩
  unfold params
  by_cases he : r.rawQuery = [] <;> by_cases he' : r'.rawQuery = []
  · rw [if_pos he, if_pos he']
  · rw [if_pos he, if_neg he'] at hq
    cases hq
  · rw [if_neg he, if_pos he'] at hq
    cases hq
  · rw [if_neg he, if_neg he'] at hq ⊢
    exact Multiset.coe_eq_coe.mpr (perm_of_sortedQuery_eq (cons.inj hq).2)

theorem mem_sortedQuery_iff {c : UInt8} (hc : c ≠ amp) : c ∈ sortedQuery rq ↔ c ∈ rq := by
  obtain ⟨parts, hp, heq⟩ := exists_sortedQuery
  have hs : c ∈ rq ↔ ∃ part ∈ rq.splitOn amp, c ∈ part := by
    rw [← mem_intercalate_iff hc, intercalate_splitOn]
  rw [heq, mem_intercalate_iff hc, hs]
  exact exists_congr fun part => and_congr_left fun _ => hp.mem_iff

/-! ## Requests without a bar -/

/-- Nothing that goes into the key of a request has a bar. -/
structure NoBar (vary : List Bytes) (r : Request) : Prop where
  method : bar ∉ r.method
  path : bar ∉ r.path
  query : bar ∉ r.rawQuery
  headers : ∀ h ∈ vary, bar ∉ r.header h

theorem NoBar.baseKey (h : NoBar vary r) : bar ∉ baseKey r := by
  have hq : bar ∉ if r.rawQuery = [] then [] else question :: sortedQuery r.rawQuery := by
    split_ifs
    · exact not_mem_nil
    · rw [mem_cons, mem_sortedQuery_iff (by decide), not_or]
      exact ⟨by decide, h.query⟩
  rw [Cache.baseKey, mem_append, mem_cons, mem_append, not_or, not_or, not_or]
  exact ⟨h.method, by decide, h.path, hq⟩

variable {names : List Bytes} {path value : Bytes}

/-- The headers that are written behind each other with bars are known from the text. -/
theorem header_eq_of_varyParts_eq (hbar : ∀ h ∈ names, bar ∉ r.header h)
    (hbar' : ∀ h ∈ names, bar ∉ r'.header h)
    (h : names.flatMap (varyPart r) = names.flatMap (varyPart r')) :
    ∀ h ∈ names, r.header h = r'.header h := by
  have hb (r : Request) (names : List Bytes) : Separator.Begins bar
      (names.flatMap (varyPart r)) := by
    cases names with
    | nil => exact begins_nil _
    | cons name names => exact begins_cons _ _
  induction names with
  | nil => exact nofun
  | cons name names ih =>
    rw [forall_mem_cons] at hbar hbar' ⊢
    simp only [flatMap_cons, varyPart, cons_append, append_assoc] at h
    have ht := (cons.inj (append_cancel_left (cons.inj h).2)).2
    obtain ⟨hv, hr⟩ := append_inj hbar.1 hbar'.1 (hb r names) (hb r' names) ht
    exact ⟨hv, ih hbar.2 hbar'.2 hr⟩

theorem lowerByte_lowerByte : ∀ c : UInt8, lowerByte (lowerByte c) = lowerByte c :=
  forall_byte (by decide +kernel)

@[simp] theorem lower_lower {b : Bytes} : lower (lower b) = lower b := by
  simp only [lower, map_map, Function.comp_def, lowerByte_lowerByte]

@[simp] theorem header_lower {h : Bytes} : r.header (lower h) = r.header h := by
  rw [Request.header, Request.header, lower_lower]

theorem agree_of_noBar (h : NoBar vary r) (h' : NoBar vary r')
    (hk : defaultKey vary r = defaultKey vary r') : Agree vary r r' := by
  have hb (r : Request) : Separator.Begins bar ((vary.map lower).flatMap (varyPart r)) := by
    cases vary with
    | nil => exact begins_nil _
    | cons name names => exact begins_cons _ _
  have hl {r : Request} (hr : NoBar vary r) : ∀ name ∈ vary.map lower, bar ∉ r.header name := by
    rw [forall_mem_map]
    intro name hn
    rw [header_lower]
    exact hr.headers name hn
  rw [defaultKey_eq, defaultKey_eq] at hk
  obtain ⟨hbase, hp⟩ := append_inj h.baseKey h'.baseKey (hb r) (hb r') hk
  obtain ⟨hm, hpath, hq⟩ := agree_of_baseKey_eq hbase
  refine ⟨hm, hpath, hq, fun name hn => ?_⟩
  have hv := header_eq_of_varyParts_eq (hl h) (hl h') hp (lower name) (mem_map_of_mem hn)
  rwa [header_lower, header_lower] at hv

/-! ## Requests with the same key -/

theorem question_notMem_lower (h : isToken name = true) : question ∉ lower name := by
  have hb : ∀ c : UInt8, isTchar c = true → lowerByte c ≠ question :=
    forall_byte (by decide +kernel)
  rw [isToken, isValidHeaderName, Bool.and_eq_true, all_eq_true] at h
  rw [lower, mem_map]
  rintro ⟨c, hc, heq⟩
  exact hb c (h.2 c hc) heq

/-- The names of the headers as they stand in the key of a request that has none of them. -/
def bareNames (names : List Bytes) : Bytes := names.flatMap fun h => bar :: h ++ [equals]

theorem question_notMem_bareNames (h : ∀ name ∈ names, question ∉ name) :
    question ∉ bareNames names := by
  rw [bareNames, mem_flatMap]
  rintro ⟨name, hn, hm⟩
  simp only [cons_append, mem_cons, mem_append, not_mem_nil, or_false] at hm
  obtain hm | hm | hm := hm
  · exact absurd hm (by decide)
  · exact h name hn hm
  · exact absurd hm (by decide)

/-- A request for a path, with one header. -/
def get (path : Bytes) (name value : Bytes) (h : question ∉ path) : Request where
  method := ascii "GET"
  path := path
  rawQuery := []
  headers := [(name, value)]
  space_notMem := by decide
  question_notMem := h

theorem header_get (h : question ∉ path) {key : Bytes} :
    (get path name value h).header key = if lower key = name then value else [] := by
  rw [Request.header, get, find?_singleton]
  by_cases heq : lower key = name
  · simp [heq]
  · simp [heq, Ne.symm heq]

theorem baseKey_get (h : question ∉ path) :
    baseKey (get path name value h) = ascii "GET" ++ space :: path := by
  rw [baseKey, get, if_pos rfl, append_nil]

/-- With a header to vary by, the key of a request that carries the names of all such headers in
one of them is also the key of a request that carries them in its path. -/
theorem not_separates (hvary : ∀ h ∈ vary, isToken h = true) (hne : vary ≠ []) :
    ¬ Separates vary := by
  obtain ⟨init, last, rfl⟩ : ∃ init last, vary = init ++ [last] :=
    ⟨_, _, (dropLast_append_getLast hne).symm⟩
  have hn : ∀ name ∈ (init ++ [last]).map lower, question ∉ name := by
    rw [forall_mem_map]
    exact fun name hname => question_notMem_lower (hvary name hname)
  have hbare := question_notMem_bareNames hn
  obtain ⟨bare, hb⟩ : ∃ bare, bareNames ((init ++ [last]).map lower) = bare := ⟨_, rfl⟩
  rw [hb] at hbare
  let inHeader := get (ascii "/") (lower last) bare (by decide)
  -- What stands between the path and the names that are left.
  let moved := (init.map lower).flatMap (varyPart inHeader) ++ (bar :: lower last ++ [equals])
  have hm : question ∉ moved := by
    have hv (name : Bytes) : question ∉ inHeader.header name := by
      rw [header_get]
      split_ifs
      · exact hbare
      · exact not_mem_nil
    simp only [moved, mem_append, mem_flatMap, varyPart, mem_cons, not_mem_nil, or_false, not_or,
      not_exists, not_and]
    refine ⟨fun name hname => ⟨⟨by decide, ?_⟩, by decide, hv name⟩, ⟨by decide, ?_⟩, by decide⟩
    · exact hn name (by simp only [map_append, mem_append, hname, true_or])
    · exact question_notMem_lower (hvary last (by simp))
  let inPath := get (ascii "/" ++ moved) (lower last) [] (by
    rw [mem_append, not_or]
    exact ⟨by decide, hm⟩)
  intro h
  have hkey : defaultKey (init ++ [last]) inPath = defaultKey (init ++ [last]) inHeader := by
    have he (name : Bytes) : inPath.header name = [] := by
      rw [header_get, ite_self]
    have hl : inHeader.header (lower last) = bare := by
      rw [header_get, lower_lower, if_pos rfl]
    have hp : ((init ++ [last]).map lower).flatMap (varyPart inPath) = bare := by
      have hpart : varyPart inPath = fun name => bar :: name ++ [equals] := by
        funext name
        rw [varyPart, he]
      rw [← hb, bareNames, hpart]
    have hp' : ((init ++ [last]).map lower).flatMap (varyPart inHeader) = moved ++ bare := by
      rw [map_append, flatMap_append]
      simp [moved, varyPart, hl]
    rw [defaultKey_eq, defaultKey_eq, hp, hp', baseKey_get, baseKey_get, ← append_assoc]
    rfl
  have hpath := (h inPath inHeader hkey).path
  have hlen : moved.length = 0 := by
    have hc := congrArg length hpath
    simp only [inPath, inHeader, get, length_append] at hc
    omega
  simp [moved] at hlen

/-- The key separates requests exactly if there is no header to vary by. Requests without a bar
are always separated. -/
theorem separates_iff (vary : List Bytes) (hvary : ∀ h ∈ vary, isToken h = true) :
    (Separates vary ↔ vary = []) ∧
      ∀ r r', NoBar vary r → NoBar vary r' → defaultKey vary r = defaultKey vary r' →
        Agree vary r r' := by
  refine ⟨⟨fun h => by_contra fun hne => not_separates hvary hne h, ?_⟩,
    fun _ _ h h' => agree_of_noBar h h'⟩
  rintro rfl r r' hk
  rw [defaultKey_eq, defaultKey_eq] at hk
  obtain ⟨hm, hp, hq⟩ := agree_of_baseKey_eq (append_cancel_right hk)
  exact ⟨hm, hp, hq, nofun⟩

theorem separates_iff_accept :
    (∀ h ∈ [ascii "Accept"], isToken h = true) ∧ ¬ Separates [ascii "Accept"] := by
  have ht : ∀ h ∈ [ascii "Accept"], isToken h = true := by decide
  exact ⟨ht, (separates_iff [ascii "Accept"] ht).1.not.mpr (by decide)⟩

def withHeaders (a b : Bytes) : Request where
  method := ascii "GET"
  path := ascii "/"
  rawQuery := []
  headers := [(ascii "a", a), (ascii "b", b)]
  space_notMem := by decide
  question_notMem := by decide

/-- Two requests that differ only in the headers, and have one key. -/
theorem defaultKey_collides :
    defaultKey [ascii "A", ascii "B"] (withHeaders (ascii "x|b=y") (ascii "z")) =
        defaultKey [ascii "A", ascii "B"] (withHeaders (ascii "x") (ascii "y|b=z")) ∧
      ¬ Agree [ascii "A", ascii "B"] (withHeaders (ascii "x|b=y") (ascii "z"))
        (withHeaders (ascii "x") (ascii "y|b=z")) :=
  ⟨by decide, fun h => absurd (h.headers (ascii "A") (by decide)) (by decide)⟩

end Celeris.Cache
