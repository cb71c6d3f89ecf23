import Celeris.H1.Ascii
import Mathlib.Tactic.SplitIfs

/-!
# Query parameters (`context_request.go`)

`Query` scans the raw query for a name, and once `QueryValues` or `QueryParams` has parsed the query
it looks into what is parsed. Of `net/url` the model has what `ParseQuery` keeps, in the order of
the query.

The scan takes what the parser leaves out: pairs with a semicolon or a bad escape, and keys that are
the name only as they are written.
-/

namespace Celeris.Query

open H1

def queryUnescape : Bytes → Option Bytes
  | [] => some []
  | c :: rest =>
    if c = 0x25 then
      match rest with
      | a :: b :: rest => do
        let high ← hexDigit a
        let low ← hexDigit b
        return UInt8.ofNat (16 * high + low) :: (← queryUnescape rest)
      | _ => none
    else (queryUnescape rest).map ((if c = 0x2B then space else c) :: ·)

/-- There is something to decode: `%` or `+`. -/
abbrev Escaped (b : Bytes) : Prop := 0x25 ∈ b ∨ 0x2B ∈ b

def queryUnescapeValue (v : Bytes) : Bytes :=
  if v = [] then [] else if ¬ Escaped v then v else (queryUnescape v).getD []

/-- What is before the first `=` of a pair. -/
def key (kv : Bytes) : Bytes := kv.takeWhile (· ≠ 0x3D)

def value (kv : Bytes) : Bytes := (kv.dropWhile (· ≠ 0x3D)).drop 1

/-- `queryLookupSingle`, of what is between the `&`. -/
def lookup (name : Bytes) : List Bytes → Bytes
  | [] => []
  | kv :: rest =>
    if kv = [] then lookup name rest
    else if key kv = name then queryUnescapeValue (value kv)
    else if Escaped (key kv) ∧ queryUnescape (key kv) = some name then queryUnescapeValue (value kv)
    else lookup name rest

/-- What `ParseQuery` makes of a pair. -/
def parsePair (kv : Bytes) : Option (Bytes × Bytes) :=
  if kv = [] ∨ semicolon ∈ kv then none
  else (queryUnescape (key kv)).bind fun k => (queryUnescape (value kv)).map (k, ·)

/-- `Get` of what `ParseQuery` has kept. -/
def get (name : Bytes) (parts : List Bytes) : Bytes :=
  (((parts.filterMap parsePair).find? (·.1 = name)).map (·.2)).getD []

/-- `Query`, with a query that is parsed already or not. -/
def query (cached : Bool) (raw name : Bytes) : Bytes :=
  if raw = [] then [] else if cached then get name (raw.splitOn 0x26)
    else lookup name (raw.splitOn 0x26)

/-- The key of a pair is a name, as it is written or decoded. -/
abbrev Named (name kv : Bytes) : Prop :=
  kv ≠ [] ∧ (key kv = name ∨ queryUnescape (key kv) = some name)

/-- The first pair of a name is kept by the parser under the name, or has the value that it finds
behind it. -/
def Agrees (name : Bytes) : List Bytes → Prop
  | [] => True
  | kv :: rest =>
    if Named name kv then
      (parsePair kv).any (·.1 = name) = true ∨ (queryUnescape (value kv)).getD [] = get name rest
    else Agrees name rest

variable {name kv : Bytes} {rest : List Bytes}

theorem queryUnescape_of_not_escaped (h : ¬ Escaped kv) : queryUnescape kv = some kv := by
  induction kv with
  | nil => rfl
  | cons c b ih =>
    simp only [Escaped, List.mem_cons, not_or] at h
    unfold queryUnescape
    rw [if_neg (Ne.symm h.1.1), if_neg (Ne.symm h.2.1), ih (not_or.mpr ⟨h.1.2, h.2.2⟩)]
    rfl

theorem queryUnescapeValue_eq : queryUnescapeValue kv = (queryUnescape kv).getD [] := by
  unfold queryUnescapeValue
  split_ifs with hn he
  · rw [hn]
    rfl
  · rfl
  · rw [queryUnescape_of_not_escaped he]
    rfl

theorem lookup_cons : lookup name (kv :: rest) =
    if Named name kv then (queryUnescape (value kv)).getD [] else lookup name rest := by
  rw [lookup, queryUnescapeValue_eq]
  by_cases he : Escaped (key kv)
  · split_ifs <;> simp_all [Named]
  · have hk := queryUnescape_of_not_escaped he
    split_ifs <;> simp_all [Named]

theorem parsePair_eq_some {x : Bytes × Bytes} (h : parsePair kv = some x) :
    Named x.1 kv ∧ queryUnescape (value kv) = some x.2 := by
  unfold parsePair at h
  split_ifs at h with hn
  obtain ⟨k, hk, h⟩ := Option.bind_eq_some_iff.mp h
  obtain ⟨v, hv, rfl⟩ := Option.map_eq_some_iff.mp h
  exact ⟨⟨(not_or.mp hn).1, .inr hk⟩, hv⟩

theorem get_cons : get name (kv :: rest) =
    if (parsePair kv).any (·.1 = name) then (queryUnescape (value kv)).getD []
      else get name rest := by
  unfold get
  cases hp : parsePair kv with
  | none => simp [hp]
  | some x => by_cases hn : x.1 = name <;> simp [hp, hn, (parsePair_eq_some hp).2]

theorem lookup_eq_get_iff (name : Bytes) (parts : List Bytes) :
    lookup name parts = get name parts ↔ Agrees name parts := by
  induction parts with
  | nil => exact iff_of_true rfl trivial
  | cons kv rest ih =>
    rw [lookup_cons, get_cons, Agrees]
    cases hp : (parsePair kv).any (·.1 = name) with
    | true =>
      obtain ⟨x, hx, hn⟩ := (Option.any_eq_true ..).mp hp
      have hm := (parsePair_eq_some hx).1
      rw [of_decide_eq_true hn] at hm
      simp [hm]
    | false =>
      simp only [Bool.false_eq_true, if_false, false_or]
      split_ifs
      exacts [Iff.rfl, ih]

/-- `Query` returns the same before the query is parsed and after exactly if the first pair of the
name agrees. -/
theorem query_agrees_iff (raw name : Bytes) :
    query false raw name = query true raw name ↔ Agrees name (raw.splitOn 0x26) := by
  rw [← lookup_eq_get_iff]
  by_cases hr : raw = []
  · subst hr
    exact iff_of_true rfl rfl
  · simp [query, hr]

/-- A semicolon, a bad escape, and a name that is not decoded. -/
theorem query_changes :
    query false (ascii "a=1;b&a=2") (ascii "a") = ascii "1;b" ∧
      query true (ascii "a=1;b&a=2") (ascii "a") = ascii "2" ∧
    query false (ascii "a=%zz&a=2") (ascii "a") = [] ∧ query true (ascii "a=%zz&a=2") (ascii "a") =
      ascii "2" ∧
    query false (ascii "a+b=1") (ascii "a+b") = ascii "1" ∧
      query true (ascii "a+b=1") (ascii "a+b") = [] := by
  decide +kernel

end Celeris.Query
