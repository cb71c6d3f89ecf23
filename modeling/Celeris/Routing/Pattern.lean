import Celeris.Routing.Tree
import Mathlib.Data.List.Basic

/-!
# Patterns, what they match and which one wins

The abstract side of the router. A pattern is a list of tokens: a literal byte,
a parameter `:name` or a catch-all `*name`. `Matches` says which paths a
pattern matches, `Beats` which of two matching patterns is preferred: at the
first difference a literal byte beats a parameter and a parameter beats a
catch-all, and of two parameters with different names the one registered first
wins.

A table is a list of patterns with values, in registration order. `after u R`
is what is left of the table behind the prefix `u`; it is what the trie node
reached by `u` stands for.
-/

namespace Celeris.Routing

open List

universe u v

/-! ## Tokens -/

/-- One token of a pattern. -/
inductive Tok where
  | lit (b : UInt8)
  | param (name : Bytes)
  | star (name : Bytes)
deriving DecidableEq, Repr

def Segment.toks (s : Segment) : List Tok :=
  match s.kind with
  | .static => s.text.map .lit
  | .param => [.param (s.text.drop 1)]
  | .catchAll => [.star (s.text.drop 1)]

/-- The tokens of a pattern, without the leading `/`. -/
def toks (pattern : Bytes) : List Tok := (splitPath pattern).flatMap Segment.toks

/-- How a token is written. -/
def Tok.text : Tok → Bytes
  | .lit b => [b]
  | .param n => colon :: n
  | .star n => Celeris.star :: n

/-- What the tokens of a pattern look like: a parameter takes a whole rest of
segment, so only `/` follows it, and nothing follows a catch-all. -/
def WellFormed : List Tok → Prop
  | [] => True
  | .lit _ :: ts => WellFormed ts
  | .param _ :: ts => (ts = [] ∨ ts.head? = some (.lit slash)) ∧ WellFormed ts
  | .star _ :: ts => ts = []

/-! ## Matching -/

/-- `Matches p path`: a parameter takes a non-empty run without `/`, a catch-all
whatever is left. -/
inductive Matches : List Tok → Bytes → Prop
  | nil : Matches [] []
  | lit {b : UInt8} {ts : List Tok} {path : Bytes} :
      Matches ts path → Matches (.lit b :: ts) (b :: path)
  | param {n value : Bytes} {ts : List Tok} {path : Bytes} :
      value ≠ [] → slash ∉ value → Matches ts path → Matches (.param n :: ts) (value ++ path)
  | star {n path : Bytes} : Matches [.star n] path

variable {path : Bytes} {ts : List Tok}

/-- A run without `/` that is followed by a `/` or by nothing is what
`findSegmentEnd` measures. -/
theorem findSegmentEnd_append {value : Bytes} (hv : slash ∉ value)
    (hp : path = [] ∨ path.head? = some slash) : findSegmentEnd (value ++ path) = value.length := by
  induction value with
  | nil =>
    rcases hp with rfl | hp
    · rfl
    · obtain ⟨bs, rfl⟩ := head?_eq_some_iff.mp hp
      simp [findSegmentEnd]
  | cons b bs ih =>
    rw [mem_cons, not_or] at hv
    have hb : b ≠ slash := fun e => hv.1 e.symm
    simp [findSegmentEnd, hb, ih hv.2]

theorem slash_notMem_take_findSegmentEnd : slash ∉ path.take (findSegmentEnd path) := by
  induction path with
  | nil => simp
  | cons b bs ih =>
    by_cases h : b = slash
    · simp [findSegmentEnd, h]
    · simpa [findSegmentEnd, h, Ne.symm h] using ih

theorem matches_nil_iff : Matches [] path ↔ path = [] := by
  constructor
  · intro h
    cases h
    rfl
  · rintro rfl
    exact .nil

/-- A pattern that matches nothing more ends here or is a catch-all. -/
theorem matches_empty (h : Matches ts []) : ts = [] ∨ ∃ m, ts = [.star m] := by
  generalize hq : ([] : Bytes) = q at h
  cases h with
  | nil => exact .inl rfl
  | lit _ => cases hq
  | param hv _ _ => exact absurd (List.append_eq_nil_iff.mp hq.symm).1 hv
  | star => exact .inr ⟨_, rfl⟩

theorem matches_lit_iff {b : UInt8} : Matches (.lit b :: ts) path ↔ ∃ rest, path = b :: rest ∧
    Matches ts rest := by
  constructor
  · intro h
    cases h with
    | lit h => exact ⟨_, rfl, h⟩
  · rintro ⟨rest, rfl, h⟩
    exact .lit h

theorem matches_lits_iff {text : Bytes} :
    Matches (text.map .lit ++ ts) path ↔ ∃ rest, path = text ++ rest ∧ Matches ts rest := by
  induction text generalizing path with
  | nil => simp
  | cons b bs ih =>
    rw [map_cons, cons_append, matches_lit_iff]
    constructor
    · rintro ⟨rest, rfl, h⟩
      obtain ⟨rest', rfl, h'⟩ := ih.mp h
      exact ⟨rest', rfl, h'⟩
    · rintro ⟨rest, rfl, h⟩
      exact ⟨bs ++ rest, rfl, ih.mpr ⟨rest, rfl, h⟩⟩

theorem matches_text_iff {text : Bytes} : Matches (text.map .lit) path ↔ path = text := by
  rw [← append_nil (text.map Tok.lit), matches_lits_iff]
  constructor
  · rintro ⟨rest, rfl, h⟩
    rw [matches_nil_iff.mp h, append_nil]
  · rintro rfl
    exact ⟨[], (append_nil _).symm, .nil⟩

/-- The run a parameter takes is the whole segment, because only `/` can
follow. -/
theorem matches_param_iff {n : Bytes} (hw : WellFormed (.param n :: ts)) :
    Matches (.param n :: ts) path ↔
      findSegmentEnd path ≠ 0 ∧ Matches ts (path.drop (findSegmentEnd path)) := by
  constructor
  · intro h
    cases h with
    | @param _ value _ rest hv hs h =>
      have hr : rest = [] ∨ rest.head? = some slash := by
        rcases hw.1 with rfl | hts
        · exact .inl (matches_nil_iff.mp h)
        · obtain ⟨ts, rfl⟩ := head?_eq_some_iff.mp hts
          obtain ⟨r, rfl, -⟩ := matches_lit_iff.mp h
          exact .inr rfl
      rw [findSegmentEnd_append hs hr, drop_left]
      exact ⟨fun e => hv (eq_nil_of_length_eq_zero e), h⟩
  · rintro ⟨hne, h⟩
    have hv : path.take (findSegmentEnd path) ≠ [] := by
      intro e
      rw [take_eq_nil_iff] at e
      rcases e with e | rfl
      · exact hne e
      · exact hne rfl
    have := Matches.param (n := n) hv slash_notMem_take_findSegmentEnd h
    rwa [take_append_drop] at this

/-! ## Tables and what is left behind a prefix -/

/-- Patterns with values, in registration order. -/
abbrev Table (V : Type v) := List (List Tok × V)

/-- Whether two tokens lead to the same child of a node: a node has one
catch-all child, whatever the name. -/
def Tok.same : Tok → Tok → Bool
  | .lit a, .lit b => a = b
  | .param a, .param b => a = b
  | .star _, .star _ => true
  | _, _ => false

@[simp] theorem Tok.same_refl {t : Tok} : t.same t = true := by
  cases t <;> simp [Tok.same]

/-- What is left of a pattern behind the prefix `u`. -/
def strip : List Tok → List Tok → Option (List Tok)
  | [], p => some p
  | _ :: _, [] => none
  | t :: u, t' :: p => if t.same t' then strip u p else none

/-- The part of a table behind the prefix `u`. -/
def after {V : Type v} (u : List Tok) (R : Table V) : Table V :=
  R.filterMap fun e => (strip u e.1).map fun p => (p, e.2)

section After

variable {V : Type v}

theorem strip_append (u w p : List Tok) : strip (u ++ w) p = (strip u p).bind (strip w) := by
  induction u generalizing p with
  | nil => rfl
  | cons t u ih =>
    cases p with
    | nil => rfl
    | cons t' p =>
      by_cases h : t.same t'
      · simp [strip, h, ih]
      · simp [strip, h]

variable {p q u : List Tok} {R : Table V} {x : V}

/-- Stripping literals and parameters takes off exactly them. -/
theorem strip_lits_iff {text : Bytes} :
    strip (text.map .lit) p = some q ↔ p = text.map .lit ++ q := by
  induction text generalizing p with
  | nil => simp [strip]
  | cons b bs ih =>
    cases p with
    | nil => simp [strip]
    | cons t p =>
      cases t with
      | lit c =>
        by_cases h : b = c
        · subst h
          simp [strip, Tok.same, ih]
        · simp [strip, Tok.same, h, Ne.symm h]
      | param n | star n => simp [strip, Tok.same]

theorem strip_lit_iff {b : UInt8} : strip [.lit b] p = some q ↔ p = .lit b :: q := by
  change strip ([b].map .lit) p = some q ↔ _
  exact strip_lits_iff

theorem strip_param_iff {n : Bytes} : strip [.param n] p = some q ↔ p = .param n :: q := by
  cases p with
  | nil => simp [strip]
  | cons t p =>
    cases t with
    | lit c | star m => simp [strip, Tok.same]
    | param m =>
      by_cases h : n = m
      · simp [strip, Tok.same, h]
      · simp [strip, Tok.same, h, Ne.symm h]

theorem strip_star_iff {n : Bytes} : strip [.star n] p = some q ↔ ∃ m, p = .star m :: q := by
  cases p with
  | nil => simp [strip]
  | cons t p => cases t <;> simp [strip, Tok.same]

theorem mem_after : (p, x) ∈ after u R ↔ ∃ p₀, (p₀, x) ∈ R ∧ strip u p₀ = some p := by
  simp only [after, mem_filterMap, Option.map_eq_some_iff, Prod.mk.injEq, Prod.exists]
  constructor
  · rintro ⟨p₀, y, hm, p', hs, rfl, rfl⟩
    exact ⟨p₀, hm, hs⟩
  · rintro ⟨p₀, hm, hs⟩
    exact ⟨p₀, x, hm, p, hs, rfl, rfl⟩

@[simp] theorem after_nil : after [] R = R := by
  simp [after, strip]

theorem after_append {S : Table V} : after u (R ++ S) = after u R ++ after u S := by
  simp [after]

theorem after_after {w : List Tok} : after w (after u R) = after (u ++ w) R := by
  simp only [after, filterMap_filterMap, strip_append]
  refine filterMap_congr fun e _ => ?_
  cases strip u e.1 <;> rfl

/-- One more entry behind the prefix. -/
theorem after_concat_of_strip (h : strip u p = some q) :
    after u (R ++ [(p, x)]) = after u R ++ [(q, x)] := by
  simp [after, h]

theorem after_concat_of_none (h : strip u p = none) : after u (R ++ [(p, x)]) = after u R := by
  simp [after, h]

end After

/-! ## Which pattern wins -/

section Order

variable {V : Type v}

/-- Whether a pattern goes on with the parameter `n`. -/
def onParam (n : Bytes) (e : List Tok × V) : Bool := e.1.head? = some (.param n)

/-- `Earlier R a b`: a pattern that goes on with `:a` was registered before every
pattern that goes on with `:b`. -/
def Earlier (R : Table V) (a b : Bytes) : Prop :=
  R.findIdx (onParam a) < R.findIdx (onParam b)

/-- The order of two different tokens behind the same prefix. -/
inductive TokBeats (S : Table V) : Tok → Tok → Prop
  | litParam (b : UInt8) (n : Bytes) : TokBeats S (.lit b) (.param n)
  | litStar (b : UInt8) (n : Bytes) : TokBeats S (.lit b) (.star n)
  | paramStar (m n : Bytes) : TokBeats S (.param m) (.star n)
  | param {m n : Bytes} : Earlier S m n → TokBeats S (.param m) (.param n)

/-- `Beats R p q`: of two patterns that match the same path, `p` is the one to
take. A pattern that ends beats one that goes on with a catch-all. -/
inductive Beats : Table V → List Tok → List Tok → Prop
  | here {R : Table V} {t t' : Tok} (p q : List Tok) : TokBeats R t t' → Beats R (t :: p) (t' :: q)
  | stop {R : Table V} (n : Bytes) (q : List Tok) : Beats R [] (.star n :: q)
  | next {R : Table V} {t : Tok} {p q : List Tok} :
      Beats (after [t] R) p q → Beats R (t :: p) (t :: q)

end Order

/-! ## Dead ends

`search` stops at a static child whose text is exactly the rest of the path,
also when that child is a mere fork of the trie: a node with no chain and no
catch-all. The patterns its parent continues with by a parameter or a catch-all
are then not tried. `deadEnd` says on the table when that happens. -/

section DeadEnd

variable {V : Type v}

/-- Whether the patterns of a table do not all go on with one and the same
literal byte: there is a node of the trie here. -/
def forks : Table V → Bool
  | [] => false
  | e :: S =>
    match e.1 with
    | .lit b :: _ => S.any fun e => e.1.head? ≠ some (.lit b)
    | _ => true

/-- Whether no pattern of a table ends here and none goes on with a
catch-all. -/
def bare (S : Table V) : Bool :=
  S.all fun e =>
    match e.1 with
    | [] => false
    | .star _ :: _ => false
    | _ => true

/-- Whether the literal text `q` leads from a node with the table `S` straight
to a fork at which nothing can be answered. -/
def deadEnd (S : Table V) (q : Bytes) : Bool :=
  q ≠ [] && forks (after (q.map .lit) S) && bare (after (q.map .lit) S) &&
    (List.range q.length).all fun i => i = 0 || !forks (after ((q.take i).map .lit) S)

/-- Whether no dead end hides the pattern `p` on the path `q`: where `p` goes on
with a parameter or a catch-all, the rest of the path is not the text of a dead
end. -/
def reachable : Table V → List Tok → Bytes → Bool
  | _, [], _ => true
  | R, .lit b :: p, q => reachable (after [.lit b] R) p (q.drop 1)
  | R, .param n :: p, q =>
    !deadEnd R q && reachable (after [.param n] R) p (q.drop (findSegmentEnd q))
  | R, .star _ :: _, q => !deadEnd R q

variable {S : Table V}

/-- A table does not fork exactly when one literal byte goes on every pattern. -/
theorem forks_eq_false_iff : forks S = false ↔ ∃ b, ∀ e ∈ S, e.1.head? = some (.lit b) := by
  cases S with
  | nil => simp [forks]
  | cons e S =>
    obtain ⟨p, x⟩ := e
    cases p with
    | nil => simp [forks]
    | cons t p =>
      cases t with
      | lit b =>
        simp only [forks, any_eq_false, ne_eq, decide_not, Bool.not_eq_true',
          decide_eq_false_iff_not, not_not, forall_mem_cons, head?_cons]
        constructor
        · intro h
          exact ⟨b, rfl, h⟩
        · rintro ⟨c, hc, h⟩
          cases hc
          exact h
      | param n | star n => simp [forks]

theorem forks_append_left {T : Table V} (h : forks S = true) : forks (S ++ T) = true := by
  by_contra hc
  rw [Bool.not_eq_true, forks_eq_false_iff] at hc
  obtain ⟨b, hb⟩ := hc
  have : forks S = false :=
    forks_eq_false_iff.mpr ⟨b, fun e he => hb e (mem_append_left T he)⟩
  rw [h] at this
  cases this

theorem deadEnd_iff {q : Bytes} :
    deadEnd S q = true ↔ q ≠ [] ∧ forks (after (q.map .lit) S) = true ∧
      bare (after (q.map .lit) S) = true ∧
      ∀ i, 0 < i → i < q.length → forks (after ((q.take i).map .lit) S) = false := by
  simp only [deadEnd, Bool.and_eq_true, decide_eq_true_eq, all_eq_true, mem_range,
    Bool.or_eq_true, Bool.not_eq_true', and_assoc]
  refine and_congr_right fun _ => and_congr_right fun _ => and_congr_right fun _ => ?_
  constructor
  · intro h i hi hq
    rcases h i hq with rfl | h
    · exact absurd hi (Nat.lt_irrefl 0)
    · exact h
  · intro h i hq
    rcases Nat.eq_zero_or_pos i with rfl | hi
    · exact .inl rfl
    · exact .inr (h i hi hq)

end DeadEnd

end Celeris.Routing
