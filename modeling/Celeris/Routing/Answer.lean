import Celeris.Routing.Represents

/-!
# What a lookup answers on a table

The table-level account of a lookup: the value of a pattern is that of the last
entry with these tokens, up to the name of the catch-all; `Captures` gives the
parameters a match binds; `Answers` says which pattern a lookup takes, namely
one that is not hidden by a dead end and that no other such pattern beats.
-/

namespace Celeris.Routing

universe u v

variable {V : Type v}

/-! ## Patterns behind a prefix -/

variable {p q : List Tok} {R : Table V}

theorem wellFormed_of_strip {u : List Tok} (hp : WellFormed p) (h : strip u p = some q) :
    WellFormed q := by
  induction u generalizing p with
  | nil =>
    cases h
    exact hp
  | cons t u ih =>
    cases p with
    | nil => cases h
    | cons t' p =>
      by_cases hs : t.same t'
      · simp only [strip, hs, if_true] at h
        refine ih ?_ h
        cases t' with
        | lit b => exact hp
        | param n => exact hp.2
        | star n =>
          rw [show p = [] from hp]
          trivial
      · simp [strip, hs] at h

def Table.WellFormed (R : Table V) : Prop := ∀ e ∈ R, Routing.WellFormed e.1

theorem Table.WellFormed.after (h : R.WellFormed) {u : List Tok} :
    Table.WellFormed (after u R) := by
  rintro ⟨p, x⟩ hm
  obtain ⟨p₀, hp₀, hs⟩ := mem_after.mp hm
  exact wellFormed_of_strip (h _ hp₀) hs

theorem reachable_lits {R : Table V} {text : Bytes} {p : List Tok} {q : Bytes} :
    reachable R (text.map .lit ++ p) q =
      reachable (after (text.map .lit) R) p (q.drop text.length) := by
  induction text generalizing R q with
  | nil => simp
  | cons b bs ih =>
    rw [List.map_cons, List.cons_append, reachable, ih, after_after, List.drop_drop,
      List.length_cons, Nat.add_comm 1]
    rfl

/-! ## The parameters a match binds -/

/-- `Captures R p q ps`: the pattern `p` of the table `R` matches the path `q` and
binds `ps`. A catch-all is bound under the name it was first registered with
behind its prefix, and its value starts with `/` unless it is empty. -/
inductive Captures : Table V → List Tok → Bytes → Params → Prop
  | nil (R : Table V) : Captures R [] [] []
  | lit {R : Table V} {b : UInt8} {p : List Tok} {q : Bytes} {ps : Params} :
      Captures (after [.lit b] R) p q ps → Captures R (.lit b :: p) (b :: q) ps
  | param {R : Table V} {n value : Bytes} {p : List Tok} {q : Bytes} {ps : Params} :
      value ≠ [] → slash ∉ value → Captures (after [.param n] R) p q ps →
        Captures R (.param n :: p) (value ++ q) ((n, value) :: ps)
  | star {R : Table V} {n k q : Bytes} : firstStar R = some k →
      Captures R [.star n] q [(k, if q = [] then [] else slash :: q)]

theorem Captures.matches {q : Bytes} {ps : Params} (h : Captures R p q ps) : Matches p q := by
  induction h with
  | nil R => exact .nil
  | lit _ ih => exact .lit ih
  | param hv hs _ ih => exact .param hv hs ih
  | star _ => exact .star

theorem Captures.lits {text : Bytes} {q : Bytes} {ps : Params}
    (h : Captures (after (text.map .lit) R) p q ps) :
    Captures R (text.map .lit ++ p) (text ++ q) ps := by
  induction text generalizing R with
  | nil => simpa using h
  | cons b bs ih =>
    refine .lit (ih ?_)
    rwa [after_after]

/-! ## Precedence -/

theorem Earlier.asymm {a b : Bytes} (h : Earlier R a b) : ¬ Earlier R b a :=
  Nat.lt_asymm h

theorem TokBeats.irrefl {t : Tok} : ¬ TokBeats R t t := by
  rintro (_ | _ | _ | h)
  exact h.ne rfl

/-- Behind a common token the order is that of the table behind it. -/
theorem beats_cons_iff {t : Tok} : Beats R (t :: p) (t :: q) ↔ Beats (after [t] R) p q := by
  constructor
  · intro h
    cases h with
    | here _ _ h => exact absurd h TokBeats.irrefl
    | next h => exact h
  · exact .next

theorem beats_lits_iff {text : Bytes} :
    Beats R (text.map .lit ++ p) (text.map .lit ++ q) ↔ Beats (after (text.map .lit) R) p q := by
  induction text generalizing R with
  | nil => simp
  | cons b bs ih =>
    rw [List.map_cons, List.cons_append, List.cons_append, beats_cons_iff, ih, after_after]
    rfl

theorem not_beats_nil : ¬ Beats R p [] := by
  rintro ⟨⟩

theorem not_beats_star {m n : Bytes} : ¬ Beats R [.star m] [.star n] := by
  intro h
  cases h with
  | here _ _ h => cases h
  | next h => exact not_beats_nil h

/-- `Answers R q p`: a lookup of `q` takes the pattern `p`. -/
structure Answers (R : Table V) (q : Bytes) (p : List Tok) : Prop where
  covers : Matches p q
  reach : reachable R p q = true
  best : ∀ e ∈ R, Matches e.1 q → reachable R e.1 q = true → ¬ Beats R e.1 p

/-- What a lookup that takes the pattern `p` finds there. -/
def valueAt (R : Table V) (p : List Tok) : Option V := lastHere (after p R)

/-- `Holds R p x`: the table has the pattern `p`, and `x` is what is found
there. -/
def Holds (R : Table V) (p : List Tok) (x : V) : Prop := (p, x) ∈ R ∧ valueAt R p = some x

theorem after_star {m : Bytes} {n : Bytes} : after [.star m] R = after [.star n] R := by
  refine List.filterMap_congr fun e _ => ?_
  cases he : e.1 with
  | nil => rfl
  | cons t p => cases t <;> rfl

end Celeris.Routing
