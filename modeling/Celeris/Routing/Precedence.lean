import Celeris.Routing.Answer
import Mathlib.Data.Fintype.EquivFin
import Mathlib.Order.WellFounded

/-!
# The order of patterns decides

Of two patterns of a table that match the same path, one beats the other unless
they are the same up to the name of the catch-all (`beats_total`), so a lookup
has one answer (`Answers.unique`). Neither the order nor the dead ends depend
on the order of registration, as far as that does not decide between names
(`Swapped`).
-/

namespace Celeris.Routing

open List Routing Option Tok TokBeats

universe v w

variable {V : Type v}

/-! ## The order is total on matching patterns -/

variable {R S : Table V} {t : Tok} {p q p' : List Tok}

theorem Earlier.total {m n : Bytes} (hm : after [.param m] R ≠ []) (hne : m ≠ n) :
    Earlier R m n ∨ Earlier R n m := by
  have hf := findIdx_onParam_lt hm
  rcases Nat.lt_trichotomy (R.findIdx (onParam m)) (R.findIdx (onParam n)) with h | h | h
  · exact .inl h
  · have h1 := findIdx_getElem (p := onParam m) (w := hf)
    have h2 := findIdx_getElem (p := onParam n) (w := h ▸ hf)
    simp only [← h, onParam, decide_eq_true_eq] at h1 h2
    rw [h1] at h2
    simp only [some.injEq, param.injEq] at h2
    exact absurd h2 hne
  · exact .inr h

/-- Two patterns that are the same up to the name of the catch-all. -/
def Alike (p q : List Tok) : Prop := strip p q = some []

theorem alike_cons_iff {t' : Tok} : Alike (t :: p) (t' :: p') ↔ t.same t' = true ∧ Alike p p' := by
  by_cases hs : t.same t' <;> simp [Alike, strip, hs]

theorem Alike.cons (h : Alike p q) : Alike (t :: p) (t :: q) := by
  simpa [Alike, strip] using h

/-- Of two patterns that match the same path one beats the other. -/
theorem beats_total : ∀ {R : Table V} {q : Bytes} {x : V}, (p, x) ∈ R →
    WellFormed p → WellFormed p' → Matches p q → Matches p' q → Beats R p p' ∨ Beats R p' p ∨
      Alike p p' := by
  induction p generalizing p' with
  | nil =>
    intro R q x _ _ hw' hm hm'
    rw [matches_nil_iff.mp hm] at hm'
    rcases matches_empty hm' with rfl | ⟨n, rfl⟩
    · exact .inr (.inr rfl)
    · exact .inl (.stop n [])
  | cons t p ih =>
    intro R q x hx hw hw' hm hm'
    cases p' with
    | nil =>
      rw [matches_nil_iff.mp hm'] at hm
      rcases matches_empty hm with hp | ⟨n, hp⟩ <;> cases hp
      exact .inr (.inl (.stop n []))
    | cons t' p' =>
      have hmem : (p, x) ∈ after [t] R := mem_after.mpr ⟨_, hx, by simp [strip]⟩
      have lift : t = t' → (Beats (after [t] R) p p' ∨ Beats (after [t] R) p' p ∨ Alike p p') →
          Beats R (t :: p) (t' :: p') ∨ Beats R (t' :: p') (t :: p) ∨
            Alike (t :: p) (t' :: p') := by
        rintro rfl (h | h | h)
        · exact .inl (.next h)
        · exact .inr (.inl (.next h))
        · exact .inr (.inr h.cons)
      cases t with
      | lit b =>
        cases t' with
        | lit b' =>
          obtain ⟨r, rfl, h⟩ := matches_lit_iff.mp hm
          obtain ⟨r', hr', h'⟩ := matches_lit_iff.mp hm'
          cases hr'
          exact lift rfl (ih hmem hw hw' h h')
        | param n => exact .inl (.here _ _ (.litParam b n))
        | star n => exact .inl (.here _ _ (.litStar b n))
      | param n =>
        cases t' with
        | lit b' => exact .inr (.inl (.here _ _ (.litParam b' n)))
        | param n' =>
          by_cases hn : n = n'
          · subst hn
            exact lift rfl (ih hmem hw.2 hw'.2 ((matches_param_iff hw).mp hm).2
              ((matches_param_iff hw').mp hm').2)
          · rcases Earlier.total (ne_nil_of_mem hmem) hn with h | h
            · exact .inl (.here _ _ (.param h))
            · exact .inr (.inl (.here _ _ (.param h)))
        | star n' => exact .inl (.here _ _ (.paramStar n n'))
      | star n =>
        cases t' with
        | lit b' => exact .inr (.inl (.here _ _ (.litStar b' n)))
        | param n' => exact .inr (.inl (.here _ _ (.paramStar n' n)))
        | star n' =>
          rw [show p = [] from hw, show p' = [] from hw']
          exact .inr (.inr rfl)

theorem TokBeats.asymm {t' : Tok} (h : TokBeats R t t') : ¬ TokBeats R t' t := by
  intro h'
  cases h with
  | litParam b n | litStar b n | paramStar m n => cases h'
  | param h =>
    cases h' with
    | param h' => exact h.asymm h'

theorem Beats.asymm (h : Beats R p q) : ¬ Beats R q p := by
  induction h with
  | here p q ht =>
    intro h'
    cases h' with
    | here _ _ ht' => exact ht.asymm ht'
    | next _ => exact irrefl ht
  | stop n q => exact not_beats_nil
  | next _ ih => exact fun h' => ih (beats_cons_iff.mp h')

theorem TokBeats.trans {t' t'' : Tok} (h : TokBeats R t t') (h' : TokBeats R t' t'') :
    TokBeats R t t'' := by
  cases h with
  | litParam b n =>
    cases h' with
    | paramStar _ m => exact .litStar b m
    | param _ => exact .litParam b _
  | litStar b n | paramStar m n => cases h'
  | param h =>
    cases h' with
    | paramStar _ m => exact .paramStar _ m
    | param h' => exact .param (Nat.lt_trans h h')

theorem Beats.trans {r : List Tok} (h : Beats R p q) (h' : Beats R q r) : Beats R p r := by
  induction h generalizing r with
  | here p q ht =>
    cases h' with
    | here _ r ht' => exact .here p r (ht.trans ht')
    | @next _ _ _ r _ => exact .here p r ht
  | stop n q =>
    cases h' with
    | here _ _ ht => cases ht
    | @next _ _ _ r _ => exact .stop n r
  | @next R t p q _ ih =>
    cases h' with
    | here _ r ht => exact .here p r ht
    | next h' => exact .next (ih h')

/-- Among finitely many patterns there is one that none of them beats. -/
theorem exists_unbeaten {R : Table V} {L : List (List Tok)} (h : L ≠ []) :
    ∃ p ∈ L, ∀ p' ∈ L, ¬ Beats R p' p := by
  let beats (a b : {p // p ∈ L}) : Prop := Beats R a.1 b.1
  have : IsTrans _ beats := ⟨fun _ _ _ => Beats.trans⟩
  have : Std.Irrefl beats := ⟨fun _ hb => hb.asymm hb⟩
  obtain ⟨a, ha⟩ := exists_mem_of_ne_nil L h
  obtain ⟨⟨p, hp⟩, -, hbest⟩ :=
    (Finite.wellFounded_of_trans_of_irrefl beats).has_min .univ ⟨⟨a, ha⟩, trivial⟩
  exact ⟨p, hp, fun p' hp' => hbest ⟨p', hp'⟩ trivial⟩

/-- The name of a catch-all does not matter for what beats a pattern. -/
theorem Beats.alike_right {a b : List Tok} (h : Beats R p a) (ha : WellFormed a) (hab : Alike a b) :
    Beats R p b := by
  induction h generalizing b with
  | @here R t t' p a ht =>
    cases b with
    | nil => cases hab
    | cons s b =>
      refine .here p b ?_
      cases ht <;> cases s <;>
        simp_all [Alike, strip, Tok.same, TokBeats.litParam, TokBeats.litStar, TokBeats.paramStar,
          TokBeats.param]
  | stop n a =>
    cases b with
    | nil => cases hab
    | cons s b => cases s <;> simp_all [Alike, strip, same, Beats.stop]
  | @next R t p a hb ih =>
    cases b with
    | nil => cases hab
    | cons s b =>
      obtain ⟨hs, hab'⟩ := alike_cons_iff.mp hab
      cases t with
      | lit c =>
        cases s <;> simp [same] at hs
        subst hs
        exact .next (ih ha hab')
      | param n =>
        cases s <;> simp [same] at hs
        subst hs
        exact .next (ih ha.2 hab')
      | star n =>
        rw [show a = [] from ha] at hb
        exact absurd hb not_beats_nil

/-- Nothing that matches a path beats the path itself as a pattern. -/
theorem not_beats_lits {q : Bytes} (h : Matches p q) : ¬ Beats R p (q.map .lit) := by
  intro hb
  generalize hr : q.map lit = r at hb
  induction hb generalizing q with
  | here p r ht =>
    cases q with
    | nil => cases hr
    | cons c q =>
      cases hr
      cases ht
  | stop n r => cases q <;> cases hr
  | @next R t p r _ ih =>
    cases q with
    | nil => cases hr
    | cons c q =>
      cases hr
      obtain ⟨q', hq, hm⟩ := matches_lit_iff.mp h
      cases hq
      exact ih hm rfl

theorem Alike.after_eq (h : Alike p p') {R : Table V} : after p R = after p' R := by
  induction p generalizing p' R with
  | nil =>
    cases h
    rfl
  | cons t p ih =>
    cases p' with
    | nil => cases h
    | cons t' p' =>
      obtain ⟨hs, h'⟩ := alike_cons_iff.mp h
      have htt : after [t] R = after [t'] R := by
        cases t <;> cases t' <;> simp [same] at hs
        · rw [hs]
        · rw [hs]
        · exact after_star
      rw [← singleton_append, ← after_after, htt, ih h', after_after]
      rfl

theorem Alike.symm (h : Alike p q) : Alike q p := by
  induction p generalizing q with
  | nil =>
    cases q with
    | nil => rfl
    | cons t q => cases h
  | cons s p ih =>
    cases q with
    | nil => cases h
    | cons t q =>
      obtain ⟨hs, h'⟩ := alike_cons_iff.mp h
      refine alike_cons_iff.mpr ⟨?_, ih h'⟩
      cases s <;> cases t <;> simp_all [same]

/-- Nor does it matter for dead ends. -/
theorem Alike.reachable_eq (h : Alike p p') {R : Table V} {q : Bytes} :
    reachable R p q = reachable R p' q := by
  induction p generalizing p' R q with
  | nil =>
    cases h
    rfl
  | cons t p ih =>
    cases p' with
    | nil => cases h
    | cons t' p' =>
      obtain ⟨hs, h'⟩ := alike_cons_iff.mp h
      cases t <;> cases t' <;> simp [same] at hs
      · rw [hs, reachable, reachable, ih h']
      · rw [hs, reachable, reachable, ih h']
      · rfl

/-- Nor for what is matched. -/
theorem Alike.matches (h : Alike p p') {q : Bytes} (hm : Matches p q) : Matches p' q := by
  induction p generalizing p' q with
  | nil =>
    cases h
    exact hm
  | cons t p ih =>
    cases p' with
    | nil => cases h
    | cons t' p' =>
      obtain ⟨hs, h'⟩ := alike_cons_iff.mp h
      cases t <;> cases t' <;> simp [same] at hs <;> cases hm
      · rename_i hm
        exact hs ▸ .lit (ih h' hm)
      · rename_i hv hn hm
        exact hs ▸ .param hv hn (ih h' hm)
      · cases h'
        exact .star

/-- A lookup has one answer. -/
theorem Answers.unique (hwf : R.WellFormed) {q : Bytes} {x x' : V}
    (h : Answers R q p) (h' : Answers R q p') (hx : Holds R p x) (hx' : Holds R p' x') :
    x = x' := by
  rcases beats_total hx.1 (hwf _ hx.1) (hwf _ hx'.1) h.covers h'.covers with hb | hb | ha
  · exact absurd hb (h'.best _ hx.1 h.covers h.reach)
  · exact absurd hb (h.best _ hx'.1 h'.covers h'.reach)
  · have := hx.2
    rw [valueAt, ha.after_eq, ← valueAt, hx'.2] at this
    exact (some.inj this).symm

/-! ## What does not depend on the order of registration -/

/-- Two patterns that go on with different names behind the same prefix. -/
inductive Clash : List Tok → List Tok → Prop
  | param {m n : Bytes} (p q : List Tok) : m ≠ n → Clash (.param m :: p) (.param n :: q)
  | star {m n : Bytes} (p q : List Tok) : m ≠ n → Clash (.star m :: p) (.star n :: q)
  | next {t : Tok} {p q : List Tok} : Clash p q → Clash (t :: p) (t :: q)

/-- Tables that differ in the order of two neighbours whose names do not
clash. -/
inductive Swapped : Table V → Table V → Prop
  | refl (R : Table V) : Swapped R R
  | swap (A B : Table V) {e f : List Tok × V} : ¬ Clash e.1 f.1 → ¬ Clash f.1 e.1 →
      Swapped (A ++ e :: f :: B) (A ++ f :: e :: B)

theorem Swapped.perm (h : Swapped R S) : R.Perm S := by
  cases h with
  | refl => exact .refl _
  | swap A B _ _ => exact List.Perm.append_left A (.swap _ _ B)

theorem Swapped.symm (h : Swapped R S) : Swapped S R := by
  cases h with
  | refl => exact .refl _
  | swap A B h h' => exact .swap A B h' h

/-- Names that clash behind a token clash. -/
theorem Clash.of_strip {q' : List Tok} (hp : strip [t] p = some p')
    (hq : strip [t] q = some q') (h : Clash p' q') : Clash p q := by
  cases t with
  | lit b =>
    rw [strip_lit_iff.mp hp, strip_lit_iff.mp hq]
    exact .next h
  | param n =>
    rw [strip_param_iff.mp hp, strip_param_iff.mp hq]
    exact .next h
  | star n =>
    obtain ⟨m, rfl⟩ := strip_star_iff.mp hp
    obtain ⟨m', rfl⟩ := strip_star_iff.mp hq
    by_cases hm : m = m'
    · subst hm
      exact .next h
    · exact .star _ _ hm

theorem Swapped.after (h : Swapped R S) {t : Tok} : Swapped (after [t] R) (after [t] S) := by
  cases h with
  | refl => exact .refl _
  | @swap A B e f hc hc' =>
    have hcons : ∀ (e f : List Tok × V), after [t] (e :: f :: B) =
        after [t] [e] ++ (after [t] [f] ++ after [t] B) := fun e f => by
      rw [← after_append, ← after_append]
      rfl
    rw [after_append, after_append, hcons e f, hcons f e]
    cases he : strip [t] e.1 with
    | none =>
      rw [show after [t] [e] = [] by simp [after, he]]
      exact .refl _
    | some p =>
      cases hf : strip [t] f.1 with
      | none =>
        rw [show after [t] [f] = [] by simp [after, hf]]
        exact .refl _
      | some q =>
        rw [show after [t] [e] = [(p, e.2)] by simp [after, he],
          show after [t] [f] = [(q, f.2)] by simp [after, hf]]
        exact .swap (e := (p, e.2)) (f := (q, f.2)) _ _ (fun h => hc (h.of_strip he hf))
          fun h => hc' (h.of_strip hf he)

theorem Swapped.earlier (h : Swapped R S) {m n : Bytes} (he : Earlier R m n) : Earlier S m n := by
  have hne := he.ne
  cases h with
  | refl => exact he
  | @swap A B e f hc hc' =>
    have key : ∀ {a b : List Tok × V}, onParam m a = true → onParam n b = true →
        Clash a.1 b.1 := by
      rintro ⟨p, x⟩ ⟨q, y⟩ ha hb
      cases p with
      | nil => simp [onParam] at ha
      | cons t p =>
        cases q with
        | nil => simp [onParam] at hb
        | cons t' q =>
          simp only [onParam, head?_cons, decide_eq_true_eq, some.injEq] at ha hb
          subst ha hb
          exact .param _ _ hne
    unfold Earlier at he ⊢
    have h1 : onParam m e = true → onParam n f = false := fun ha =>
      Bool.eq_false_iff.mpr fun hb => hc (key ha hb)
    simp only [findIdx_append, findIdx_cons] at he ⊢
    generalize onParam m e = me, onParam m f = mf, onParam n e = ne, onParam n f = nf at *
    cases me <;> cases mf <;> cases ne <;> cases nf <;>
      simp only [cond_true, cond_false, forall_const, reduceCtorEq] at * <;>
      split_ifs at * <;> omega

/-- Tables that stay related behind a token, and of which one has the names in the order of the
other. -/
theorem Beats.imp {W : Type w} {S : Table W} {r : Table V → Table W → Prop}
    (ha : ∀ {R S t}, r R S → r (after [t] R) (after [t] S))
    (he : ∀ {R S m n}, r R S → Earlier R m n → Earlier S m n) (h : r R S) (hb : Beats R p q) :
    Beats S p q := by
  induction hb generalizing S with
  | here p q ht =>
    refine .here p q ?_
    cases ht with
    | litParam b n => exact .litParam b n
    | litStar b n => exact .litStar b n
    | paramStar m n => exact .paramStar m n
    | param hmn => exact .param (he h hmn)
  | stop n q => exact .stop n q
  | next _ ih => exact .next (ih (ha h))

theorem Swapped.beats (h : Swapped R S) : Beats R p q → Beats S p q := .imp (·.after) (·.earlier) h

theorem forks_perm (h : R.Perm S) : forks R = forks S := by
  have hi : forks R = false ↔ forks S = false := by
    simp [forks_eq_false_iff, h.mem_iff]
  cases hR : forks R <;> cases hS : forks S <;> simp_all

theorem after_perm (h : R.Perm S) (u : List Tok) : (after u R).Perm (after u S) :=
  h.filterMap _

theorem deadEnd_perm (h : R.Perm S) (q : Bytes) : deadEnd R q = deadEnd S q := by
  have hb : bare (after (q.map .lit) R) = bare (after (q.map .lit) S) :=
    (after_perm h _).all_eq
  have hf : ∀ u, forks (after u R) = forks (after u S) := fun u =>
    forks_perm (after_perm h u)
  simp [deadEnd, hb, hf]

theorem reachable_perm (h : R.Perm S) (p : List Tok) (q : Bytes) :
    reachable R p q = reachable S p q := by
  induction p generalizing R S q with
  | nil => rfl
  | cons t p ih =>
    cases t with
    | lit b => exact ih (after_perm h _) _
    | param n => simp only [reachable, deadEnd_perm h, ih (after_perm h _)]
    | star n => simp [reachable, deadEnd_perm h]

/-- The answer does not depend on the order. -/
theorem Swapped.answers (h : Swapped R S) {q : Bytes} (ha : Answers R q p) : Answers S q p := by
  refine ⟨ha.covers, by rw [← reachable_perm h.perm]; exact ha.reach, fun e he hm hr hb => ?_⟩
  rw [← reachable_perm h.perm] at hr
  exact ha.best e (h.perm.mem_iff.mpr he) hm hr (h.symm.beats hb)

/-- Different patterns that are alike have different names for the catch-all. -/
theorem Alike.clash {a b : List Tok} (ha : Alike p a) (hb : Alike p b) (hne : a ≠ b) :
    Clash a b := by
  induction p generalizing a b with
  | nil =>
    cases ha
    cases hb
    exact absurd rfl hne
  | cons t p ih =>
    cases a with
    | nil => cases ha
    | cons s a =>
      cases b with
      | nil => cases hb
      | cons s' b =>
        by_cases hs : t.same s
        · by_cases hs' : t.same s'
          · have ha' : Alike p a := by simpa [Alike, strip, hs] using ha
            have hb' : Alike p b := by simpa [Alike, strip, hs'] using hb
            by_cases hss : s = s'
            · subst hss
              exact .next (ih ha' hb' fun e => hne (by rw [e]))
            · cases t <;> cases s <;> cases s' <;> simp_all [same]
              exact .star _ _ hss
          · simp [Alike, strip, hs'] at hb
        · simp [Alike, strip, hs] at ha

instance (p q : List Tok) : Decidable (Alike p q) := inferInstanceAs (Decidable (_ = _))

theorem valueAt_eq_getLast {R : Table V} {p : List Tok} :
    valueAt R p = (R.filterMap fun e => if Alike p e.1 then some e.2 else none).getLast? := by
  rw [valueAt, lastHere, after, filterMap_filterMap]
  congr 1
  refine filterMap_congr fun e _ => ?_
  cases hs : strip p e.1 with
  | none | some r => simp [Alike, hs]

/-- Nor does what is found at a pattern, if no pattern stands there twice. -/
theorem Swapped.valueAt_eq (h : Swapped R S)
    (hR : R.Pairwise fun a b => a.1 ≠ b.1) (p : List Tok) : valueAt R p = valueAt S p := by
  cases h with
  | refl => rfl
  | @swap A B e f hc hc' =>
    have hne : e.1 ≠ f.1 := by
      rw [pairwise_append, pairwise_cons] at hR
      exact hR.2.1.1 f mem_cons_self
    rw [valueAt_eq_getLast, valueAt_eq_getLast, filterMap_append, filterMap_append]
    by_cases he : Alike p e.1
    · have hf : ¬ Alike p f.1 := fun hf => hc (he.clash hf hne)
      simp [filterMap_cons, hf]
    · simp [filterMap_cons, he]

end Celeris.Routing
