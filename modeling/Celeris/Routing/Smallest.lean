import Celeris.Routing.Find

/-!
# `find` takes the smallest matching pattern

`RoutesSmallest`: a lookup finds a chain just when some pattern matches, the
chain is that of the smallest matching pattern, and the order of registration
does not matter as far as it does not decide between names.

The source does not always do that, and `find_routesSmallest_iff` says exactly
when it does. Four things can hide the smallest pattern: a static pattern with
a double slash, which is looked up before the slashes are collapsed; the root,
whose catch-all is not tried for `/`; a dead end on the way through the trie
(`reachable`); and a slash at the end of the path, which is dropped when another
one is collapsed (`losesSlash`). The last part, that the order does not matter,
always holds.
-/

namespace Celeris.Routing

open Registration List Option

universe u

variable {H : Type u}

/-- A registration whose pattern matches the slash-collapsed path. -/
def Registration.Covers (g : Registration H) (method path : Bytes) : Prop :=
  g.method = method ∧ Matches (.lit slash :: toks g.pattern) (slashCollapsed path)

variable {method path : Bytes} {regs regs' : List (Registration H)}

theorem Registration.covers_iff {g : Registration H} :
    g.Covers method path ↔
      g.method = method ∧ Matches (toks g.pattern) (collapseFrom slash path) := by
  rw [Registration.Covers, slashCollapsed]
  refine and_congr_right fun _ => ?_
  rw [matches_lit_iff]
  constructor
  · rintro ⟨rest, hr, hm⟩
    cases hr
    exact hm
  · exact fun hm => ⟨_, rfl, hm⟩

/-- One pattern is at most as large as another; patterns that differ only in the
name of the catch-all are equally large. -/
def NoLarger (regs : List (Registration H)) (method : Bytes) (g g' : Registration H) : Prop :=
  Alike (toks g.pattern) (toks g'.pattern) ∨
    Beats (patternsFor regs method) (toks g.pattern) (toks g'.pattern)

/-- The smallest pattern that matches. -/
def Smallest (regs : List (Registration H)) (method path : Bytes) (g : Registration H) : Prop :=
  g ∈ regs ∧ g.Covers method path ∧ ∀ g' ∈ regs, g'.Covers method path → NoLarger regs method g g'

/-- No dead end stands on the way of a path to a pattern. -/
def reached (regs : List (Registration H)) (method path : Bytes) (g : Registration H) : Bool :=
  reachable (patternsFor regs method) (toks g.pattern) (restOf path)

/-- Swap two neighbouring registrations whose names do not clash. -/
inductive SwapStep : List (Registration H) → List (Registration H) → Prop
  | swap (A B : List (Registration H)) {g g' : Registration H} :
      (g.method = g'.method → ¬ Clash (toks g.pattern) (toks g'.pattern)) →
      SwapStep (A ++ g :: g' :: B) (A ++ g' :: g :: B)

/-- Registrations made in another order that does not decide between names. -/
def Reordered (regs regs' : List (Registration H)) : Prop :=
  Relation.ReflTransGen SwapStep regs regs'

/-- What routing promises for one request. -/
structure RoutesSmallest (regs : List (Registration H)) (r : Router H) (method path : Bytes) :
    Prop where
  /-- A chain is found just when some pattern matches. -/
  complete : (r.find method path []).1.handlers.isSome = true ↔ ∃ g ∈ regs, g.Covers method path
  /-- It is the chain of the smallest pattern that matches. -/
  smallest : ∀ chain, (r.find method path []).1.handlers = some chain →
    ∃ g, Smallest regs method path g ∧ g.chain = chain ∧
      g.pattern = (r.find method path []).1.fullPath
  /-- Another order of registration finds the same chain and pattern. -/
  orderFree : ∀ regs' defaultAsync noAutoHEAD r', Reordered regs regs' →
    (newRouter defaultAsync noAutoHEAD).build regs' = some r' →
    (r'.find method path []).1.route = (r.find method path []).1.route

/-- When nothing hides the smallest pattern. -/
structure Unhidden (regs : List (Registration H)) (method path : Bytes) : Prop where
  /-- A static pattern that is the path byte by byte has no double slash. -/
  literal : Literal regs method path → hasDouble path = false
  /-- For a path that collapses to `/`, a catch-all below the root is registered
  only together with `/` itself. -/
  root : slashCollapsed path = [slash] →
    (∃ g ∈ regs, g.method = method ∧ ∃ n, toks g.pattern = [.star n]) →
    ∃ g ∈ regs, g.method = method ∧ g.pattern = [slash]
  /-- No dead end stands before the smallest pattern. -/
  dead : ∀ g, Smallest regs method path g → reached regs method path g = true
  /-- Where the path loses its last slash, the smallest pattern matches what is
  left, and so does none that is found before it. -/
  slash : losesSlash path = true →
    (∀ g, Smallest regs method path g → Matches (toks g.pattern) (restOf path)) ∧
    ∀ g ∈ regs, g.method = method → Matches (toks g.pattern) (restOf path) →
      reached regs method path g = true → ∃ g', Smallest regs method path g' ∧
        NoLarger regs method g' g

/-! ## Smallest patterns -/

variable {g g' : Registration H}

/-- Of two patterns that match a path, the one that is not beaten is at least as
small. -/
theorem total_of_matches {q : Bytes} (hg : g ∈ regs) (hm : g.method = method)
    (h : Matches (toks g.pattern) q) (h' : Matches (toks g'.pattern) q)
    (hb : ¬ Beats (patternsFor regs method) (toks g'.pattern) (toks g.pattern)) :
    NoLarger regs method g g' := by
  rcases beats_total (mem_patternsFor.mpr ⟨g, hg, hm, rfl, rfl⟩) toks_wellFormed toks_wellFormed
    h h' with hlt | hgt | ha
  · exact .inr hlt
  · exact absurd hgt hb
  · exact .inl ha

theorem Registration.Covers.total (hg : g ∈ regs) (h : g.Covers method path)
    (h' : g'.Covers method path)
    (hb : ¬ Beats (patternsFor regs method) (toks g'.pattern) (toks g.pattern)) :
    NoLarger regs method g g' :=
  total_of_matches hg h.1 (covers_iff.mp h).2 (covers_iff.mp h').2 hb

/-- A pattern that is beaten is not smaller. -/
theorem not_noLarger (hb : Beats (patternsFor regs method) (toks g.pattern) (toks g'.pattern)) :
    ¬ NoLarger regs method g' g := by
  rintro (ha | hb')
  · have hs := hb.alike_right toks_wellFormed ha
    exact hs.asymm hs
  · exact hb.asymm hb'

/-- A path that some pattern matches has a smallest one. -/
theorem exists_smallest (h : ∃ g ∈ regs, g.Covers method path) :
    ∃ g, Smallest regs method path g := by
  classical
  obtain ⟨g₀, hg₀, hc₀⟩ := h
  have hne : (regs.filter fun g => g.Covers method path).map (fun g => toks g.pattern) ≠ [] := by
    refine ne_nil_of_mem (mem_map_of_mem (a := g₀) ?_)
    simp [hg₀, hc₀]
  obtain ⟨p, hp, hb⟩ := exists_unbeaten hne
  obtain ⟨g, hg, rfl⟩ := mem_map.mp hp
  rw [mem_filter, decide_eq_true_eq] at hg
  refine ⟨g, hg.1, hg.2, fun g' hg' hc' => hg.2.total hg.1 hc' (hb _ ?_)⟩
  refine mem_map.mpr ⟨g', ?_, rfl⟩
  rw [mem_filter, decide_eq_true_eq]
  exact ⟨hg', hc'⟩

/-- Two smallest patterns differ at most in the name of the catch-all. -/
theorem Smallest.alike (h : Smallest regs method path g)
    (h' : Smallest regs method path g') : Alike (toks g.pattern) (toks g'.pattern) :=
  (h.2.2 g' h'.1 h'.2.1).resolve_right fun hb => not_noLarger hb (h'.2.2 g h.1 h.2.1)

/-- What is alike to a smallest pattern is a smallest pattern. -/
theorem Smallest.of_alike (h : Smallest regs method path g) (hg' : g' ∈ regs)
    (hm : g'.method = method) (ha : Alike (toks g'.pattern) (toks g.pattern)) :
    Smallest regs method path g' := by
  have hc' : g'.Covers method path := covers_iff.mpr ⟨hm, ha.symm.matches (covers_iff.mp h.2.1).2⟩
  refine ⟨hg', hc', fun g'' hg'' hc'' => hc'.total hg' hc'' fun hb => ?_⟩
  exact not_noLarger (hb.alike_right toks_wellFormed ha) (h.2.2 g'' hg'' hc'')

/-! ## The order of registration -/

/-- No pattern is registered twice for a method. -/
def Distinct (regs : List (Registration H)) : Prop :=
  regs.Pairwise fun g g' => (g.method, g.pattern) ≠ (g'.method, g'.pattern)

theorem Clash.symm {p q : List Tok} (h : Clash p q) : Clash q p := by
  induction h with
  | param p q h => exact .param q p h.symm
  | star p q h => exact .star q p h.symm
  | next _ ih => exact .next ih

theorem SwapStep.perm (h : SwapStep regs regs') : regs.Perm regs' := by
  cases h with
  | swap A B _ => exact List.Perm.append_left A (.swap _ _ B)

theorem SwapStep.swapped (h : SwapStep regs regs')
    (m : Bytes) : Swapped (patternsFor regs m) (patternsFor regs' m) := by
  cases h with
  | @swap A B g g' hc =>
    simp only [patternsFor, filter_append, map_append, filter_cons]
    by_cases hg : g.method = m
    · by_cases hg' : g'.method = m
      · have hc' := hc (hg.trans hg'.symm)
        simp only [hg, hg', decide_true, if_true, map_cons]
        exact .swap _ _ hc' fun h => hc' h.symm
      · simp only [hg', decide_false, Bool.false_eq_true, if_false]
        exact .refl _
    · simp only [hg, decide_false, Bool.false_eq_true, if_false]
      exact .refl _

variable {m : Bytes} {o : Option (List H × Bytes)}

theorem SwapStep.lastFor_eq (h : SwapStep regs regs')
    (hd : Distinct regs) {p : Bytes} : lastFor regs m p = lastFor regs' m p := by
  cases h with
  | @swap A B g g' _ =>
    have hne : (g.method, g.pattern) ≠ (g'.method, g'.pattern) := by
      rw [Distinct, pairwise_append, pairwise_cons] at hd
      exact hd.2.1.1 g' mem_cons_self
    unfold lastFor
    by_cases hg : g.method = m ∧ g.pattern = p
    · have hg' : ¬ (g'.method = m ∧ g'.pattern = p) := by
        rintro ⟨h1, h2⟩
        exact hne (by rw [hg.1, hg.2, h1, h2])
      simp [hg']
    · simp [hg]

theorem distinct_patternsFor (hd : Distinct regs) (hs : ∀ g ∈ regs, g.pattern.head? = some slash) :
    (patternsFor regs m).Pairwise fun a b => a.1 ≠ b.1 := by
  rw [patternsFor, pairwise_map]
  refine List.Pairwise.imp_of_mem (fun {g g'} hg hg' hne ht => hne ?_) (hd.filter _)
  rw [mem_filter, decide_eq_true_eq] at hg hg'
  rw [hg.2, hg'.2, ← toks_text (hs g hg.1), ← toks_text (hs g' hg'.1),
    show toks g.pattern = toks g'.pattern from ht]

/-- A lookup finds the same in another order. -/
theorem SwapStep.finds (h : SwapStep regs regs') (hd : Distinct regs)
    (hs : ∀ g ∈ regs, g.pattern.head? = some slash)
    (hf : Finds regs method path o) : Finds regs' method path o := by
  have hsw := h.swapped method
  have hv : ∀ p, valueAt (patternsFor regs method) p = valueAt (patternsFor regs' method) p :=
    hsw.valueAt_eq (distinct_patternsFor hd hs)
  have hlit : literalFor regs' method path = literalFor regs method path := by
    rw [literalFor, literalFor, h.lastFor_eq hd]
  unfold Finds at hf ⊢
  rw [hlit]
  cases hf with
  | static hg => exact .static hg
  | root hl hq =>
    rw [hv]
    exact .root hl hq
  | walk hl hq ha hx =>
    exact .walk hl hq (hsw.answers ha) ⟨hsw.perm.mem_iff.mp hx.1, by rw [← hv]; exact hx.2⟩
  | miss hl hq hn =>
    refine .miss hl hq fun e he hm hr => ?_
    rw [← reachable_perm hsw.perm] at hr
    exact hn e (hsw.perm.mem_iff.mpr he) hm hr

theorem Reordered.finds (h : Reordered regs regs')
    (hd : Distinct regs) (hs : ∀ g ∈ regs, g.pattern.head? = some slash)
    (hf : Finds regs method path o) : Finds regs' method path o := by
  induction h using Relation.ReflTransGen.head_induction_on with
  | refl => exact hf
  | head hstep _ ih =>
    exact ih ((hstep.perm.pairwise_iff fun {_ _} h => h.symm).mp hd)
      (fun g hg => hs g (hstep.perm.mem_iff.mpr hg)) (hstep.finds hd hs hf)

/-! ## When the smallest pattern is found -/

variable {pattern : Bytes}

/-- A static pattern that is the path matches it just when nothing is
collapsed. -/
theorem covers_literal_iff (hs : g.pattern.head? = some slash)
    (hst : Router.isStaticPath path = true) (hm : g.method = method) (hp : g.pattern = path) :
    g.Covers method path ↔ hasDouble path = false := by
  subst hp
  have ht : Tok.lit slash :: toks g.pattern = g.pattern.map .lit := by
    obtain ⟨bs, hg⟩ := head?_eq_some_iff.mp hs
    rw [toks_of_isStaticPath hst, hg]
    rfl
  rw [Registration.Covers, ht, matches_text_iff, slashCollapsed_eq_self_iff hs]
  exact and_iff_right hm

theorem smallest_literal (hg : g ∈ regs) (hc : g.Covers method path)
    (hst : Router.isStaticPath g.pattern = true) : Smallest regs method path g := by
  refine ⟨hg, hc, fun g' _ hc' => hc.total hg hc' ?_⟩
  have hm := (covers_iff.mp hc).2
  rw [toks_of_isStaticPath hst, matches_text_iff] at hm
  rw [toks_of_isStaticPath hst, ← hm]
  exact not_beats_lits (covers_iff.mp hc').2

theorem reachable_literal {R : Table (List H × Bytes)}
    (hst : Router.isStaticPath pattern = true) {q : Bytes} :
    reachable R (toks pattern) q = true := by
  rw [toks_of_isStaticPath hst, ← append_nil ((pattern.drop 1).map Tok.lit), reachable_lits]
  rfl

/-- The pattern `/` is the only one with no tokens. -/
theorem toks_eq_nil_iff (h : pattern.head? = some slash) :
    toks pattern = [] ↔ pattern = [slash] := by
  constructor
  · intro ht
    rw [← toks_text h, ht]
    rfl
  · rintro rfl
    rfl

/-- A smallest pattern matches what is routed. -/
theorem Unhidden.matches (hu : Unhidden regs method path) (h : Smallest regs method path g) :
    Matches (toks g.pattern) (restOf path) := by
  cases hl : losesSlash path with
  | false =>
    rw [restOf_of_kept hl]
    exact (covers_iff.mp h.2.1).2
  | true => exact (hu.slash hl).1 g h

/-- No pattern is found before all smallest ones. -/
theorem Unhidden.exists_le (hu : Unhidden regs method path) (hg : g ∈ regs) (hm : g.method = method)
    (hq : Matches (toks g.pattern) (restOf path)) (hr : reached regs method path g = true) :
    ∃ g', Smallest regs method path g' ∧ NoLarger regs method g' g := by
  cases hl : losesSlash path with
  | false =>
    rw [restOf_of_kept hl] at hq
    have hc : g.Covers method path := covers_iff.mpr ⟨hm, hq⟩
    obtain ⟨g', h'⟩ := exists_smallest ⟨g, hg, hc⟩
    exact ⟨g', h', h'.2.2 g hg hc⟩
  | true => exact (hu.slash hl).2 g hg hm hq hr

section

variable (hs : ∀ g ∈ regs, g.pattern.head? = some slash) (hf : Finds regs method path o)

include hs hf

theorem Finds.smallest_of_unhidden (hu : Unhidden regs method path) :
    (o.isSome = true ↔ ∃ g ∈ regs, g.Covers method path) ∧
      ∀ x, o = some x → ∃ g, Smallest regs method path g ∧ (g.chain, g.pattern) = x := by
  cases hf with
  | @static x hx =>
    obtain ⟨hst, g, hmem, hm, hp, hg⟩ := literalFor_eq_some hx
    have hc := (covers_literal_iff (hs g hmem) hst hm hp).mpr (hu.literal ⟨hst, g, hmem, hm, hp⟩)
    have hsm := smallest_literal hmem hc (by rwa [hp])
    exact ⟨⟨fun _ => ⟨g, hmem, hc⟩, fun _ => rfl⟩, fun y hy =>
      ⟨g, hsm, hg.trans (some.inj hy)⟩⟩
  | root _ hq =>
    rw [valueAt, after_nil]
    have hroot := restOf_eq_nil_iff.mp hq
    replace hq := (cons.inj hroot).2
    have hend : ∀ {g : Registration H}, g.Covers method path →
        toks g.pattern = [] ∨ ∃ n, toks g.pattern = [.star n] := fun hc =>
      matches_empty (by rw [← hq]; exact (covers_iff.mp hc).2)
    refine ⟨⟨fun h => ?_, ?_⟩, fun x hx => ?_⟩
    · obtain ⟨x, hx⟩ := isSome_iff_exists.mp h
      obtain ⟨g, hg, hm, ht, -⟩ := mem_patternsFor.mp (mem_of_lastHere hx)
      exact ⟨g, hg, covers_iff.mpr ⟨hm, by rw [ht, hq]; exact .nil⟩⟩
    · rintro ⟨g, hg, hc⟩
      rcases hend hc with ht | ⟨n, ht⟩
      · exact lastHere_isSome (mem_patternsFor.mpr ⟨g, hg, hc.1, ht, rfl⟩)
      · obtain ⟨g', hg', hm', hp'⟩ := hu.root hroot ⟨g, hg, hc.1, n, ht⟩
        exact lastHere_isSome (mem_patternsFor.mpr ⟨g', hg', hm', by rw [hp']; rfl, rfl⟩)
    · obtain ⟨g, hg, hm, ht, hge⟩ := mem_patternsFor.mp (mem_of_lastHere hx)
      refine ⟨g, ⟨hg, covers_iff.mpr ⟨hm, by rw [ht, hq]; exact .nil⟩, ?_⟩, hge⟩
      intro g' _ hc'
      rw [NoLarger, ht]
      rcases hend hc' with ht' | ⟨n, ht'⟩
      · exact .inl (by rw [ht']; rfl)
      · exact .inr (by rw [ht']; exact .stop n [])
  | @walk p x _ _ ha hx =>
    obtain ⟨g, hg, hm, rfl, hge⟩ := mem_patternsFor.mp hx.1
    obtain ⟨g₀, h₀, hle⟩ := hu.exists_le hg hm ha.covers ha.reach
    have hnot := ha.best _ (mem_patternsFor.mpr ⟨g₀, h₀.1, h₀.2.1.1, rfl, rfl⟩) (hu.matches h₀)
      (hu.dead g₀ h₀)
    have hsm := h₀.of_alike hg hm (hle.resolve_right hnot).symm
    exact ⟨⟨fun _ => ⟨g, hg, hsm.2.1⟩, fun _ => rfl⟩, fun y hy => ⟨g, hsm, by
      rw [← some.inj hy]
      exact hge⟩⟩
  | miss hl hq hnone =>
    refine ⟨⟨fun h => (by cases h), fun h => ?_⟩, fun _ h => by cases h⟩
    obtain ⟨g, hsm⟩ := exists_smallest h
    exact absurd (hu.dead g hsm) fun hr =>
      hnone _ (mem_patternsFor.mpr ⟨g, hsm.1, hsm.2.1.1, rfl, rfl⟩) (hu.matches hsm) hr

theorem Finds.unhidden_of_smallest (hco : o.isSome = true ↔ ∃ g ∈ regs, g.Covers method path)
    (hsm : ∀ x, o = some x → ∃ g, Smallest regs method path g ∧ (g.chain, g.pattern) = x) :
    Unhidden regs method path := by
  -- a smallest pattern that is found and reached makes all smallest ones reached
  have hdead : ∀ {g₁ : Registration H}, Smallest regs method path g₁ →
    reached regs method path g₁ = true →
      ∀ g, Smallest regs method path g → reached regs method path g = true := by
    intro g₁ h₁ hr g hg
    rwa [reached, (hg.alike h₁).reachable_eq]
  cases hf with
  | @static x hx =>
    obtain ⟨hst, g, hmem, hm, hp, hg⟩ := literalFor_eq_some hx
    obtain ⟨g₁, h₁, he⟩ := hsm _ rfl
    obtain ⟨-, hp₁⟩ := Prod.mk.inj (he.trans hg.symm)
    have hc : g₁.Covers method path := h₁.2.1
    have hd : hasDouble path = false :=
      (covers_literal_iff (hs g₁ h₁.1) hst hc.1 (hp₁.trans hp)).mp hc
    refine ⟨fun _ => hd, fun hroot _ => ⟨g, hmem, hm, ?_⟩, hdead h₁ ?_, fun hl => ?_⟩
    · have hself := (slashCollapsed_eq_self_iff (by rw [← hp]; exact hs g hmem)).mpr hd
      rw [hp, ← hself, hroot]
    · exact reachable_literal (by rwa [hp₁, hp])
    · rw [losesSlash, hd] at hl
      cases hl
  | root hl hq =>
    rw [valueAt, after_nil] at hco hsm
    have hroot := restOf_eq_nil_iff.mp hq
    refine ⟨fun h => absurd h (literalFor_eq_none hl), fun _ hstar => ?_, fun g hg => ?_,
      fun h => ?_⟩
    · obtain ⟨g, hg, hm, n, ht⟩ := hstar
      have hc : g.Covers method path :=
        covers_iff.mpr ⟨hm, by rw [ht]; exact .star⟩
      obtain ⟨x, hx⟩ := isSome_iff_exists.mp (hco.mpr ⟨g, hg, hc⟩)
      obtain ⟨g', hg', hm', ht', -⟩ := mem_patternsFor.mp (mem_of_lastHere hx)
      exact ⟨g', hg', hm', (toks_eq_nil_iff (hs g' hg')).mp ht'⟩
    · rw [reached, hq]
      rcases matches_empty (by rw [← (cons.inj hroot).2]; exact (covers_iff.mp hg.2.1).2) with
        ht | ⟨n, ht⟩
      · rw [ht]
        rfl
      · rw [ht]
        simp [reachable, deadEnd]
    · simp [losesSlash, hroot] at h
  | @walk p x hl hq ha hx =>
    obtain ⟨g₂, hg₂, hm₂, rfl, hge⟩ := mem_patternsFor.mp hx.1
    obtain ⟨g₁, h₁, he⟩ := hsm _ rfl
    obtain ⟨-, hp⟩ := Prod.mk.inj (he.trans hge.symm)
    refine ⟨fun h => absurd h (literalFor_eq_none hl),
      fun hroot => absurd (restOf_eq_nil_iff.mpr hroot) hq, hdead h₁ ?_,
        fun _ => ⟨fun g hg => ?_, ?_⟩⟩
    · rw [reached, hp]
      exact ha.reach
    · refine (h₁.alike hg).matches ?_
      rw [hp]
      exact ha.covers
    · intro g hg hm hq hr
      refine ⟨g₁, h₁, ?_⟩
      rw [NoLarger, hp]
      exact total_of_matches hg₂ hm₂ ha.covers hq
        (ha.best _ (mem_patternsFor.mpr ⟨g, hg, hm, rfl, rfl⟩) hq hr)
  | miss hl hq hnone =>
    have hno : ∀ g, ¬ Smallest regs method path g := fun g hg => by cases hco.mpr ⟨g, hg.1, hg.2.1⟩
    refine ⟨fun h => absurd h (literalFor_eq_none hl),
      fun hroot => absurd (restOf_eq_nil_iff.mpr hroot) hq, fun g hg => (hno g hg).elim,
      fun _ => ⟨fun g hg => (hno g hg).elim, fun g hg hm hq hr => ?_⟩⟩
    exact (hnone _ (mem_patternsFor.mpr ⟨g, hg, hm, rfl, rfl⟩) hq hr).elim

end

/-- Routing finds the smallest matching pattern just when nothing hides it. -/
theorem find_routesSmallest_iff {regs : List (Registration H)} {defaultAsync noAutoHEAD : Bool}
    {r : Router H} (hd : Distinct regs)
    (hb : (newRouter defaultAsync noAutoHEAD).build regs = some r) (method path : Bytes) :
    RoutesSmallest regs r method path ↔ Unhidden regs method path := by
  have hbu := built_of_build hb
  have hf := hbu.find_finds method path []
  have hr : ∀ {f : Found H}, f.route.isSome = f.handlers.isSome := isSome_map
  constructor
  · intro h
    refine hf.unhidden_of_smallest hbu.slashed (by rw [hr]; exact h.complete) fun x hx => ?_
    obtain ⟨chain, hc, rfl⟩ := map_eq_some_iff.mp hx
    obtain ⟨g, hg, hgc, hgp⟩ := h.smallest chain hc
    exact ⟨g, hg, by rw [hgc, hgp]⟩
  · intro hu
    obtain ⟨hco, hs⟩ := hf.smallest_of_unhidden hbu.slashed hu
    refine ⟨by rw [← hr]; exact hco, fun chain hc => ?_, ?_⟩
    · obtain ⟨g, hg, he⟩ := hs _ (by rw [Found.route, hc]; rfl)
      obtain ⟨h1, h2⟩ := Prod.mk.inj he
      exact ⟨g, hg, h1, h2⟩
    · intro regs' a b r' hre hb'
      exact ((built_of_build hb').find_finds method path []).unique
        (wellFormed_patternsFor regs' method) (hre.finds hd hbu.slashed hf)

/-- Two static patterns that fork in the middle of a segment, and a parameter. -/
def forkedRegs : List (Registration Nat) :=
  [⟨ascii "GET", ascii "/abc", [1], .default⟩, ⟨ascii "GET", ascii "/abd", [2], .default⟩,
    ⟨ascii "GET", ascii "/:x", [3], .default⟩]

theorem distinct_forkedRegs : Distinct forkedRegs := by
  unfold Distinct
  decide

/-- `/:x` matches `/ab`, but the fork of the other two hides it. -/
theorem forked_not_routesSmallest : ∃ r : Router Nat,
    (newRouter false false).build forkedRegs = some r ∧ Distinct forkedRegs ∧
      ¬ RoutesSmallest forkedRegs r (ascii "GET") (ascii "/ab") := by
  obtain ⟨r, hr, hm⟩ : ∃ r ∈ (newRouter false false).build forkedRegs,
    (r.find (ascii "GET") (ascii "/ab") []).1.handlers.isSome = false := by decide
  refine ⟨r, hr, distinct_forkedRegs, fun h => ?_⟩
  have hp : Matches [.param (ascii "x")] (ascii "ab" ++ []) :=
    .param (by decide) (by decide) .nil
  have hc : ∃ g ∈ forkedRegs, g.Covers (ascii "GET") (ascii "/ab") :=
    ⟨⟨ascii "GET", ascii "/:x", [3], .default⟩, by simp [forkedRegs], rfl, .lit hp⟩
  rw [h.complete.mpr hc] at hm
  cases hm

/-- On `/xyz` nothing is hidden, and `/:x` is found. -/
theorem forked_routesSmallest_param :
    ∃ r : Router Nat, (newRouter false false).build forkedRegs = some r ∧
      RoutesSmallest forkedRegs r (ascii "GET") (ascii "/xyz") := by
  obtain ⟨r, hr⟩ : ∃ r, (newRouter false false).build forkedRegs = some r :=
    isSome_iff_exists.mp (by decide)
  refine ⟨r, hr, (find_routesSmallest_iff distinct_forkedRegs hr _ _).mpr ⟨?_, ?_, ?_, ?_⟩⟩
  · exact fun _ => by decide
  · exact fun h => absurd h (by decide)
  · rintro g ⟨hg, -⟩
    simp only [forkedRegs, mem_cons, not_mem_nil, or_false] at hg
    rcases hg with rfl | rfl | rfl <;> decide
  · exact fun h => absurd h (by decide)

end Celeris.Routing
