import Celeris.Routing.Answer
import Celeris.Routing.Children

/-!
# What `search` finds

`search_outcome`: on a node that stands for a table, the backtracking walk takes
the pattern that `Answers` describes and leaves exactly its parameters behind; it
misses, with the parameters as they were, when there is none. The induction is
on the trie, with one lemma for each kind of child of the loop.
-/

namespace Celeris.Routing

open List Option

universe u v

variable {H : Type u} {V : Type v} {val : NodeData H → List H → V}

/-! ## Dead ends in the trie -/

variable {c n : Node H} {p : List Tok} {d : NodeData H} {cs : List (Node H)} {R : Table V}

theorem label_of_static (h : c.nType = .static) : c.label = c.path.map .lit := by
  simp [Node.label, h]

theorem label_of_param (h : c.nType = .param) : c.label = [.param c.data.paramKey] := by
  simp [Node.label, h]

theorem label_of_catchAll (h : c.nType = .catchAll) : c.label = [.star c.data.paramKey] := by
  simp [Node.label, h]

variable {a b q : Bytes}

/-- Of two texts a pattern starts with, one is a prefix of the other. -/
theorem lits_append_cases {r : List Tok}
    (h : a.map .lit ++ p = b.map .lit ++ r) : (∃ w, b = a ++ w) ∨ ∃ w, a = b ++ w := by
  induction a generalizing b with
  | nil => exact .inl ⟨b, rfl⟩
  | cons x a ih =>
    cases b with
    | nil => exact .inr ⟨x :: a, rfl⟩
    | cons y b =>
      simp only [map_cons, cons_append, cons.injEq, Tok.lit.injEq] at h
      obtain ⟨rfl, h⟩ := h
      rcases ih h with ⟨w, rfl⟩ | ⟨w, rfl⟩
      · exact .inl ⟨w, rfl⟩
      · exact .inr ⟨w, rfl⟩

/-- What stands behind a proper prefix of the text of a static child does not
fork. -/
theorem Rep.forks_upper (h : Rep val (.mk d cs) R) (hc : c ∈ cs) (hk : c.nType = .static)
    (hp : c.path = a ++ b) (ha : a ≠ []) (hb : b ≠ []) : forks (after (a.map .lit) R) = false := by
  obtain ⟨b₀, b', rfl⟩ := exists_cons_of_ne_nil hb
  refine forks_eq_false_iff.mpr ⟨b₀, fun e he => ?_⟩
  rw [h.after_upper hc hk hp ha] at he
  obtain ⟨f, -, rfl⟩ := mem_map.mp he
  rfl

/-- A child that carries no chain has no pattern that ends at it. -/
theorem Rep.ne_nil_of_handlers (h : Rep val n R) (hn : n.data.handlers = none) :
    ∀ e ∈ R, e.1 ≠ [] := by
  cases h with
  | @mk d cs _ here _ _ _ _ =>
    rintro ⟨p, x⟩ he rfl
    have hs := lastHere_isSome he
    rw [← here, NodeData.entry, show d.handlers = none from hn] at hs
    cases hs

/-- A node with no catch-all child has no pattern that goes on with one. -/
theorem Rep.not_star_of_children (h : Rep val n R) (hn : ∀ c ∈ n.children, c.nType ≠ .catchAll) :
    ∀ e ∈ R, ∀ (m : Bytes) (p : List Tok), e.1 ≠ .star m :: p := by
  cases h with
  | mk _ _ cover _ ok =>
    intro e he m p hp
    obtain ⟨c, hc, hs⟩ := cover e he (by rw [hp]; exact cons_ne_nil _ _)
    rw [hp] at hs
    exact hn c hc (kind_of_strip (ok c hc).label_ne_nil hs)

/-- A static child with nothing to answer is a dead end. -/
theorem Rep.deadEnd_of_child (h : Rep val (.mk d cs) R) (hd : d.nType ≠ .param) (hc : c ∈ cs)
    (hk : c.nType = .static) (hh : c.data.handlers = none)
    (hg : ∀ g ∈ c.children, g.nType ≠ .catchAll) : deadEnd R c.path = true := by
  obtain ⟨hr, hok⟩ := h.child hc
  have hl := label_of_static hk
  rw [deadEnd_iff]
  refine ⟨hok.text hk, ?_, ?_, ?_⟩
  · rw [← hl]
    exact hok.fork hd hk
  · rw [← hl, bare, List.all_eq_true]
    intro e he
    have h1 := hr.ne_nil_of_handlers hh e he
    have h2 := hr.not_star_of_children hg e he
    cases hp : e.1 with
    | nil => exact absurd hp h1
    | cons t p =>
      cases t with
      | lit b | param n => rfl
      | star m => exact absurd hp (h2 m p)
  · intro i hi hlt
    refine h.forks_upper hc hk (take_append_drop i c.path).symm ?_ ?_
    · simp only [ne_eq, take_eq_nil_iff, not_or]
      exact ⟨Nat.ne_of_gt hi, hok.text hk⟩
    · rw [ne_eq, drop_eq_nil_iff]
      omega

/-- A dead end is a static child with that very text. -/
theorem Rep.exists_of_deadEnd (h : Rep val (.mk d cs) R) (hd : d.nType ≠ .param)
    (hq : deadEnd R q = true) : ∃ c ∈ cs, c.nType = .static ∧ c.path = q := by
  obtain ⟨hne, hfork, -, hb⟩ := deadEnd_iff.mp hq
  obtain ⟨⟨p, x⟩, hm⟩ : ∃ e, e ∈ after (q.map .lit) R := by
    refine exists_mem_of_ne_nil _ fun hn => ?_
    rw [hn] at hfork
    cases hfork
  obtain ⟨p₀, hp₀, hs⟩ := mem_after.mp hm
  have hp : p₀ = q.map .lit ++ p := strip_lits_iff.mp hs
  obtain ⟨b, q', rfl⟩ := exists_cons_of_ne_nil hne
  have hco : ∃ c ∈ cs, (strip c.label p₀).isSome := by
    cases h with
    | mk _ _ cover _ _ => exact cover _ hp₀ (by rw [hp]; exact cons_ne_nil _ _)
  obtain ⟨c, hc, hsc⟩ := hco
  obtain ⟨-, hok⟩ := h.child hc
  have hk : c.nType = .static := by
    rw [hp] at hsc
    exact kind_of_strip hok.label_ne_nil hsc
  refine ⟨c, hc, hk, ?_⟩
  obtain ⟨r, hr⟩ := isSome_iff_exists.mp hsc
  rw [label_of_static hk, strip_lits_iff, hp] at hr
  rcases lits_append_cases hr with ⟨w, hw⟩ | ⟨w, hw⟩
  · by_contra hne'
    have hw' : w ≠ [] := fun e => hne' (by rw [hw, e, append_nil])
    rw [h.forks_upper hc hk hw hne hw'] at hfork
    cases hfork
  · by_contra hne'
    have hw' : w ≠ [] := fun e => hne' (by rw [hw, e, append_nil])
    have hf := hb c.path.length (length_pos_iff.mpr (hok.text hk)) (by
      rw [hw, length_append]
      have := length_pos_iff.mpr hw'
      omega)
    rw [hw, take_left, ← label_of_static hk, hok.fork hd hk] at hf
    cases hf

/-! ## The outcome of a walk -/

/-- `Outcome val R q ps r`: the lookup of `q` that started with the parameters
`ps` returned `r`. -/
inductive Outcome (val : NodeData H → List H → V) (R : Table V) (q : Bytes) (ps : Params) :
    Found H × Params → Prop
  | miss : (∀ e ∈ R, Matches e.1 q → reachable R e.1 q = true → False) →
      Outcome val R q ps (.miss, ps)
  | hit {p : List Tok} {x : V} {n : Node H} {bound : Params} :
      Answers R q p → Holds R p x → n.data.entry val = some x →
        Captures R p q bound → Outcome val R q ps (n.found, ps ++ bound)

/-- A walk that comes back with a chain has hit. -/
theorem found_handlers_isSome {x : V} (h : n.data.entry val = some x) :
    n.found.handlers.isSome = true := by
  obtain ⟨hs, hh, -⟩ := map_eq_some_iff.mp h
  rw [Node.found, hh]
  rfl

/-- A child that the walk left without a hit. -/
structure Passed (R : Table V) (q : Bytes) (c : Node H) : Prop where
  text : ¬ (c.nType = .static ∧ c.path = q)
  miss : ∀ e ∈ R, (strip c.label e.1).isSome → Matches e.1 q → reachable R e.1 q = true → False

/-- Of two children, a pattern through the later one does not beat a pattern
through the earlier one. -/
theorem Before.not_beats {c' : Node H} (h : Before R c c') (hc : c.label ≠ [])
    (hc' : c'.label ≠ []) {p' : List Tok} (hp : (strip c.label p).isSome)
    (hp' : (strip c'.label p').isSome) : ¬ Beats R p' p := by
  have hne := ne_nil_of_strip hc hp
  have hne' := ne_nil_of_strip hc' hp'
  obtain ⟨t, u, rfl⟩ := exists_cons_of_ne_nil hne
  obtain ⟨t', u', rfl⟩ := exists_cons_of_ne_nil hne'
  have hk := kind_of_strip hc hp
  have hk' := kind_of_strip hc' hp'
  intro hb
  cases hb with
  | here _ _ ht =>
    rcases h with h | ⟨h, -, -⟩ | ⟨h, h', he⟩
    · rw [hk, hk'] at h
      cases ht <;> simp [Tok.kind, NodeType.rank] at h
    · rw [hk] at h
      cases ht <;> cases h
    · rw [label_of_param h] at hp
      rw [label_of_param h'] at hp'
      obtain ⟨r, hr⟩ := isSome_iff_exists.mp hp
      obtain ⟨r', hr'⟩ := isSome_iff_exists.mp hp'
      cases strip_param_iff.mp hr
      cases strip_param_iff.mp hr'
      cases ht with
      | param ht => exact he.asymm ht
  | next _ =>
    obtain ⟨s, hs⟩ := isSome_iff_exists.mp (isSome_head?.mpr hc')
    obtain ⟨s', p', hp', hsame⟩ := strip_isSome_head hs hp'
    cases hp'
    rw [h.apart.strip_cons hc hs hsame u] at hp
    cases hp

/-! ## One child after the other -/

section Loop

variable {d : NodeData H} {cs done rest : List (Node H)} {c : Node H} {R : Table V} {q : Bytes}
  {ps : Params} {e : List Tok × V} {x : V} {bound : Params} {r : Bytes}

/-- A pattern that matches more than nothing goes through a child. -/
theorem Rep.exists_child (h : Rep val (.mk d cs) R) (hq : q ≠ []) (he : e ∈ R)
    (hm : Matches e.1 q) : ∃ c ∈ cs, (strip c.label e.1).isSome := by
  obtain ⟨-, -, cover, -, -⟩ := h
  refine cover e he fun hn => hq ?_
  rw [hn] at hm
  exact matches_nil_iff.mp hm

/-- A hit at a child is a hit of the loop, if every child before it was passed:
what is matched through the child is matched better than through a later one. -/
theorem Rep.hit (h : Rep val (.mk d (done ++ c :: rest)) R)
    (hpa : ∀ y ∈ done, Passed R q y) (hq : q ≠ []) (hp : (strip c.label p).isSome)
    (hre : reachable R p q = true)
    (hbest : ∀ e ∈ R, (strip c.label e.1).isSome → Matches e.1 q → reachable R e.1 q = true →
      ¬ Beats R e.1 p)
    (hv : Holds R p x) (hn : n.data.entry val = some x) (hb : Captures R p q bound) :
    Outcome val R q ps (n.found, ps ++ bound) := by
  refine .hit ⟨hb.matches, hre, fun e he hm hr => ?_⟩ hv hn hb
  obtain ⟨y, hy, hs⟩ := h.exists_child hq he hm
  obtain ⟨-, -, -, order, ok⟩ := h
  have hc : c ∈ done ++ c :: rest := by simp
  rcases mem_append.mp hy with hy' | hy'
  · exact absurd hr fun hr => (hpa y hy').miss e he hs hm hr
  · rcases mem_cons.mp hy' with rfl | hy'
    · exact hbest e he hs hm hr
    · have hbe : Before R c y := by
        rw [pairwise_append, pairwise_cons] at order
        exact order.2.1.1 y hy'
      exact hbe.not_beats (ok c hc).label_ne_nil (ok y hy).label_ne_nil hp hs

/-- The loop of a node has passed every child. -/
theorem Rep.miss (h : Rep val (.mk d cs) R) (hp : ∀ y ∈ cs, Passed R q y) (hq : q ≠ []) :
    Outcome val R q ps (.miss, ps) := by
  refine .miss fun e he hm hr => ?_
  obtain ⟨y, hy, hs⟩ := h.exists_child hq he hm
  exact (hp y hy).miss e he hs hm hr

/-- When the loop gets to a parameter or a catch-all, no dead end hides it. -/
theorem Rep.not_deadEnd (h : Rep val (.mk d (done ++ c :: rest)) R) (hc : c.nType ≠ .static)
    (hp : ∀ y ∈ done, Passed R q y) : deadEnd R q = false := by
  have hm : c ∈ done ++ c :: rest := by simp
  have hd : d.nType ≠ .param := fun hd => hc ((h.child hm).2.slash hd).1
  by_contra hdead
  obtain ⟨y, hy, hk, hpath⟩ := h.exists_of_deadEnd hd (by simpa using hdead)
  rcases mem_append.mp hy with hy | hy
  · exact (hp y hy).text ⟨hk, hpath⟩
  · rcases mem_cons.mp hy with rfl | hy
    · exact hc hk
    · obtain ⟨-, -, -, order, -⟩ := h
      rw [pairwise_append, pairwise_cons] at order
      have hle := (order.2.1.1 y hy).rank_le
      rw [hk] at hle
      cases hct : c.nType with
      | static => exact hc hct
      | param | catchAll => simp [hct, NodeType.rank] at hle

/-- `Through R c q r`: a pattern that goes through the child `c` matches `q` just
when what is left of it matches `r`, and the same for being reachable. -/
structure Through (R : Table V) (c : Node H) (q r : Bytes) : Prop where
  strips : ∀ {p u : List Tok}, strip c.label p = some u ↔ p = c.label ++ u
  matching : ∀ {u : List Tok}, WellFormed (c.label ++ u) → (Matches (c.label ++ u) q ↔ Matches u r)
  reaching : ∀ u : List Tok, reachable R (c.label ++ u) q = reachable (after c.label R) u r
  beating : ∀ {u w : List Tok},
    Beats R (c.label ++ u) (c.label ++ w) ↔ Beats (after c.label R) u w

/-- What is left of a matching pattern behind a child. -/
theorem Through.behind (h : Through R c q r) (hwf : R.WellFormed)
    (he : e ∈ R) (hs : (strip c.label e.1).isSome) (hm : Matches e.1 q)
    (hr : reachable R e.1 q = true) :
    ∃ u, e.1 = c.label ++ u ∧ (u, e.2) ∈ after c.label R ∧ Matches u r ∧
      reachable (after c.label R) u r = true := by
  obtain ⟨u, hu⟩ := isSome_iff_exists.mp hs
  have heq := h.strips.mp hu
  refine ⟨u, heq, mem_after.mpr ⟨e.1, he, hu⟩, ?_, ?_⟩
  · have := hwf e he
    rw [heq] at hm this
    exact (h.matching this).mp hm
  · rwa [heq, h.reaching] at hr

/-- What is left of the table behind a child decides for what is left of the
path. -/
theorem Through.hit (h : Through R c q r) (hwf : R.WellFormed) (hq : q ≠ [])
    (hrep : Rep val (.mk d (done ++ c :: rest)) R) (hp : ∀ y ∈ done, Passed R q y)
    (ha : Answers (after c.label R) r p)
    (hv : Holds (after c.label R) p x) (hn : n.data.entry val = some x)
    (hc : Captures R (c.label ++ p) q bound) : Outcome val R q ps (n.found, ps ++ bound) := by
  refine hrep.hit hp hq ?_ ?_ ?_ ?_ hn hc
  · rw [h.strips.mpr rfl]
    rfl
  · rw [h.reaching]
    exact ha.reach
  · intro e he hs hm hr
    obtain ⟨u, hu, hmem, hm', hr'⟩ := h.behind hwf he hs hm hr
    rw [hu, h.beating]
    exact ha.best _ hmem hm' hr'
  · obtain ⟨p₀, hp₀, hs⟩ := mem_after.mp hv.1
    rw [h.strips] at hs
    exact ⟨hs ▸ hp₀, by rw [valueAt, ← after_after]; exact hv.2⟩

theorem Through.passed (h : Through R c q r) (hwf : R.WellFormed)
    (ht : ¬ (c.nType = .static ∧ c.path = q))
    (hn : ∀ e ∈ after c.label R, Matches e.1 r → reachable (after c.label R) e.1 r = true →
      False) : Passed R q c := by
  refine ⟨ht, fun e he hs hm hr => ?_⟩
  obtain ⟨u, -, hmem, hm', hr'⟩ := h.behind hwf he hs hm hr
  exact hn _ hmem hm' hr'

theorem through_static (hk : c.nType = .static) : Through R c (c.path ++ r) r := by
  constructor <;> rw [label_of_static hk]
  · intro p u
    exact strip_lits_iff
  · intro u _
    rw [matches_lits_iff]
    constructor
    · rintro ⟨r', hr, hm⟩
      rwa [append_cancel_left hr]
    · exact fun hm => ⟨r, rfl, hm⟩
  · intro u
    rw [reachable_lits, drop_left]
  · intro u w
    exact beats_lits_iff

theorem passed_of_text_ne (hk : c.nType = .static) (hp : ¬ c.path <+: q) : Passed R q c := by
  refine ⟨fun h => hp (h.2 ▸ prefix_refl c.path), fun e _ hs hm _ => ?_⟩
  obtain ⟨u, hu⟩ := isSome_iff_exists.mp hs
  rw [label_of_static hk, strip_lits_iff] at hu
  rw [hu] at hm
  obtain ⟨r, rfl, -⟩ := matches_lits_iff.mp hm
  exact hp (prefix_append _ _)

theorem through_param (hk : c.nType = .param) (hs : findSegmentEnd q ≠ 0)
    (hd : deadEnd R q = false) : Through R c q (q.drop (findSegmentEnd q)) := by
  constructor <;> rw [label_of_param hk]
  · intro p u
    exact strip_param_iff
  · intro u hwf
    exact (matches_param_iff hwf).trans (and_iff_right hs)
  · intro u
    simp [reachable, hd]
  · intro u w
    exact beats_cons_iff

end Loop

/-! ## The walk -/

theorem Rep.here (h : Rep val (.mk d cs) R) : d.entry val = lastHere R := by
  cases h with
  | mk here _ _ _ _ => exact here

/-- The chain of a node, if the whole path is used up at it. -/
theorem Rep.answers_nil (h : Rep val n R) (hn : n.data.handlers.isSome = true) :
    ∃ x, n.data.entry val = some x ∧ Holds R [] x ∧ Answers R [] [] := by
  obtain ⟨hs, hhs⟩ := isSome_iff_exists.mp hn
  obtain ⟨d, cs⟩ := n
  have he : d.entry val = some (val d hs) := by
    rw [NodeData.entry, show d.handlers = some hs from hhs]
    rfl
  have hl : lastHere R = some (val d hs) := h.here.symm.trans he
  exact ⟨val d hs, he, ⟨mem_of_lastHere hl, by rwa [valueAt, after_nil]⟩, .nil, rfl,
    fun e _ _ _ => not_beats_nil⟩

/-- A catch-all always carries a chain. -/
theorem Rep.answers_star (h : Rep val n R) (hwf : R.WellFormed) (hc : c ∈ n.children)
    (hk : c.nType = .catchAll) :
    ∃ m x, c.data.entry val = some x ∧ Holds R [.star m] x ∧
      firstStar R = some c.data.paramKey := by
  obtain ⟨d, cs⟩ := n
  obtain ⟨hb, hok⟩ := h.child hc
  have hl := label_of_catchAll hk
  have hn : ∀ e ∈ after c.label R, ∃ m, ([.star m], e.2) ∈ R ∧ e.1 = [] := by
    rintro ⟨p, x⟩ hm
    obtain ⟨p₀, hp₀, hs⟩ := mem_after.mp hm
    rw [hl] at hs
    obtain ⟨m, rfl⟩ := strip_star_iff.mp hs
    have hp : p = [] := hwf _ hp₀
    subst hp
    exact ⟨m, hp₀, rfl⟩
  obtain ⟨⟨p, x⟩, hm⟩ := exists_mem_of_ne_nil _ hok.live
  obtain ⟨-, -, rfl⟩ := hn _ hm
  obtain ⟨y, hy⟩ := isSome_iff_exists.mp (lastHere_isSome hm)
  obtain ⟨m, hmem, -⟩ := hn _ (mem_of_lastHere hy)
  obtain ⟨dc, csc⟩ := c
  refine ⟨m, y, hb.here.trans hy, ⟨hmem, ?_⟩, hok.key hk⟩
  rw [valueAt, after_star, ← hl, hy]

/-- At the end of the path, a catch-all child answers for a node with no
chain. -/
theorem Rep.answers_star_empty (h : Rep val n R)
    (hn : n.data.handlers = none) {m : Bytes} : Answers R [] [.star m] := by
  refine ⟨.star, by simp [reachable, deadEnd], fun e he hm _ => ?_⟩
  rcases matches_empty hm with hnil | ⟨m, hm⟩
  · exact absurd hnil (h.ne_nil_of_handlers hn e he)
  · rw [hm]
    exact not_beats_star

/-- A node with no chain and no catch-all answers nothing at the end of the
path. -/
theorem Rep.none_empty (h : Rep val n R) (hn : n.data.handlers = none)
    (hc : ∀ c ∈ n.children, c.nType ≠ .catchAll) : ∀ e ∈ R, ¬ Matches e.1 [] := by
  intro e he hm
  rcases matches_empty hm with hnil | ⟨m, hm⟩
  · exact h.ne_nil_of_handlers hn e he hnil
  · exact h.not_star_of_children hc e he m [] hm

section Loop

variable {d : NodeData H} {done rest : List (Node H)} {c : Node H} {R : Table V} {q : Bytes}
  {ps : Params}

section

variable (hrep : Rep val (.mk d (done ++ c :: rest)) R) (hwf : R.WellFormed)

include hrep hwf

/-- A static child whose text is the whole path, with nothing to answer, ends the
walk: the children behind it are not tried. -/
theorem Rep.outcome_deadEnd (hk : c.nType = .static) (hpa : ∀ y ∈ done, Passed R c.path y)
    (hh : c.data.handlers = none) (hg : ∀ g ∈ c.children, g.nType ≠ .catchAll) :
    Outcome val R c.path ps (.miss, ps) := by
  have hmem : c ∈ done ++ c :: rest := by simp
  obtain ⟨hb, hok⟩ := hrep.child hmem
  refine .miss fun e he hm hre => ?_
  obtain ⟨y, hy, hs⟩ := hrep.exists_child (hok.text hk) he hm
  by_cases hyc : y = c
  · subst hyc
    have ht : Through R y (y.path ++ []) [] := through_static hk
    rw [append_nil] at ht
    obtain ⟨u, -, hu, hm', -⟩ := ht.behind hwf he hs hm hre
    exact hb.none_empty hh hg _ hu hm'
  · have hyok := (hrep.child hy).2
    obtain ⟨t, p, hp⟩ := exists_cons_of_ne_nil (ne_nil_of_strip hyok.label_ne_nil hs)
    rw [hp] at hs hm hre
    have hyk := kind_of_strip hyok.label_ne_nil hs
    have hd : t.kind ≠ .static → d.nType ≠ .param := fun ht hd =>
      ht (hyk.symm.trans (hyok.slash hd).1)
    cases t with
    | lit b =>
      obtain ⟨r, hr, -⟩ := matches_lit_iff.mp hm
      have := (hrep.apart hy hmem hyc).strip_cons hyok.label_ne_nil (t := .lit b)
        (by rw [label_of_static hk, hr]; rfl) Tok.same_refl p
      rw [this] at hs
      cases hs
    | param n | star n =>
      have hdead := hrep.deadEnd_of_child (hd (by simp [Tok.kind])) hmem hk hh hg
      simp [reachable, hdead] at hre

/-- The round of the loop at a static child whose text the path starts with. -/
theorem searchIn_static {r : Bytes} (hk : c.nType = .static)
    (hp : ∀ y ∈ done, Passed R (c.path ++ r) y)
    (ih : ∀ ps, r ≠ [] → Outcome val (after c.label R) r ps (search c r ps))
    (hgo : Passed R (c.path ++ r) c →
      Outcome val R (c.path ++ r) ps (searchIn rest (c.path ++ r) ps)) :
    Outcome val R (c.path ++ r) ps (if r = [] then
        if c.data.handlers.isSome then (c.found, ps)
        else
          match c.children.find? (fun gc => gc.nType = .catchAll) with
          | some gc => (gc.found, ps ++ [(gc.data.paramKey, [])])
          | none => (.miss, ps)
      else
        let res := search c r ps
        if res.1.handlers.isSome then res else searchIn rest (c.path ++ r) res.2) := by
  have hmem : c ∈ done ++ c :: rest := by simp
  obtain ⟨hb, hok⟩ := hrep.child hmem
  have ht : Through R c (c.path ++ r) r := through_static hk
  have hq : c.path ++ r ≠ [] := by simp [hok.text hk]
  have hl : ∀ {p ps}, Captures (after c.label R) p r ps →
      Captures R (c.label ++ p) (c.path ++ r) ps := by
    rw [label_of_static hk]
    exact fun h => h.lits
  by_cases hr : r = []
  · subst hr
    by_cases hh : c.data.handlers.isSome = true
    · obtain ⟨x, hx, hval, hans⟩ := hb.answers_nil hh
      have : Outcome val R (c.path ++ []) ps (c.found, ps ++ []) :=
        ht.hit hwf hq hrep hp hans hval hx (hl (.nil _))
      rw [append_nil ps] at this
      rwa [if_pos hh]
    · have hnone : c.data.handlers = none := by simpa using hh
      rw [if_neg hh]
      cases hf : c.children.find? (fun gc => gc.nType = .catchAll) with
      | some gc =>
        have hgk : gc.nType = .catchAll := by simpa using find?_some hf
        obtain ⟨m, x, hx, hval, hs⟩ :=
          hb.answers_star hwf.after (mem_of_find?_eq_some hf) hgk
        exact ht.hit hwf hq hrep hp (hb.answers_star_empty hnone) hval hx (hl (.star hs))
      | none =>
        rw [append_nil] at hp ⊢
        refine hrep.outcome_deadEnd hwf hk hp hnone fun g hg => ?_
        simpa using find?_eq_none.mp hf g hg
  · rw [if_neg hr]
    have := ih ps hr
    generalize search c r ps = res at this
    cases this with
    | miss hnone =>
      refine hgo (ht.passed hwf (fun hc => hr ?_) hnone)
      exact append_right_eq_self.mp hc.2.symm
    | hit hans hval hn hcap =>
      rw [if_pos (found_handlers_isSome hn)]
      exact ht.hit hwf hq hrep hp hans hval hn (hl hcap)

/-- The round of the loop at a parameter. -/
theorem searchIn_param (hq : q ≠ []) (hk : c.nType = .param) (hdead : deadEnd R q = false)
    (hp : ∀ y ∈ done, Passed R q y)
    (ih : ∀ ps, q.drop (findSegmentEnd q) ≠ [] →
      Outcome val (after c.label R) (q.drop (findSegmentEnd q)) ps
        (search c (q.drop (findSegmentEnd q)) ps)) (hgo : Passed R q c →
          Outcome val R q ps (searchIn rest q ps)) :
    Outcome val R q ps (let stop := findSegmentEnd q
      if stop = 0 then searchIn rest q ps
      else
        let pushed := ps ++ [(c.data.paramKey, q.take stop)]
        let remaining := q.drop stop
        if remaining = [] then
          if c.data.handlers.isSome then (c.found, pushed)
          else searchIn rest q pushed.dropLast
        else
          let r := search c remaining pushed
          if r.1.handlers.isSome then r else searchIn rest q r.2.dropLast) := by
  have hmem : c ∈ done ++ c :: rest := by simp
  obtain ⟨hb, hok⟩ := hrep.child hmem
  have htext : ¬ (c.nType = .static ∧ c.path = q) := by
    rw [hk]
    rintro ⟨h, -⟩
    cases h
  dsimp only
  split
  · rename_i hstop
    refine hgo ⟨htext, fun e he hs hm _ => ?_⟩
    obtain ⟨u, hu⟩ := isSome_iff_exists.mp hs
    rw [label_of_param hk, strip_param_iff] at hu
    have hw := hwf e he
    rw [hu] at hm hw
    exact ((matches_param_iff hw).mp hm).1 hstop
  · rename_i hstop
    rw [dropLast_concat]
    have ht := through_param hk hstop hdead
    have hcap : ∀ {p ps}, Captures (after c.label R) p (q.drop (findSegmentEnd q)) ps →
        Captures R (c.label ++ p) q ((c.data.paramKey, q.take (findSegmentEnd q)) :: ps) := by
      intro p ps h
      rw [label_of_param hk] at h ⊢
      have hv : q.take (findSegmentEnd q) ≠ [] := by
        rw [ne_eq, take_eq_nil_iff, not_or]
        exact ⟨hstop, hq⟩
      have := Captures.param hv slash_notMem_take_findSegmentEnd h
      rwa [take_append_drop] at this
    split
    · rename_i hr
      rw [hr] at ht hcap
      by_cases hh : c.data.handlers.isSome = true
      · obtain ⟨x, hx, hval, hans⟩ := hb.answers_nil hh
        rw [if_pos hh]
        exact ht.hit hwf hq hrep hp hans hval hx (hcap (.nil _))
      · have hnone : c.data.handlers = none := by simpa using hh
        rw [if_neg hh]
        refine hgo (ht.passed hwf htext fun e he hm _ => ?_)
        refine hb.none_empty hnone (fun g hg => ?_) e he hm
        obtain ⟨dc, csc⟩ := c
        rw [((hb.child hg).2.slash hk).1]
        decide
    · rename_i hr
      have := ih (ps ++ [(c.data.paramKey, q.take (findSegmentEnd q))]) hr
      generalize search c (q.drop (findSegmentEnd q))
        (ps ++ [(c.data.paramKey, q.take (findSegmentEnd q))]) = res at this
      cases this with
      | miss hnone =>
        rw [dropLast_concat]
        exact hgo (ht.passed hwf htext hnone)
      | hit hans hval hn hcap' =>
        rw [if_pos (found_handlers_isSome hn), append_assoc]
        exact ht.hit hwf hq hrep hp hans hval hn (hcap hcap')

end

end Loop

/-- A loop that has come to the children `todo`. -/
theorem searchIn_outcome (hrep : Rep val (.mk d cs) R) (hwf : R.WellFormed) (hq : q ≠ [])
    (ih : ∀ c ∈ cs, ∀ r ps, r ≠ [] → Outcome val (after c.label R) r ps (search c r ps))
    (todo : List (Node H)) : ∀ (done : List (Node H)) (ps : Params), cs = done ++ todo →
      (∀ y ∈ done, Passed R q y) → Outcome val R q ps (searchIn todo q ps) := by
  induction todo with
  | nil =>
    intro done ps hcs hpa
    rw [append_nil] at hcs
    subst hcs
    exact hrep.miss hpa hq
  | cons c rest ihl =>
    intro done ps hcs hpa
    subst hcs
    have hmem : c ∈ done ++ c :: rest := by simp
    have hgo : Passed R q c → Outcome val R q ps (searchIn rest q ps) := fun hc =>
      ihl (done ++ [c]) ps (by simp) (forall_mem_append.mpr ⟨hpa, forall_mem_singleton.mpr hc⟩)
    obtain ⟨hb, hok⟩ := hrep.child hmem
    unfold searchIn
    cases hk : c.nType with
    | static =>
      by_cases hp : c.path <+: q
      · obtain ⟨r, rfl⟩ := hp
        rw [if_pos (by simp), drop_left]
        exact searchIn_static hrep hwf hk hpa (ih c hmem r) hgo
      · rw [if_neg (by simpa using hp)]
        exact hgo (passed_of_text_ne hk hp)
    | param =>
      have hd := hrep.not_deadEnd (by rw [hk]; decide) hpa
      exact searchIn_param hrep hwf hq hk hd hpa (ih c hmem _) hgo
    | catchAll =>
      have hd := hrep.not_deadEnd (by rw [hk]; decide) hpa
      obtain ⟨m, x, hx, hval, hstar⟩ := hrep.answers_star hwf hmem hk
      have hcap : Captures R [.star m] q [(c.data.paramKey, slash :: q)] := by
        have := Captures.star (n := m) (q := q) hstar
        rwa [if_neg hq] at this
      refine hrep.hit hpa hq ?_ ?_ ?_ hval hx hcap
      · rw [label_of_catchAll hk, strip_star_iff.mpr ⟨_, rfl⟩]
        rfl
      · simp [reachable, hd]
      · intro e he hs _ _
        obtain ⟨u, hu⟩ := isSome_iff_exists.mp hs
        rw [label_of_catchAll hk, strip_star_iff] at hu
        obtain ⟨m', hm⟩ := hu
        have hw := hwf e he
        rw [hm] at hw
        rw [hm, show u = [] from hw]
        exact not_beats_star

/-- What the walk from a node finds. -/
theorem search_outcome (hrep : Rep val n R) :
    R.WellFormed → ∀ (q : Bytes) (ps : Params), q ≠ [] → Outcome val R q ps (search n q ps) := by
  induction hrep with
  | @mk d cs R here below cover order ok ih =>
    intro hwf q ps hq
    exact searchIn_outcome ⟨here, below, cover, order, ok⟩ hwf hq
      (fun c hc r ps hr => ih c hc hwf.after r ps hr) cs [] ps rfl (by simp)

end Celeris.Routing
