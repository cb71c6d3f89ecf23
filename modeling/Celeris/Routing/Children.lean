import Celeris.Routing.Represents

/-!
# The steps of an insertion on the children of a node

An insertion puts an updated child back in its place (`Rep.replace`), possibly
with a shorter text after a split (`Rep.replace_split`), or adds a new child
(`Rep.add`). Each step appends one entry to the table the node stands for.
-/

namespace Celeris.Routing

open List Option Nat Node Tok

universe u v

variable {H : Type u} {V : Type v}

/-! ## The two loops over the children -/

variable {α : Type u} {e : List Tok × V} {S : Table V}

theorem splitFirst_eq_some {p : α → Bool} {l pre post : List α} {a : α}
    (h : splitFirst p l = some (pre, a, post)) : l = pre ++ a :: post ∧ p a = true := by
  induction l generalizing pre with
  | nil => simp [splitFirst] at h
  | cons b l ih =>
    by_cases hb : p b
    · simp only [splitFirst, hb, if_true, some.injEq, Prod.mk.injEq] at h
      obtain ⟨rfl, rfl, rfl⟩ := h
      exact ⟨rfl, hb⟩
    · simp only [splitFirst, hb, Bool.false_eq_true, if_false, map_eq_some_iff, Prod.mk.injEq] at h
      obtain ⟨⟨pre', a', post'⟩, hl, rfl, rfl, rfl⟩ := h
      obtain ⟨rfl, ha⟩ := ih hl
      exact ⟨rfl, ha⟩

theorem splitFirst_eq_none {p : α → Bool} {l : List α}
    (h : splitFirst p l = none) : ∀ a ∈ l, p a = false := by
  induction l with
  | nil => simp
  | cons b l ih =>
    by_cases hb : p b
    · simp [splitFirst, hb] at h
    · simp only [splitFirst, hb, Bool.false_eq_true, if_false, map_eq_none_iff] at h
      rw [forall_mem_cons]
      exact ⟨by simpa using hb, ih h⟩

/-- The longest common prefix, and how the texts go on behind it. -/
theorem longestPrefix_spec (s t : Bytes) :
    ∃ a s' t', s = a ++ s' ∧ t = a ++ t' ∧ a.length = longestPrefix s t ∧
      (s' = [] ∨ t' = [] ∨ s'.head? ≠ t'.head?) := by
  induction s generalizing t with
  | nil => exact ⟨[], [], t, rfl, rfl, by cases t <;> rfl, .inl rfl⟩
  | cons b s ih =>
    cases t with
    | nil => exact ⟨[], b :: s, [], rfl, rfl, rfl, .inr (.inl rfl)⟩
    | cons c t =>
      by_cases h : b = c
      · subst h
        obtain ⟨a, s', t', rfl, rfl, hl, hd⟩ := ih t
        exact ⟨b :: a, s', t', rfl, rfl, by simp [longestPrefix, hl], hd⟩
      · exact ⟨[], b :: s, c :: t, rfl, rfl, by simp [longestPrefix, h],
          .inr (.inr (by simpa using h))⟩

theorem longestPrefix_of_head_ne {s t : Bytes} (h : s.head? ≠ t.head?) : longestPrefix s t = 0 := by
  cases s with
  | nil => cases t <;> rfl
  | cons b s =>
    cases t with
    | nil => rfl
    | cons c t =>
      have hbc : b ≠ c := fun e => h (by rw [e]; rfl)
      simp [longestPrefix, hbc]

variable {cs pre post : List (Node H)} {c c' : Node H} {x : V} {R : Table V} {d : NodeData H}
  {p q : List Tok} {b a : Bytes}

theorem mem_insertSorted {x : Node H} : x ∈ insertSorted cs c ↔ x = c ∨ x ∈ cs := by
  induction cs with
  | nil => simp [insertSorted]
  | cons d cs ih =>
    by_cases h : d.nType.rank ≤ c.nType.rank
    · simp only [insertSorted, h, if_true, mem_cons, ih]
      exact ⟨by tauto, by tauto⟩
    · simp [insertSorted, h]

theorem Before.rank_le (h : Before R c c') : c.nType.rank ≤ c'.nType.rank := by
  rcases h with h | ⟨h, h', -⟩ | ⟨h, h', -⟩
  · exact Nat.le_of_lt h
  · exact Nat.le_of_eq (by rw [h, h'])
  · exact Nat.le_of_eq (by rw [h, h'])

/-- Sorted insertion keeps the order, if the new child may stand behind those of
its own kind. -/
theorem pairwise_insertSorted (h : cs.Pairwise (Before R))
    (hc : ∀ x ∈ cs, x.nType.rank ≤ c.nType.rank → Before R x c) :
    (insertSorted cs c).Pairwise (Before R) := by
  induction cs with
  | nil => simp [insertSorted]
  | cons d cs ih =>
    rw [forall_mem_cons] at hc
    rw [pairwise_cons] at h
    by_cases hr : d.nType.rank ≤ c.nType.rank
    · simp only [insertSorted, hr, if_true, pairwise_cons]
      refine ⟨fun x hx => ?_, ih h.2 hc.2⟩
      rcases mem_insertSorted.mp hx with rfl | hx
      · exact hc.1 hr
      · exact h.1 x hx
    · have hlt : c.nType.rank < d.nType.rank := Nat.lt_of_not_le hr
      simp only [insertSorted, hr, if_false, pairwise_cons, forall_mem_cons]
      refine ⟨⟨.inl hlt, fun x hx => .inl ?_⟩, h.1, h.2⟩
      exact Nat.lt_of_lt_of_le hlt (h.1 x hx).rank_le

variable {val : NodeData H → List H → V}

/-! ## Putting an updated child back -/

/-- Two cells with the same edge from their parent. -/
structure SameEdge (c c' : Node H) : Prop where
  nType : c'.nType = c.nType
  path : c'.path = c.path
  key : c'.data.paramKey = c.data.paramKey

theorem SameEdge.label (h : SameEdge c c') : c'.label = c.label := by
  simp [Node.label, h.nType, h.path, h.key]

theorem head_label (hty : c'.nType = c.nType)
    (hk : c'.data.paramKey = c.data.paramKey) (hh : c'.path.head? = c.path.head?) :
    c'.label.head? = c.label.head? := by
  unfold label
  rw [hty, hk]
  cases c.nType <;> simp [hh]

theorem Rep.child (h : Rep val (.mk d cs) R) (hc : c ∈ cs) :
    Rep val c (after c.label R) ∧ ChildOk d.nType R c := by
  cases h with
  | mk _ below _ _ ok => exact ⟨below c hc, ok c hc⟩

theorem Rep.kept (h : Rep val (.mk d cs) R) (hc : c ∈ cs) (hn : strip c.label e.1 = none) :
    Rep val c (after c.label (R ++ [e])) ∧ ChildOk d.nType (R ++ [e]) c := by
  obtain ⟨hr, hok⟩ := h.child hc
  rw [after_concat_of_none hn]
  exact ⟨hr, hok.concat hn⟩

/-- A child may be replaced by one whose edge starts the same way and that the
new pattern goes through. -/
theorem Rep.replace (h : Rep val (.mk d (pre ++ c :: post)) R)
    (hty : c'.nType = c.nType) (hkey : c'.data.paramKey = c.data.paramKey)
    (hh : c'.path.head? = c.path.head?)
    (hm : ∀ p, (strip c.label p).isSome → (strip c'.label p).isSome)
    (he : (strip c'.label e.1).isSome) (hrep : Rep val c' (after c'.label (R ++ [e])))
    (hok : ChildOk d.nType (R ++ [e]) c') : Rep val (.mk d (pre ++ c' :: post)) (R ++ [e]) := by
  have hk := fun x (hx : x ∈ pre ++ c :: post) => h.kept (e := e) hx
  obtain ⟨here, below, cover, order, ok⟩ := h
  have hmem : ∀ {x y : Node H}, x ∈ pre ++ post → x ∈ pre ++ y :: post := fun hx =>
    perm_middle.mem_iff.mpr (mem_cons_of_mem _ hx)
  have hn : ∀ x ∈ pre ++ post, strip x.label e.1 = none := by
    intro x hx
    have ha := (pairwise_cons.mp ((pairwise_middle Apart.symm).mp (order.imp Before.apart))).1 x hx
    have hx' : Apart x c' := by
      intro t t' ht ht'
      rw [head_label hty hkey hh] at ht'
      exact ha.symm t t' ht ht'
    exact hx'.strip_none (ok x (hmem hx)).label_ne_nil hok.label_ne_nil he
  have hall : ∀ x ∈ pre ++ c' :: post, Rep val x (after x.label (R ++ [e])) ∧
      ChildOk d.nType (R ++ [e]) x := by
    intro x hx
    rcases mem_cons.mp (perm_middle.mem_iff.mp hx) with rfl | hx
    · exact ⟨hrep, hok⟩
    · exact hk x (hmem hx) (hn x hx)
  have hne : e.1 ≠ [] := ne_nil_of_strip hok.label_ne_nil he
  refine ⟨?_, fun x hx => (hall x hx).1, ?_, ?_, fun x hx => (hall x hx).2⟩
  · rw [here]
    exact (lastHere_concat_cons hne).symm
  · intro f hf hfne
    rw [mem_append, mem_singleton] at hf
    rcases hf with hf | rfl
    · obtain ⟨x, hx, hs⟩ := cover f hf hfne
      rcases mem_cons.mp (perm_middle.mem_iff.mp hx) with rfl | hx
      · exact ⟨c', by simp, hm f.1 hs⟩
      · exact ⟨x, hmem hx, hs⟩
    · exact ⟨c', by simp, he⟩
  · have hold : (pre ++ c :: post).Pairwise (Before (R ++ [e])) := order.imp fun hb => hb.append
    simp only [pairwise_append, pairwise_cons, forall_mem_cons, Before, hty, hkey, hh] at hold ⊢
    exact hold

/-- A child with the same edge may be put back once it stands for one more
entry. -/
theorem Rep.replace_sameEdge (h : Rep val (.mk d (pre ++ c :: post)) R) (he : SameEdge c c')
    (hs : strip c.label p = some q) (hr : Rep val c' (after c.label R ++ [(q, x)])) :
    Rep val (.mk d (pre ++ c' :: post)) (R ++ [(p, x)]) := by
  have ha : after c'.label (R ++ [(p, x)]) = after c.label R ++ [(q, x)] := by
    rw [he.label, after_concat_of_strip hs]
  have hok := (h.child (c := c) (by simp)).2
  refine h.replace he.nType he.key (by rw [he.path]) ?_ ?_ ?_ ?_
  · intro p hp
    rwa [he.label]
  · rw [he.label, hs]
    rfl
  · rwa [ha]
  · refine ⟨?_, ?_, ?_, ?_, ?_⟩
    · simp [ha]
    · rw [he.nType, he.path]
      exact hok.text
    · rw [he.nType, he.path]
      exact hok.slash
    · rw [he.nType, ha]
      exact fun hd hc => forks_append_left (hok.fork hd hc)
    · rw [he.nType, he.key]
      exact fun hc => firstStar_append (hok.key hc)

/-! ## Adding a child -/

/-- A new child may stand behind a child of its own kind that it is apart
from. -/
theorem Before.of_apart (hap : Apart c c') (hl : after c.label R ≠ []) (hn : after c'.label R = [])
    (hc : c.label ≠ []) (hr : c.nType.rank ≤ c'.nType.rank) : Before (R ++ [e]) c c' := by
  rcases Nat.lt_or_eq_of_le hr with hlt | heq
  · exact .inl hlt
  · refine .inr ?_
    unfold label at hl hn hc
    unfold Apart label at hap
    cases hk : c.nType <;> cases hk' : c'.nType <;> rw [hk, hk'] at heq <;>
      first | (exact absurd heq (by decide)) | simp only [hk, hk'] at hap hl hn hc
    · refine .inl ⟨rfl, rfl, fun hh => ?_⟩
      obtain ⟨b, hb⟩ := isSome_iff_exists.mp (isSome_head?.mpr hc)
      have hb' : (c'.path.map lit).head? = some b := by
        rw [← hb, head?_map, head?_map, hh]
      have := hap b b hb hb'
      rw [same_refl] at this
      cases this
    · exact .inr ⟨rfl, rfl, Earlier.of_new hl hn⟩
    · have := hap _ _ rfl rfl
      cases this

/-- No pattern of the table goes through an edge that is apart from all
children. -/
theorem Rep.after_eq_nil (h : Rep val (.mk d cs) R) (hc : c.label ≠ [])
    (hap : ∀ x ∈ cs, Apart x c) : after c.label R = [] := by
  obtain ⟨-, -, cover, -, ok⟩ := h
  refine eq_nil_iff_forall_not_mem.mpr ?_
  rintro ⟨p, y⟩ hm
  obtain ⟨p₀, hp₀, hs⟩ := mem_after.mp hm
  have hne : p₀ ≠ [] := ne_nil_of_strip hc (by rw [hs]; rfl)
  obtain ⟨x, hx, hsx⟩ := cover _ hp₀ hne
  have := (hap x hx).strip_none (ok x hx).label_ne_nil hc (p := p₀) (by rw [hs]; rfl)
  simp [this] at hsx

/-- A new child that is apart from all others and stands for the new entry
alone. -/
theorem Rep.add (h : Rep val (.mk d cs) R) (hap : ∀ y ∈ cs, Apart y c)
    (hs : strip c.label p = some q) (hrep : Rep val c [(q, x)])
    (ht : c.nType = .static → c.path ≠ [])
    (hsl : d.nType = .param → c.nType = .static ∧ c.path = [Celeris.slash])
    (hfork : d.nType ≠ .param → c.nType = .static → forks [(q, x)] = true)
    (hkey : c.nType = .catchAll → p.head? = some (.star c.data.paramKey)) :
    Rep val (.mk d (insertSorted cs c)) (R ++ [(p, x)]) := by
  have hl : c.label ≠ [] := label_ne_nil ht
  have hnil : after c.label R = [] := h.after_eq_nil hl hap
  have ha : after c.label (R ++ [(p, x)]) = [(q, x)] := by
    rw [after_concat_of_strip hs, hnil]
    rfl
  have hstar : c.nType = .catchAll → firstStar (R ++ [(p, x)]) = some c.data.paramKey := by
    intro hk
    have hR : firstStar R = none := by
      rw [firstStar, findSome?_eq_none_iff]
      rintro ⟨r, y⟩ hr
      cases r with
      | nil => rfl
      | cons t r =>
        cases t with
        | lit b => rfl
        | param n => rfl
        | star n =>
          have : (r, y) ∈ after c.label R :=
            mem_after.mpr ⟨_, hr, by simp [label, hk, strip, same]⟩
          simp [hnil] at this
    have hp : p = .star c.data.paramKey :: p.tail := by
      cases p with
      | nil => simp [label, hk, strip] at hs
      | cons t p => simpa using hkey hk
    unfold firstStar at hR ⊢
    rw [findSome?_append, hR, hp]
    rfl
  have hne : p ≠ [] := ne_nil_of_strip hl (by rw [hs]; rfl)
  have hall : ∀ y ∈ insertSorted cs c, Rep val y (after y.label (R ++ [(p, x)])) ∧
      ChildOk d.nType (R ++ [(p, x)]) y := by
    intro y hy
    rcases mem_insertSorted.mp hy with rfl | hy
    · rw [ha]
      exact ⟨hrep, by simp [ha], ht, hsl, by rwa [ha], hstar⟩
    · exact h.kept hy ((hap y hy).strip_none (h.child hy).2.label_ne_nil hl (by rw [hs]; rfl))
  obtain ⟨here, below, cover, order, ok⟩ := h
  refine ⟨?_, fun y hy => (hall y hy).1, ?_, ?_, fun y hy => (hall y hy).2⟩
  · rw [here]
    exact (lastHere_concat_cons hne).symm
  · intro f hf hfne
    rw [mem_append, mem_singleton] at hf
    rcases hf with hf | rfl
    · obtain ⟨y, hy, hsy⟩ := cover f hf hfne
      exact ⟨y, mem_insertSorted.mpr (.inr hy), hsy⟩
    · exact ⟨c, mem_insertSorted.mpr (.inl rfl), by rw [hs]; rfl⟩
  · refine pairwise_insertSorted (order.imp fun hb => hb.append) fun y hy hr => ?_
    exact Before.of_apart (hap y hy) (ok y hy).live hnil (ok y hy).label_ne_nil hr

/-! ## Splitting a child -/

theorem forks_concat {b : UInt8} (hS : S ≠ [])
    (hb : ∀ e ∈ S, e.1.head? = some (.lit b)) (hp : p.head? ≠ some (.lit b)) :
    forks (S ++ [(p, x)]) = true := by
  by_contra hc
  rw [Bool.not_eq_true, forks_eq_false_iff] at hc
  obtain ⟨c, hc⟩ := hc
  obtain ⟨e, he⟩ := exists_mem_of_ne_nil S hS
  have hbc : some (lit b) = some (lit c) := by
    rw [← hb e he, hc e (mem_append_left _ he)]
  exact hp (by rw [hbc]; exact hc (p, x) (by simp))

/-- Every pattern that goes through the upper half of the text of a static child
goes through its lower half. -/
theorem Rep.after_upper (h : Rep val (.mk d cs) R) (hc : c ∈ cs) (hk : c.nType = .static)
    (hp : c.path = a ++ b) (ha : a ≠ []) :
    after (a.map .lit) R = (after c.label R).map fun e => (b.map .lit ++ e.1, e.2) := by
  have hsib : ∀ x ∈ cs, x ≠ c → Apart x c := fun x hx hxc => h.apart hx hc hxc
  obtain ⟨-, -, cover, order, ok⟩ := h
  simp only [after, map_filterMap]
  refine filterMap_congr fun e he => ?_
  have hl : c.label = a.map .lit ++ b.map .lit := by
    simp [label, hk, hp]
  rw [hl, strip_append]
  cases hs : strip (a.map .lit) e.1 with
  | none => rfl
  | some q =>
    obtain ⟨b₀, a', rfl⟩ := exists_cons_of_ne_nil ha
    have hq : e.1 = .lit b₀ :: (a'.map .lit ++ q) := strip_lits_iff.mp hs
    obtain ⟨x, hx, hsx⟩ := cover e he (by rw [hq]; exact cons_ne_nil _ _)
    have hxc : x = c := by
      by_contra hxc
      have := (hsib x hx hxc).strip_cons (ok x hx).label_ne_nil (t := .lit b₀)
        (by rw [hl]; rfl) same_refl (a'.map .lit ++ q)
      rw [← hq] at this
      simp [this] at hsx
    subst hxc
    rw [hl, strip_append, hs] at hsx
    obtain ⟨r, hr⟩ := isSome_iff_exists.mp hsx
    rw [hr, strip_lits_iff.mp hr]
    rfl

/-- A split child stands for what is behind the upper half of its text. -/
theorem rep_splitNode (hrep : Rep val c S)
    (hk : c.nType = .static) (hS : S ≠ []) (hf : forks S = true) (hpath : c.path = a ++ b)
    (hb : b ≠ []) (id : Nat) (hval : (lowerHalf id a.length c).data.entry val = c.data.entry val) :
    Rep val (splitNode id a.length c) (S.map fun e => (b.map .lit ++ e.1, e.2)) := by
  have hd : c.path.drop a.length = b := by rw [hpath, drop_left]
  have hl : (lowerHalf id a.length c).label = b.map .lit := by
    unfold label lowerHalf nType
    simp [hd, show c.data.nType = .static from hk]
  have ha : after (b.map .lit) (S.map fun e => (b.map .lit ++ e.1, e.2)) = S := by
    have hs : ∀ q, strip (b.map .lit) (b.map .lit ++ q) = some q := fun q => strip_lits_iff.mpr rfl
    simp [after, filterMap_map, hs]
  have hlow : Rep val (lowerHalf id a.length c) S := by
    cases hrep with
    | mk here below cover order ok => exact ⟨hval.trans here, below, cover, order, ok⟩
  refine ⟨?_, ?_, ?_, pairwise_singleton _ _, ?_⟩
  · exact (lastHere_eq_none (forall_mem_map.mpr fun _ _ => by simp [hb])).symm
  · exact forall_mem_singleton.mpr (by rwa [hl, ha])
  · refine forall_mem_map.mpr fun _ _ _ => ⟨_, mem_singleton_self _, ?_⟩
    rw [hl, strip_lits_iff.mpr rfl]
    rfl
  · refine forall_mem_singleton.mpr ⟨?_, fun _ => ?_, fun hp => ?_, fun _ _ => ?_, fun hc => ?_⟩
    · rwa [hl, ha]
    · simpa [lowerHalf, hd] using hb
    · exact absurd (hk.symm.trans hp) (by decide)
    · rwa [hl, ha]
    · exact absurd (hk.symm.trans hc) (by decide)

/-- A static child that was split is put back with the upper half of its text. -/
theorem Rep.replace_split (h : Rep val (.mk d (pre ++ c :: post)) R) (hd : d.nType ≠ .param)
    (hk : c.nType = .static) (hpath : c.path = a ++ b) (ha : a ≠ []) (hb : b ≠ []) {id : Nat}
    (hedge : SameEdge (splitNode id a.length c) c') (hq : ∀ b₀ ∈ b.head?, q.head? ≠ some (.lit b₀))
    (hrep : Rep val c' ((after c.label R).map (fun e => (b.map .lit ++ e.1, e.2)) ++ [(q, x)])) :
    Rep val (.mk d (pre ++ c' :: post)) (R ++ [(a.map .lit ++ q, x)]) := by
  have hpath' : c'.path = a := by
    rw [hedge.path]
    simp [splitNode, hpath]
  have hk' : c'.nType = .static := hedge.nType.trans hk
  have hl' : c'.label = a.map .lit := by simp [label, hk', hpath']
  have hl : c.label = a.map .lit ++ b.map .lit := by simp [label, hk, hpath]
  have hok := (h.child (c := c) (by simp)).2
  have haf : after c'.label (R ++ [(a.map .lit ++ q, x)]) =
      (after c.label R).map (fun e => (b.map .lit ++ e.1, e.2)) ++ [(q, x)] := by
    rw [hl', after_concat_of_strip (strip_lits_iff.mpr rfl), h.after_upper (by simp) hk hpath ha]
  refine h.replace (hk'.trans hk.symm) hedge.key ?_ ?_ ?_ ?_ ?_
  · obtain ⟨b₀, a', rfl⟩ := exists_cons_of_ne_nil ha
    rw [hpath', hpath]
    rfl
  · intro p hp
    rw [hl, strip_append] at hp
    rw [hl']
    cases hs : strip (a.map .lit) p with
    | none => simp [hs] at hp
    | some r => rfl
  · rw [hl', strip_lits_iff.mpr rfl]
    rfl
  · rwa [haf]
  · refine ⟨by simp [haf], fun _ => by rwa [hpath'], fun hp => absurd hp hd, fun _ _ => ?_,
      fun hc => by rw [hk'] at hc; cases hc⟩
    obtain ⟨b₀, b', rfl⟩ := exists_cons_of_ne_nil hb
    rw [haf]
    refine forks_concat (b := b₀) ?_ ?_ (hq b₀ rfl)
    · simpa using hok.live
    · exact forall_mem_map.mpr fun _ _ => rfl

end Celeris.Routing
