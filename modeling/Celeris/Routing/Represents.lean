import Celeris.Routing.Segments
import Mathlib.Data.List.Pairwise

/-!
# What a trie stands for

`Rep val n R`: the subtree `n` stands for the table `R` of patterns, in
registration order. `val` says which value a cell with a chain stands for: its
chain and pattern, or more of the cell. A child stands for what is left of the
table behind its label. The invariant also says how the children are
kept: static children differ in their first byte, static children come before
parameters and these before the catch-all, parameters stand in registration
order, and the text of a static child is as long as possible, so that it ends
where the patterns fork.

Insertion appends one entry to the table (`rep_insertSegments`): this holds for
every pattern, whether or not a node is split on the way.
-/

namespace Celeris.Routing

open List Option Tok Node

universe u v

variable {H : Type u} {V : Type v}

/-! ## The invariant -/

/-- The tokens an edge to a node stands for. -/
def Node.label (n : Node H) : List Tok :=
  match n.nType with
  | .static => n.path.map .lit
  | .param => [.param n.data.paramKey]
  | .catchAll => [.star n.data.paramKey]

def NodeData.entry (val : NodeData H → List H → V) (d : NodeData H) : Option V :=
  d.handlers.map (val d)

/-- The value of the last pattern of a table that ends here. -/
def lastHere (R : Table V) : Option V :=
  (R.filterMap fun e => if e.1 = [] then some e.2 else none).getLast?

/-- The name of the first catch-all of a table. -/
def firstStar (R : Table V) : Option Bytes :=
  R.findSome? fun e =>
    match e.1 with
    | .star n :: _ => some n
    | _ => none

/-- How two children of a node with the table `R` follow each other. -/
def Before (R : Table V) (c c' : Node H) : Prop :=
  c.nType.rank < c'.nType.rank ∨
    (c.nType = .static ∧ c'.nType = .static ∧ c.path.head? ≠ c'.path.head?) ∨
    (c.nType = .param ∧ c'.nType = .param ∧ Earlier R c.data.paramKey c'.data.paramKey)

/-- What holds of each child of a node of kind `k` with the table `R`. -/
structure ChildOk (k : NodeType) (R : Table V) (c : Node H) : Prop where
  /-- Some pattern goes through the child. -/
  live : after c.label R ≠ []
  /-- A static text is not empty. -/
  text : c.nType = .static → c.path ≠ []
  /-- Below a parameter stands a `/` on its own. -/
  slash : k = .param → c.nType = .static ∧ c.path = [Celeris.slash]
  /-- Elsewhere a static text ends where the patterns fork. -/
  fork : k ≠ .param → c.nType = .static → forks (after c.label R) = true
  /-- A catch-all has the name it was first registered with. -/
  key : c.nType = .catchAll → firstStar R = some c.data.paramKey

/-- `Rep val n R`: the subtree `n` stands for the table `R`. -/
inductive Rep (val : NodeData H → List H → V) : Node H → Table V → Prop
  | mk {d : NodeData H} {cs : List (Node H)} {R : Table V}
      (here : d.entry val = lastHere R)
      (below : ∀ c ∈ cs, Rep val c (after c.label R))
      (cover : ∀ e ∈ R, e.1 ≠ [] → ∃ c ∈ cs, (strip c.label e.1).isSome)
      (order : cs.Pairwise (Before R))
      (ok : ∀ c ∈ cs, ChildOk d.nType R c) : Rep val (.mk d cs) R

/-! ## Lemmas on tables -/

variable {x : V} {S : Table V}

theorem lastHere_concat_nil {R : Table V} : lastHere (R ++ [([], x)]) = some x := by
  simp [lastHere]

variable {p : List Tok} {R : Table V} {a b : Bytes} {t : Tok} {c c' : Node H}

theorem lastHere_concat_cons (hp : p ≠ []) : lastHere (R ++ [(p, x)]) = lastHere R := by
  simp [lastHere, hp]

theorem lastHere_eq_none (h : ∀ e ∈ R, e.1 ≠ []) : lastHere R = none := by
  have : R.filterMap (fun e => if e.1 = [] then some e.2 else none) = [] := by
    rw [filterMap_eq_nil_iff]
    intro e he
    simp [h e he]
  rw [lastHere, this]
  rfl

theorem mem_of_lastHere (h : lastHere R = some x) : ([], x) ∈ R := by
  have hm := mem_of_getLast? h
  rw [mem_filterMap] at hm
  obtain ⟨⟨p, y⟩, he, hy⟩ := hm
  by_cases hp : p = []
  · subst hp
    simp only [if_true, some.injEq] at hy
    rw [← hy]
    exact he
  · simp [hp] at hy

theorem lastHere_isSome (h : ([], x) ∈ R) : (lastHere R).isSome = true := by
  rw [isSome_iff_ne_none, lastHere, ne_eq, getLast?_eq_none_iff, filterMap_eq_nil_iff]
  intro hn
  simpa using hn _ h

theorem firstStar_append {n : Bytes} (h : firstStar R = some n) : firstStar (R ++ S) = some n := by
  unfold firstStar at h ⊢
  rw [findSome?_append, h]
  rfl

theorem Earlier.append (h : Earlier R a b) : Earlier (R ++ S) a b := by
  unfold Earlier at h ⊢
  have hb : R.findIdx (onParam b) ≤ R.length := findIdx_le_length
  have ha : R.findIdx (onParam a) < R.length := Nat.lt_of_lt_of_le h hb
  have hle : ∀ n, (R ++ S).findIdx (onParam n) =
      if R.findIdx (onParam n) < R.length then R.findIdx (onParam n)
      else S.findIdx (onParam n) + R.length := fun n => findIdx_append
  rw [hle a, hle b, if_pos ha]
  split
  · exact h
  · omega

variable {e : List Tok × V} {s : Tok} {u : List Tok} {k : NodeType}

theorem findIdx_onParam_lt (ha : after [.param a] R ≠ []) : R.findIdx (onParam a) < R.length := by
  rw [findIdx_lt_length]
  obtain ⟨⟨p, x⟩, hm⟩ := exists_mem_of_ne_nil _ ha
  obtain ⟨p₀, hp₀, hs⟩ := mem_after.mp hm
  exact ⟨_, hp₀, by simp [onParam, strip_param_iff.mp hs]⟩

/-- A name that occurs in the table is earlier than one that is only added. -/
theorem Earlier.of_new
    (ha : after [.param a] R ≠ []) (hb : after [.param b] R = []) : Earlier (R ++ [e]) a b := by
  have hn : ¬ R.findIdx (onParam b) < R.length := by
    rw [findIdx_lt_length]
    rintro ⟨⟨p, x⟩, hm, hp⟩
    cases p with
    | nil => simp [onParam] at hp
    | cons t p =>
      have ht : t = .param b := by simpa [onParam] using hp
      subst ht
      have : (p, x) ∈ after [.param b] R := mem_after.mpr ⟨_, hm, strip_param_iff.mpr rfl⟩
      rw [hb] at this
      exact absurd this not_mem_nil
  have hf := findIdx_onParam_lt ha
  unfold Earlier
  rw [findIdx_append, findIdx_append, if_pos hf, if_neg hn]
  omega

theorem Earlier.ne (h : Earlier R a b) : a ≠ b := by
  rintro rfl
  exact Nat.lt_irrefl _ h

/-! ## Labels that keep apart -/

/-- Two tokens that lead to the same child as a third lead to the same child. -/
theorem Tok.same_trans {t' : Tok} (h : t.same s = true) (h' : t'.same s = true) :
    t.same t' = true := by
  cases t <;> cases t' <;> cases s <;> simp_all [same]

theorem strip_isSome_head (ht : u.head? = some t)
    (h : (strip u p).isSome) : ∃ t' p', p = t' :: p' ∧ t.same t' = true := by
  obtain ⟨u, rfl⟩ := head?_eq_some_iff.mp ht
  cases p with
  | nil => simp [strip] at h
  | cons t' p =>
    refine ⟨t', p, rfl, ?_⟩
    by_contra hc
    simp [strip, hc] at h

/-- A pattern that goes through an edge does not end before it. -/
theorem ne_nil_of_strip (hu : u ≠ []) (h : (strip u p).isSome) : p ≠ [] := by
  rintro rfl
  cases u with
  | nil => exact hu rfl
  | cons t u => simp [strip] at h

/-- Whether the edges to two nodes start with tokens that lead to different
children. -/
def Apart (c c' : Node H) : Prop :=
  ∀ t t', c.label.head? = some t → c'.label.head? = some t' → t.same t' = false

theorem Apart.symm (h : Apart c c') : Apart c' c := by
  intro t t' ht ht'
  have := h t' t ht' ht
  cases t <;> cases t' <;> simp_all [same, eq_comm]

/-- A pattern that starts like one edge does not go through an edge apart from
it. -/
theorem Apart.strip_cons (h : Apart c c') (hc : c.label ≠ [])
    (ht : c'.label.head? = some t) (hs : t.same s = true) (p : List Tok) :
    strip c.label (s :: p) = none := by
  obtain ⟨t', ht'⟩ := isSome_iff_exists.mp (isSome_head?.mpr hc)
  by_contra hn
  obtain ⟨s', p', he, hts⟩ := strip_isSome_head ht' (isSome_iff_ne_none.mpr hn)
  cases he
  have := h t' t ht' ht
  rw [same_trans hts hs] at this
  cases this

theorem Apart.strip_none (h : Apart c c') (hc : c.label ≠ []) (hc' : c'.label ≠ [])
    (hp : (strip c'.label p).isSome) : strip c.label p = none := by
  obtain ⟨t, ht⟩ := isSome_iff_exists.mp (isSome_head?.mpr hc')
  obtain ⟨s, p', rfl, hts⟩ := strip_isSome_head ht hp
  exact h.strip_cons hc ht hts p'

def Tok.kind : Tok → NodeType
  | .lit _ => .static
  | .param _ => .param
  | .star _ => .catchAll

theorem kind_of_head_label (h : c.label.head? = some t) : t.kind = c.nType := by
  unfold label at h
  cases hk : c.nType with
  | static =>
    simp only [hk, head?_map, map_eq_some_iff] at h
    obtain ⟨b, -, rfl⟩ := h
    rfl
  | param | catchAll =>
    simp only [hk, head?_cons, some.injEq] at h
    rw [← h]
    rfl

/-- The kind of a child is that of the token it takes off a pattern. -/
theorem kind_of_strip (hc : c.label ≠ []) (h : (strip c.label (t :: p)).isSome) :
    c.nType = t.kind := by
  obtain ⟨t', ht'⟩ := isSome_iff_exists.mp (isSome_head?.mpr hc)
  obtain ⟨s, p', hp, hs⟩ := strip_isSome_head ht' h
  cases hp
  rw [← kind_of_head_label ht']
  cases t <;> cases t' <;> first | rfl | cases hs

/-- Nodes of different kinds are apart. -/
theorem apart_of_nType_ne (h : c.nType ≠ c'.nType) : Apart c c' := by
  intro t t' ht ht'
  rw [← kind_of_head_label ht, ← kind_of_head_label ht'] at h
  cases t <;> cases t' <;> first | rfl | exact absurd rfl h

theorem apart_of_static (h : c.nType = .static) (h' : c'.nType = .static)
    (hp : c.path ≠ [] → c'.path ≠ [] → c.path.head? ≠ c'.path.head?) : Apart c c' := by
  intro t t' ht ht'
  simp only [label, h, h', head?_map, map_eq_some_iff] at ht ht'
  obtain ⟨b, hb, rfl⟩ := ht
  obtain ⟨b', hb', rfl⟩ := ht'
  have hne : b ≠ b' := by
    rintro rfl
    refine hp ?_ ?_ (hb.trans hb'.symm) <;> (intro hn; simp_all)
  simp [same, hne]

theorem apart_of_param (h : c.nType = .param) (h' : c'.nType = .param)
    (hn : c.data.paramKey ≠ c'.data.paramKey) : Apart c c' := by
  intro t t' ht ht'
  simp only [label, h, h', head?_cons, some.injEq] at ht ht'
  subst ht ht'
  simp [same, hn]

theorem Before.apart (h : Before R c c') : Apart c c' := by
  rcases h with h | ⟨h, h', hp⟩ | ⟨h, h', he⟩
  · exact apart_of_nType_ne fun e => Nat.lt_irrefl _ (e ▸ h)
  · exact apart_of_static h h' fun _ _ => hp
  · exact apart_of_param h h' he.ne

theorem label_ne_nil (h : c.nType = .static → c.path ≠ []) : c.label ≠ [] := by
  unfold label
  cases hk : c.nType with
  | static => simpa using h hk
  | param | catchAll => simp

theorem ChildOk.label_ne_nil (h : ChildOk k R c) : c.label ≠ [] := Routing.label_ne_nil h.text

theorem Before.append (h : Before R c c') : Before (R ++ S) c c' := by
  rcases h with h | h | ⟨h, h', he⟩
  · exact .inl h
  · exact .inr (.inl h)
  · exact .inr (.inr ⟨h, h', he.append⟩)

theorem Rep.apart {val : NodeData H → List H → V} {d : NodeData H} {cs : List (Node H)}
    (h : Rep val (.mk d cs) R) (hc : c ∈ cs) (hc' : c' ∈ cs) (hne : c ≠ c') : Apart c c' := by
  cases h with
  | mk _ _ _ order _ =>
    have : Std.Symm (Apart (H := H)) := ⟨fun _ _ h => h.symm⟩
    exact (order.imp fun hb => hb.apart).forall hc hc' hne

theorem ChildOk.concat (h : ChildOk k R c) (he : strip c.label e.1 = none) :
    ChildOk k (R ++ [e]) c := by
  have ha : after c.label (R ++ [e]) = after c.label R := after_concat_of_none he
  exact ⟨by rw [ha]; exact h.live, h.text, h.slash, by rw [ha]; exact h.fork,
    fun hk => firstStar_append (h.key hk)⟩

end Celeris.Routing
