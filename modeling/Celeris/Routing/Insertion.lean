import Celeris.Routing.Children

/-!
# Insertion appends one entry to the table

`rep_insertSegments` follows the recursion of `insertStatic`, `insertChild` and
the loop of `addRouteWithAsync`. A split moves the chain of a cell to a new
cell, so it can change the value the cell stands for; `splitBy` says which cell
an insertion splits.
-/

namespace Celeris.Routing

open List Node Option SameEdge

universe u v

variable {H : Type u} {V : Type v} {val : NodeData H → List H → V}

/-! ## The walk of an insertion

Where an insertion goes before it changes anything: it ends at a cell that is
there, it splits one, or it adds a new one. -/

/-- The end of a walk. -/
inductive Walk (H : Type u) where
  | reaches (n : Node H)
  | splits (n : Node H)
  | grows

/-- The walk of `insertStatic`. -/
def staticWalk : Nat → Node H → Bytes → Walk H
  | 0, _, _ => .grows
  | fuel + 1, parent, text =>
    match splitFirst (fun ch => ch.nType = .static ∧ longestPrefix text ch.path ≠ 0)
        parent.children with
    | some (_, ch, _) =>
      let cp := longestPrefix text ch.path
      if cp = ch.path.length ∧ cp = text.length then .reaches ch
      else if cp < ch.path.length then .splits ch
      else staticWalk fuel ch (text.drop cp)
    | none => .grows

/-- The walk of `insertChild`. -/
def childWalk (parent : Node H) (seg : Segment) : Walk H :=
  match seg.kind with
  | .param =>
    match splitFirst (fun ch => ch.nType = .param ∧ ch.data.paramKey = seg.text.drop 1)
        parent.children with
    | some (_, ch, _) => .reaches ch
    | none => .grows
  | .catchAll =>
    match splitFirst (fun ch => ch.nType = .catchAll) parent.children with
    | some (_, ch, _) => .reaches ch
    | none => .grows
  | .static => staticWalk seg.text.length parent seg.text

/-- The cell that inserting the segments of a pattern splits, if it splits
one. -/
def splitBy : List Segment → Node H → Option (Node H)
  | [], _ => none
  | seg :: segs, n =>
    match childWalk n seg with
    | .reaches c => splitBy segs c
    | .splits c => some c
    | .grows => none

/-- Whether the lower half of a cell stands for the same value, wherever it is
split. -/
def Keeps (val : NodeData H → List H → V) (c : Node H) : Prop :=
  ∀ id cp, (lowerHalf id cp c).data.entry val = c.data.entry val

/-- Whether a walk ends where it may: `ok` is what has to hold of the cell the
insertion goes on at. -/
def Walk.Ok (val : NodeData H → List H → V) (ok : Node H → Prop) : Walk H → Prop
  | .reaches c => ok c
  | .splits c => Keeps val c ∧ ∀ id cp, ok (splitNode id cp c)
  | .grows => True

theorem splitBy_of_static {segs : List Segment} (hs : ∀ s ∈ segs.head?, s.kind ≠ .static)
    {n : Node H} (hn : ∀ c ∈ n.children, c.nType = .static) : splitBy segs n = none := by
  cases segs with
  | nil => rfl
  | cons s segs =>
    have hnone : ∀ p : Node H → Bool, (∀ c, p c = true → c.nType ≠ .static) →
        splitFirst p n.children = none := by
      intro p hp
      cases hsf : splitFirst p n.children with
      | none => rfl
      | some r =>
        obtain ⟨pre, c, post⟩ := r
        obtain ⟨hl, hc⟩ := splitFirst_eq_some hsf
        exact absurd (hn c (by rw [hl]; simp)) (hp c hc)
    obtain ⟨kind, text⟩ := s
    cases kind with
    | static => exact absurd rfl (hs _ rfl)
    | param =>
      have := hnone (fun ch => ch.nType = .param ∧ ch.data.paramKey = text.drop 1)
        fun c hc => by simp only [decide_eq_true_eq] at hc; rw [hc.1]; decide
      simp only [splitBy, childWalk, this]
    | catchAll =>
      have := hnone (fun ch => ch.nType = .catchAll)
        fun c hc => by simp only [decide_eq_true_eq] at hc; rw [hc]; decide
      simp [splitBy, childWalk, this]

theorem splitBy_of_fresh {segs : List Segment} {n : Node H} (hn : n.children = []) :
    splitBy segs n = none := by
  cases segs with
  | nil => rfl
  | cons s segs =>
    obtain ⟨kind, text⟩ := s
    cases kind with
    | static => cases text <;> simp [splitBy, childWalk, staticWalk, hn, splitFirst]
    | param | catchAll => simp [splitBy, childWalk, hn, splitFirst]

variable {c : Node H} {d : NodeData H} {cs : List (Node H)} {R : Table V} {q : List Tok}
  {k : Nat → Node H → Placed H} {X : Nat → V} {ok : Node H → Prop}

/-- A cell that is split is static. -/
theorem staticWalk_splits {fuel : Nat} {parent : Node H} {text : Bytes}
    (h : staticWalk fuel parent text = .splits c) : c.nType = .static := by
  induction fuel generalizing parent text with
  | zero => cases h
  | succ fuel ih =>
    unfold staticWalk at h
    split at h
    · rename_i pre ch post hsf
      have hch := (splitFirst_eq_some hsf).2
      simp only [decide_eq_true_eq] at hch
      dsimp only at h
      split_ifs at h
      · cases h
        exact hch.1
      · exact ih h
    · cases h

/-- Only a static segment splits a cell. -/
theorem childWalk_ne_splits {seg : Segment} (hs : seg.kind ≠ .static) {parent : Node H} :
    childWalk parent seg ≠ .splits c := by
  intro h
  unfold childWalk at h
  split at h
  · split at h <;> cases h
  · split at h <;> cases h
  · exact absurd ‹_› hs

/-- The `/` below a parameter is never split. -/
theorem Rep.staticWalk_slash (h : Rep val (.mk d cs) R) (hd : d.nType = .param) {fuel : Nat}
    {c : Node H} : staticWalk fuel (.mk d cs) [slash] ≠ .splits c := by
  intro hw
  cases fuel with
  | zero => cases hw
  | succ fuel =>
    unfold staticWalk at hw
    split at hw
    · rename_i pre ch post hsf
      obtain ⟨hl, -⟩ := splitFirst_eq_some hsf
      have hp := ((h.child (c := ch) (by rw [← children_mk d cs, hl]; simp)).2.slash hd).2
      simp [hp, longestPrefix] at hw
    · cases hw

/-! ## The recursion -/

/-- What a continuation does at a child of kind `t` that satisfies `ok`: it
leaves the edge as it is and appends one entry, whose value depends on the cell
it ends at. -/
def Appends (val : NodeData H → List H → V) (k : Nat → Node H → Placed H) (t : NodeType)
    (ok : Node H → Prop) (q : List Tok) (X : Nat → V) : Prop :=
  ∀ next c S, c.nType = t → ok c → Rep val c S →
    SameEdge c (k next c).node ∧ Rep val (k next c).node (S ++ [(q, X (k next c).target)])

theorem SameEdge.of_data {c' : Node H} (h : c'.data = c.data) : SameEdge c c' :=
  ⟨by rw [Node.nType, h]; rfl, by rw [Node.path, h]; rfl, by rw [h]⟩

/-- A new cell stands for the empty table. -/
theorem rep_fresh {d : NodeData H} (h : d.handlers = none) : Rep val (.mk d []) [] := by
  refine ⟨by rw [NodeData.entry, h]; rfl, ?_, ?_, .nil, ?_⟩ <;> simp

theorem insertStatic_data {fuel next : Nat} {parent : Node H} {text : Bytes}
    {k : Nat → Node H → Placed H} :
    (insertStatic fuel next parent text k).node.data = parent.data := by
  cases fuel with
  | zero => rfl
  | succ fuel =>
    unfold insertStatic
    split
    · dsimp only
      split_ifs <;> rfl
    · rfl

/-- No static child shares a first byte with the text of a new one. -/
theorem apart_of_longestPrefix {c' : Node H} (hk : c'.nType = .static)
    (h : ¬ (c.nType = .static ∧ longestPrefix c'.path c.path ≠ 0)) : Apart c c' := by
  by_cases hc : c.nType = .static
  · refine apart_of_static hc hk fun hne hne' hhd => h ⟨hc, ?_⟩
    obtain ⟨b, s, hb⟩ := exists_cons_of_ne_nil hne
    obtain ⟨b', s', hb'⟩ := exists_cons_of_ne_nil hne'
    rw [hb, hb', head?_cons, head?_cons, some.injEq] at hhd
    simp [hb, hb', longestPrefix, hhd]
  · exact apart_of_nType_ne fun e => hc (e.trans hk)

theorem forks_singleton {x : V} (h : ∀ b, q.head? ≠ some (.lit b)) : forks [(q, x)] = true := by
  by_contra hc
  rw [Bool.not_eq_true, forks_eq_false_iff] at hc
  obtain ⟨b, hb⟩ := hc
  exact h b (hb _ (mem_singleton_self _))

theorem rep_insertStatic (hk : Appends val k .static ok q X) (hf : ∀ d : NodeData H, ok (.mk d []))
    (fuel : Nat) :
    ∀ (next : Nat) (d : NodeData H) (cs : List (Node H)) (R : Table V) (text : Bytes),
      text.length ≤ fuel → text ≠ [] → Rep val (.mk d cs) R → (d.nType = .param → text = [slash]) →
      (d.nType ≠ .param → ∀ b, q.head? ≠ some (.lit b)) →
        (staticWalk fuel (.mk d cs) text).Ok val ok →
      Rep val (insertStatic fuel next (.mk d cs) text k).node
        (R ++ [(text.map .lit ++ q, X (insertStatic fuel next (.mk d cs) text k).target)]) := by
  induction fuel with
  | zero =>
    intro next d cs R text hlen hne
    exact absurd (eq_nil_of_length_eq_zero (Nat.le_zero.mp hlen)) hne
  | succ fuel ih =>
    intro next d cs R text hlen hne hrep hsl hq hwalk
    unfold insertStatic
    unfold staticWalk at hwalk
    cases hsf : splitFirst (fun ch => decide (ch.nType = .static ∧ longestPrefix text ch.path ≠ 0))
      cs with
    | none =>
      have hnone := splitFirst_eq_none hsf
      simp only [children_mk, hsf]
      obtain ⟨hedge, hnew⟩ :=
        hk (next + 1) (.mk { id := next, path := text } []) [] rfl (hf _) (rep_fresh rfl)
      have hty := hedge.nType
      have hpath := hedge.path
      refine hrep.add (q := q) ?_ ?_ hnew (fun _ => ?_) (fun hd => ⟨hty, ?_⟩)
        (fun hd _ => forks_singleton (hq hd)) (fun hc => by rw [hty] at hc; cases hc)
      · intro y hy
        refine apart_of_longestPrefix hty fun hc => ?_
        rw [hpath] at hc
        exact absurd (hnone y hy) (by simpa using hc)
      · rw [hedge.label]
        exact strip_lits_iff.mpr rfl
      · rwa [hpath]
      · rw [hpath]
        exact hsl hd
    | some r =>
      obtain ⟨pre, ch, post⟩ := r
      obtain ⟨rfl, hch⟩ := splitFirst_eq_some hsf
      simp only [decide_eq_true_eq] at hch
      obtain ⟨hst, hcp⟩ := hch
      obtain ⟨hbe, hok⟩ := hrep.child (c := ch) (by simp)
      simp only [children_mk, hsf] at hwalk ⊢
      obtain ⟨a, t, b, rfl, hpath, hlen', hhd⟩ := longestPrefix_spec text ch.path
      have ha : a ≠ [] := by
        rintro rfl
        exact hcp hlen'.symm
      have hl : ch.label = a.map .lit ++ b.map .lit := by
        simp [Node.label, hst, hpath]
      have hsh : t.length ≤ fuel := by
        rw [length_append] at hlen
        omega
      rw [← hlen', hpath, drop_left, length_append, length_append] at hwalk ⊢
      by_cases hb : b = []
      · subst hb
        have hs : ∀ r, strip ch.label (a.map .lit ++ r) = some r := fun r => by
          rw [hl, map_nil, append_nil]
          exact strip_lits_iff.mpr rfl
        by_cases ht : t = []
        · -- the child has the very text
          subst ht
          rw [if_pos ⟨rfl, rfl⟩] at hwalk ⊢
          obtain ⟨hedge, hnew⟩ := hk next ch _ hst hwalk hbe
          rw [append_nil]
          exact hrep.replace_sameEdge hedge (hs q) hnew
        · -- the text goes on below the child
          have hd : d.nType ≠ .param := fun hp => by
            obtain ⟨-, h⟩ := hok.slash hp
            have := hsl hp
            rw [← h, hpath, append_nil] at this
            exact ht (append_right_eq_self.mp this)
          have hpos := length_pos_iff.mpr ht
          rw [if_neg (by simp only [length_nil]; omega),
            if_neg (by simp only [length_nil]; omega)] at hwalk ⊢
          rw [map_append, append_assoc]
          obtain ⟨d', cs'⟩ := ch
          refine hrep.replace_sameEdge (of_data insertStatic_data) (hs _)
            (ih next d' cs' _ t hsh ht hbe (fun hp => ?_) (fun _ => hq hd) hwalk)
          exact absurd (hst.symm.trans hp) (by decide)
      · have hd : d.nType ≠ .param := fun hp => by
          obtain ⟨-, h⟩ := hok.slash hp
          obtain ⟨b₀, a', rfl⟩ := exists_cons_of_ne_nil ha
          rw [hpath, cons_append, cons.injEq, append_eq_nil_iff] at h
          exact hb h.2.2
        have hpos := length_pos_iff.mpr hb
        rw [if_neg (by omega), if_pos (by omega)] at hwalk ⊢
        obtain ⟨hke, hgo⟩ := hwalk
        have hsp := rep_splitNode hbe hst hok.live (hok.fork hd hst) hpath hb next (hke _ _)
        by_cases ht : t = []
        · -- the text ends inside the text of the child
          subst ht
          obtain ⟨hedge, hnew⟩ := hk (next + 1) (splitNode next a.length ch) _ hst (hgo _ _) hsp
          rw [if_pos (by simp), append_nil]
          exact hrep.replace_split hd hst hpath ha hb hedge (fun b₀ _ => hq hd b₀) hnew
        · -- the texts part inside the text of the child
          have htpos := length_pos_iff.mpr ht
          rw [if_neg (by omega), map_append, append_assoc]
          refine hrep.replace_split hd hst hpath ha hb (of_data insertStatic_data) ?_
            (ih (next + 1) _ _ _ t hsh ht hsp (fun hp => ?_) (fun _ => hq hd) ?_)
          · obtain ⟨t₀, t', rfl⟩ := exists_cons_of_ne_nil ht
            intro b₀ hb₀ he
            rw [mem_def] at hb₀
            simp [hb₀, hb] at hhd he
            exact hhd he
          · exact absurd (hst.symm.trans hp) (by decide)
          · have hz : longestPrefix t (lowerHalf next a.length ch).path = 0 := by
              rw [show (lowerHalf next a.length ch).path = b by simp [lowerHalf, hpath]]
              exact longestPrefix_of_head_ne ((hhd.resolve_left ht).resolve_left hb)
            cases fuel with
            | zero => trivial
            | succ fuel => simp [staticWalk, splitFirst, hz, Walk.Ok]

/-- What a parameter or a catch-all segment does at its parent: the child is
looked up by `p`, or created as `fresh`. -/
theorem rep_insertLabelled {t : NodeType} (hk : Appends val k t ok q X)
    (hf' : ∀ d : NodeData H, ok (.mk d [])) (ht : t ≠ .static) {key : Bytes}
    {p : Node H → Bool} {tok : Tok}
    (hrep : Rep val (.mk d cs) R) (hd : d.nType ≠ .param) {next : Nat}
    (hw : ∀ pre c post, splitFirst p cs = some (pre, c, post) → ok c)
    (hsome : ∀ c, p c = true → c.nType = t ∧ ∀ u, strip c.label (tok :: u) = some u)
    (hn : ∀ c c', c'.nType = t → c'.data.paramKey = key → p c = false → Apart c c')
    (hf : ∀ c : Node H, c.nType = t → c.data.paramKey = key →
      ∀ u, strip c.label (tok :: u) = some u)
    (hstar : t = .catchAll → tok = .star key) :
    let placed := match splitFirst p cs with
      | some (pre, ch, post) => (k next ch).under (.mk d cs) pre post
      | none => (k (next + 1) (.mk { id := next, nType := t, paramKey := key } [])).added (.mk d cs)
    Rep val placed.node (R ++ [(tok :: q, X placed.target)]) := by
  intro placed
  subst placed
  cases hsf : splitFirst p cs with
  | none =>
    obtain ⟨he, hnew⟩ := hk (next + 1) (.mk { id := next, nType := t, paramKey := key } []) []
      rfl (hf' _) (rep_fresh rfl)
    have hty := he.nType
    have hs : ∀ c : Node H, c.nType = t → c.nType ≠ .static := fun c hc => by rwa [hc]
    refine hrep.add (fun y hy => ?_) (hf _ hty he.key q) hnew (fun hc => absurd hc (hs _ hty))
      (fun hp => absurd hp hd) (fun _ hc => absurd hc (hs _ hty)) fun hc => ?_
    · exact hn y _ hty he.key (splitFirst_eq_none hsf y hy)
    · rw [he.key, hstar (hty.symm.trans hc)]
      rfl
  | some r =>
    obtain ⟨pre, ch, post⟩ := r
    obtain ⟨rfl, hch⟩ := splitFirst_eq_some hsf
    obtain ⟨hty, hs⟩ := hsome ch hch
    obtain ⟨he, hnew⟩ := hk next ch _ hty (hw pre ch post hsf) (hrep.child (by simp)).1
    exact hrep.replace_sameEdge he (hs q) hnew

theorem insertChild_data {next : Nat} {parent : Node H} {seg : Segment}
    {k : Nat → Node H → Placed H} : (insertChild next parent seg k).node.data = parent.data := by
  unfold insertChild
  split
  · dsimp only
    split <;> rfl
  · split <;> rfl
  · exact insertStatic_data

theorem rep_insertChild {seg : Segment} (hk : Appends val k seg.kind ok q X)
    (hf : ∀ d : NodeData H, ok (.mk d []))
    (hrep : Rep val (.mk d cs) R) {next : Nat} (hw : (childWalk (.mk d cs) seg).Ok val ok)
    (hs : seg.kind = .static → seg.text ≠ [] ∧ (d.nType = .param → seg.text = [slash]) ∧
      (d.nType ≠ .param → ∀ b, q.head? ≠ some (.lit b))) (hd : seg.kind ≠ .static →
        d.nType ≠ .param) :
    Rep val (insertChild next (.mk d cs) seg k).node
      (R ++ [(seg.toks ++ q, X (insertChild next (.mk d cs) seg k).target)]) := by
  obtain ⟨kind, text⟩ := seg
  cases kind with
  | static =>
    obtain ⟨hne, hsl, hq⟩ := hs rfl
    exact rep_insertStatic hk hf _ next d cs R text (Nat.le_refl _) hne hrep hsl hq hw
  | param =>
    refine rep_insertLabelled hk hf (by simp) hrep (hd (by simp)) ?_ ?_ ?_ ?_ (fun h => by cases h)
    · intro pre c post hsf
      simpa only [childWalk, children_mk, hsf, Walk.Ok] using hw
    · intro c hc
      simp only [decide_eq_true_eq] at hc
      exact ⟨hc.1, fun u => by simp [Node.label, hc.1, hc.2, strip_param_iff]⟩
    · intro c c' hty hkey hc
      by_cases hct : c.nType = .param
      · exact apart_of_param hct hty (by simpa [hct, hkey] using hc)
      · exact apart_of_nType_ne fun e => hct (e.trans hty)
    · intro c hty hkey u
      simp [Node.label, hty, hkey, strip_param_iff]
  | catchAll =>
    refine rep_insertLabelled hk hf (by simp) hrep (hd (by simp)) ?_ ?_ ?_ ?_ fun _ => rfl
    · intro pre c post hsf
      simpa only [childWalk, children_mk, hsf, Walk.Ok] using hw
    · intro c hc
      simp only [decide_eq_true_eq] at hc
      exact ⟨hc, fun u => by simp [Node.label, hc, strip_star_iff]⟩
    · intro c c' hty _ hc
      exact apart_of_nType_ne fun e => by simp [e.trans hty] at hc
    · intro c hty _ u
      simp [Node.label, hty, strip_star_iff]

/-- Segments that do not start with a static one do not start with a literal. -/
theorem head_toks_ne_lit {segs : List Segment} (h : ∀ s ∈ segs.head?, s.kind ≠ .static)
    (b : UInt8) : (segs.flatMap Segment.toks).head? ≠ some (.lit b) := by
  cases segs with
  | nil => simp
  | cons s segs =>
    obtain ⟨kind, text⟩ := s
    cases kind with
    | static => exact absurd rfl (h _ rfl)
    | param | catchAll => simp [Segment.toks]

/-- Inserting the segments of a pattern appends the pattern to the table, if the
cell it splits keeps its value. -/
theorem rep_insertSegments {handlers : List H} {fullPath : Bytes} {async : Bool}
    (hX : ∀ d : NodeData H,
      val { d with handlers := some handlers, fullPath := fullPath, async := async } handlers =
        X d.id) {segs : List Segment} :
    ∀ t : NodeType, Chained t segs →
      Appends val (fun next n => insertSegments handlers fullPath async segs next n) t
        (fun c => ∀ s ∈ splitBy segs c, Keeps val s) (segs.flatMap Segment.toks) X := by
  induction segs with
  | nil =>
    rintro t - next ⟨d, cs⟩ S - - hrep
    have hall := fun y (hy : y ∈ cs) => hrep.kept (e := ([], X d.id)) hy (by
      by_contra hs
      exact ne_nil_of_strip (hrep.child hy).2.label_ne_nil (isSome_iff_ne_none.mpr hs) rfl)
    obtain ⟨-, -, cover, order, -⟩ := hrep
    refine ⟨⟨rfl, rfl, rfl⟩, ?_, fun y hy => (hall y hy).1, ?_, order.imp fun hb => hb.append,
      fun y hy => (hall y hy).2⟩
    · rw [flatMap_nil, lastHere_concat_nil]
      exact congrArg some (hX d)
    · intro e he hne
      rcases mem_append.mp he with he | he
      · exact cover e he hne
      · rw [mem_singleton] at he
        exact absurd (by rw [he]; rfl) hne
  | cons seg segs ih =>
    rintro t hch next ⟨d, cs⟩ S rfl hk hrep
    refine ⟨of_data insertChild_data, ?_⟩
    have hf : ∀ d : NodeData H, ∀ s ∈ splitBy segs (.mk d []), Keeps val s := by
      intro d s hs
      rw [splitBy_of_fresh rfl] at hs
      cases hs
    have hwalk : (∀ c, childWalk (.mk d cs) seg = .splits c →
      ∀ id cp, splitBy segs (splitNode id cp c) = none) →
        (childWalk (.mk d cs) seg).Ok val fun c => ∀ s ∈ splitBy segs c, Keeps val s := by
      intro hend
      rw [splitBy] at hk
      cases hw : childWalk (.mk d cs) seg with
      | reaches c => rwa [hw] at hk
      | splits c =>
        rw [hw] at hk
        refine ⟨hk c rfl, fun id cp s hs => ?_⟩
        rw [hend c hw] at hs
        cases hs
      | grows => trivial
    obtain ⟨kind, text⟩ := seg
    cases kind with
    | static =>
      obtain ⟨hne, hsl, hnext, hch⟩ := hch
      refine rep_insertChild (ih .static hch) hf hrep (hwalk fun c hc id cp => ?_)
        (fun _ => ⟨hne, hsl, fun hd => head_toks_ne_lit (hnext hd)⟩) fun h => absurd rfl h
      by_cases hd : d.nType = .param
      · have htext : text = [slash] := hsl hd
        subst htext
        exact absurd hc (hrep.staticWalk_slash hd)
      · have hc' : c.nType = .static := staticWalk_splits hc
        refine splitBy_of_static (hnext hd) fun x hx => ?_
        rw [mem_singleton.mp hx]
        exact hc'
    | param =>
      obtain ⟨hd, -, hch⟩ := hch
      exact rep_insertChild (ih .param hch) hf hrep
        (hwalk fun c hc => absurd hc (childWalk_ne_splits (by simp)))
        (fun h => by cases h) fun _ => hd
    | catchAll =>
      obtain ⟨hd, -, rfl⟩ := hch
      exact rep_insertChild (ih .catchAll trivial) hf hrep
        (hwalk fun c hc => absurd hc (childWalk_ne_splits (by simp)))
        (fun h => by cases h) fun _ => hd

end Celeris.Routing
