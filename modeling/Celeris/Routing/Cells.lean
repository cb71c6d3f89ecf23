import Celeris.Routing.Registered
import Celeris.Routing.Precedence
import Mathlib.Data.List.Nodup

/-!
# Cells and their identities

A route handle points to a cell of the trie. Identities stay unique along
registrations (`Grows`), a table entry that is found stands in one cell
(`Rep.exists_cell`), and writing through a handle changes the value of that
entry and no other (`Rep.modify`).
-/

namespace Celeris.Routing

open List Node Function

universe u v w

variable {H : Type u} {V : Type v}

/-! ## The cells of a subtree -/

mutual

def Node.cells : Node H → List (NodeData H)
  | .mk d cs => d :: cellsIn cs

def cellsIn : List (Node H) → List (NodeData H)
  | [] => []
  | c :: cs => c.cells ++ cellsIn cs

end

def Node.ids (n : Node H) : List Nat := n.cells.map NodeData.id

def idsIn (cs : List (Node H)) : List Nat := (cellsIn cs).map NodeData.id

/-- Induction over a subtree. -/
theorem Node.induct {P : Node H → Prop} (h : ∀ d cs, (∀ c ∈ cs, P c) → P (.mk d cs)) (n : Node H) :
    P n :=
  @Node.rec H P (fun cs => ∀ c ∈ cs, P c) h (by simp)
    (fun _ _ hc hcs => forall_mem_cons.mpr ⟨hc, hcs⟩) n

variable {d : NodeData H} {a b : List Nat} {c n : Node H} {next next' id : Nat}
  {f : NodeData H → NodeData H} {R : Table V} {cs : List (Node H)}

theorem mem_cellsIn : d ∈ cellsIn cs ↔ ∃ c ∈ cs, d ∈ c.cells := by
  induction cs with
  | nil => simp [cellsIn]
  | cons c cs ih => simp [cellsIn, ih]

variable {ds : List (Node H)} {r : Placed H} {p : List Tok} {val : NodeData H → List H → V}
  {W : Type w} {e : Node H}

theorem cellsIn_append : cellsIn (cs ++ ds) = cellsIn cs ++ cellsIn ds := by
  induction cs with
  | nil => rfl
  | cons c cs ih => simp [cellsIn, ih]

@[simp] theorem ids_mk : (Node.mk d cs).ids = d.id :: idsIn cs := rfl

theorem idsIn_append : idsIn (cs ++ ds) = idsIn cs ++ idsIn ds := by
  simp [idsIn, cellsIn_append]

@[simp] theorem idsIn_cons : idsIn (c :: cs) = c.ids ++ idsIn cs := by
  simp [idsIn, cellsIn, ids]

@[simp] theorem idsIn_nil : idsIn ([] : List (Node H)) = [] := rfl

/-! ## Identities stay unique -/

/-- `Grows before after next next'`: identities `before` became `after`, with new
ones from `next` up to `next'`. -/
def Grows (before after : List Nat) (next next' : Nat) : Prop :=
  next ≤ next' ∧ ∃ new : List Nat, after.Perm (before ++ new) ∧ new.Nodup ∧
    ∀ i ∈ new, next ≤ i ∧ i < next'

theorem Grows.refl (l : List Nat) (next : Nat) : Grows l l next next :=
  ⟨Nat.le_refl _, [], by simp, nodup_nil, by simp⟩

theorem Grows.perm_right {c : List Nat} (h : Grows a b next next') (hp : c.Perm b) :
    Grows a c next next' := by
  obtain ⟨hle, new, hperm, hnd, hn⟩ := h
  exact ⟨hle, new, hp.trans hperm, hnd, hn⟩

theorem Grows.append (h : Grows a b next next') (l : List Nat) :
    Grows (l ++ a) (l ++ b) next next' := by
  obtain ⟨hle, new, hp, hnd, hn⟩ := h
  refine ⟨hle, new, ?_, hnd, hn⟩
  rw [append_assoc]
  exact hp.append_left l

/-- Taking the next identity first. -/
theorem Grows.fresh (h : Grows (a ++ [next]) b (next + 1) next') : Grows a b next next' := by
  obtain ⟨hle, new, hp, hnd, hn⟩ := h
  refine ⟨by omega, next :: new, ?_, ?_, ?_⟩
  · rwa [append_assoc, singleton_append] at hp
  · refine nodup_cons.mpr ⟨fun hm => ?_, hnd⟩
    have := (hn next hm).1
    omega
  · intro i hi
    rcases mem_cons.mp hi with rfl | hi
    · omega
    · have := hn i hi
      omega

theorem Grows.unique (h : Grows a b next next')
    (hnd : a.Nodup) (hlt : ∀ i ∈ a, i < next) : b.Nodup ∧ ∀ i ∈ b, i < next' := by
  obtain ⟨hle, new, hp, hn, hr⟩ := h
  constructor
  · rw [hp.nodup_iff, nodup_append]
    refine ⟨hnd, hn, fun i hi j hj hij => ?_⟩
    have h1 := hlt i hi
    have h2 := (hr j hj).1
    omega
  · intro i hi
    rcases mem_append.mp (hp.mem_iff.mp hi) with hi | hi
    · exact Nat.lt_of_lt_of_le (hlt i hi) hle
    · exact (hr i hi).2

/-- What a continuation does to identities. -/
def GrowsAt (k : Nat → Node H → Placed H) : Prop :=
  ∀ next c, Grows c.ids (k next c).node.ids next (k next c).next

theorem idsIn_insertSorted (cs : List (Node H)) (c : Node H) :
    (idsIn (insertSorted cs c)).Perm (idsIn cs ++ c.ids) := by
  induction cs with
  | nil => simp [insertSorted]
  | cons d cs ih =>
    unfold insertSorted
    split_ifs
    · rw [idsIn_cons, idsIn_cons, append_assoc]
      exact ih.append_left _
    · rw [idsIn_cons]
      exact perm_append_comm

/-- Putting an updated child back. -/
theorem Grows.under {pre post : List (Node H)} (h : Grows c.ids r.node.ids next next') :
    Grows (Node.mk d (pre ++ c :: post)).ids (r.under (.mk d (pre ++ c :: post)) pre post).node.ids
      next next' := by
  have hperm : ∀ x : Node H, (mk d (pre ++ x :: post)).ids.Perm
      ((d.id :: (idsIn pre ++ idsIn post)) ++ x.ids) := by
    intro x
    rw [ids_mk, idsIn_append, idsIn_cons, cons_append, append_assoc]
    exact (perm_append_comm.append_left _).cons _
  obtain ⟨hle, new, hp, hnd, hn⟩ :=
    (h.append (d.id :: (idsIn pre ++ idsIn post))).perm_right (hperm r.node)
  exact ⟨hle, new, hp.trans ((hperm c).symm.append_right new), hnd, hn⟩

/-- Adding a child that started as a new cell. -/
theorem Grows.added (h : Grows [next] r.node.ids (next + 1) next') :
    Grows (Node.mk d cs).ids (r.added (.mk d cs)).node.ids next next' := by
  have hg := h.append (mk d cs).ids
  refine (hg.perm_right ?_).fresh
  exact (idsIn_insertSorted cs r.node).cons d.id

theorem ids_splitNode (id cp : Nat) (c : Node H) :
    (splitNode id cp c).ids.Perm (c.ids ++ [id]) := by
  obtain ⟨d, cs⟩ := c
  have hc : ([id] ++ idsIn cs).Perm (idsIn cs ++ [id]) := perm_append_comm
  have hi : (splitNode id cp (.mk d cs)).ids = d.id :: ([id] ++ idsIn cs) := by
    simp [splitNode, lowerHalf]
  rw [hi]
  exact hc.cons d.id

theorem growsAt_insertStatic {k : Nat → Node H → Placed H} (hk : GrowsAt k) (fuel : Nat)
    (text : Bytes) : GrowsAt fun next parent => insertStatic fuel next parent text k := by
  induction fuel generalizing text with
  | zero => exact fun next c => Grows.refl _ _
  | succ fuel ih =>
    rintro next ⟨d, cs⟩
    unfold insertStatic
    cases hsf : splitFirst (fun ch => decide (ch.nType = .static ∧ longestPrefix text ch.path ≠ 0))
      cs with
    | none =>
      simp only [children_mk, hsf]
      exact Grows.added (hk (next + 1) _)
    | some r =>
      obtain ⟨pre, ch, post⟩ := r
      obtain ⟨rfl, -⟩ := splitFirst_eq_some hsf
      simp only [children_mk, hsf]
      have hs : ∀ {cp : Nat} {r : Placed H}, Grows (splitNode next cp ch).ids r.node.ids
        (next + 1) r.next →
          Grows ch.ids r.node.ids next r.next := by
        rintro cp r ⟨hle, new, hp, hnd, hn⟩
        exact Grows.fresh ⟨hle, new, hp.trans ((ids_splitNode next cp ch).append_right new), hnd,
          hn⟩
      split_ifs
      · exact (hk next ch).under
      · exact (hs (hk (next + 1) _)).under
      · exact (hs (ih _ (next + 1) _)).under
      · exact (ih _ next ch).under

theorem growsAt_insertSegments (handlers : List H) (fullPath : Bytes) (async : Bool)
    (segs : List Segment) :
    GrowsAt fun next n => insertSegments handlers fullPath async segs next n := by
  induction segs with
  | nil =>
    rintro next ⟨d, cs⟩
    exact Grows.refl _ _
  | cons seg segs ih =>
    rintro next ⟨d, cs⟩
    obtain ⟨kind, text⟩ := seg
    cases kind with
    | static => exact growsAt_insertStatic ih _ text next (.mk d cs)
    | param | catchAll =>
      simp only [insertSegments, insertChild]
      split
      · next hsf =>
        obtain ⟨rfl, -⟩ := splitFirst_eq_some hsf
        exact (ih next _).under
      · exact Grows.added (ih (next + 1) _)

/-! ## Looking a cell up by its identity -/

theorem cell_eq_find (id : Nat) (n : Node H) : n.cell id = n.cells.find? fun d => d.id = id := by
  induction n using induct with
  | h d cs ih =>
    have hin : ∀ ds : List (Node H), (∀ c ∈ ds, c.cell id = c.cells.find? fun d => d.id = id) →
        cellIn id ds = (cellsIn ds).find? fun d => d.id = id := by
      intro ds
      induction ds with
      | nil => exact fun _ => rfl
      | cons c ds ihd =>
        intro h
        rw [forall_mem_cons] at h
        rw [cellIn, cellsIn, find?_append, h.1, ihd h.2]
    rw [cell, cells, find?_cons, hin cs ih]
    by_cases hid : d.id = id <;> simp [hid]

theorem cell_of_mem (hnd : n.ids.Nodup) (hd : d ∈ n.cells) : n.cell d.id = some d := by
  rw [cell_eq_find]
  obtain ⟨e, he⟩ : ∃ e, (n.cells.find? fun e => e.id = d.id) = some e :=
    Option.isSome_iff_exists.mp (find?_isSome.mpr ⟨d, hd, decide_eq_true rfl⟩)
  have hid : e.id = d.id := by simpa using find?_some he
  have hm := mem_of_find?_eq_some he
  rw [he, inj_on_of_nodup_map hnd hm hd hid]

/-! ## Writing to a cell -/

theorem modifyIn_eq_map (id : Nat) (f : NodeData H → NodeData H) (cs : List (Node H)) :
    modifyIn id f cs = cs.map (Node.modify id f) := by
  induction cs with
  | nil => rfl
  | cons c cs ih => rw [modifyIn, ih, map_cons]

theorem cells_modify (id : Nat) (f : NodeData H → NodeData H) (n : Node H) :
    (n.modify id f).cells = n.cells.map fun d => if d.id = id then f d else d := by
  induction n using induct with
  | h d cs ih =>
    have hin : ∀ ds : List (Node H), (∀ c ∈ ds, (c.modify id f).cells =
        c.cells.map fun d => if d.id = id then f d else d) →
        cellsIn (modifyIn id f ds) = (cellsIn ds).map fun d => if d.id = id then f d else d := by
      intro ds
      induction ds with
      | nil => exact fun _ => rfl
      | cons c ds ihd =>
        intro h
        rw [forall_mem_cons] at h
        rw [modifyIn, cellsIn, cellsIn, map_append, h.1, ihd h.2]
    rw [Node.modify, Node.cells, Node.cells, map_cons, hin cs ih]

theorem ids_modify (hf : ∀ d, (f d).id = d.id) : (n.modify id f).ids = n.ids := by
  rw [ids, ids, cells_modify, map_map]
  refine map_congr_left fun d _ => ?_
  simp only [comp_apply]
  split_ifs
  · exact hf d
  · rfl

/-! ## Tables with other values -/

section Map

variable {W : Type w} (φ : V → W)

def Table.map (R : Table V) : Table W := List.map (fun e => (e.1, φ e.2)) R

variable {φ}

theorem after_map (u : List Tok) (R : Table V) : after u (R.map φ) = Table.map φ (after u R) := by
  simp only [after, Table.map, filterMap_map, map_filterMap]
  refine filterMap_congr fun e _ => ?_
  cases hs : strip u e.1 <;> simp [hs]

theorem lastHere_map (R : Table V) : lastHere (R.map φ) = (lastHere R).map φ := by
  simp only [lastHere, Table.map, filterMap_map, ← getLast?_map, map_filterMap]
  congr 1
  refine filterMap_congr fun e _ => ?_
  by_cases he : e.1 = [] <;> simp [he]

theorem valueAt_map : valueAt (R.map φ) p = (valueAt R p).map φ := by
  rw [valueAt, valueAt, after_map, lastHere_map]

variable {R : Table V} {p : List Tok}

theorem mem_map_table {e : List Tok × W} : e ∈ R.map φ ↔ ∃ x, (e.1, x) ∈ R ∧ φ x = e.2 := by
  simp only [Table.map, mem_map, Prod.exists]
  constructor
  · rintro ⟨p, x, hm, rfl⟩
    exact ⟨x, hm, rfl⟩
  · rintro ⟨x, hm, hx⟩
    exact ⟨e.1, x, hm, by rw [hx]⟩

theorem earlier_map {m n : Bytes} : Earlier (R.map φ) m n ↔ Earlier R m n := by
  simp only [Earlier, Table.map, findIdx_map]
  rfl

theorem firstStar_map : firstStar (R.map φ) = firstStar R := by
  simp only [firstStar, Table.map, findSome?_map]
  rfl

theorem forks_map : forks (R.map φ) = forks R := by
  cases R with
  | nil => rfl
  | cons e R => simp [Table.map, forks, comp_def]

theorem bare_map : bare (R.map φ) = bare R := by
  simp [Table.map, bare, comp_def]

variable {q : Bytes}

theorem deadEnd_map : deadEnd (R.map φ) q = deadEnd R q := by
  simp [deadEnd, after_map, forks_map, bare_map]

theorem reachable_map : reachable (R.map φ) p q = reachable R p q := by
  induction p generalizing R q with
  | nil => rfl
  | cons t p ih =>
    cases t with
    | lit b => rw [reachable, reachable, after_map, ih]
    | param n => rw [reachable, reachable, after_map, ih, deadEnd_map]
    | star n => rw [reachable, reachable, deadEnd_map]

theorem beats_map {q : List Tok} : Beats (R.map φ) p q ↔ Beats R p q := by
  constructor
  · refine .imp (r := fun S R => S = R.map φ) ?_ (fun h => h ▸ earlier_map.mp) rfl
    rintro _ R t rfl
    exact after_map _ R
  · refine .imp (r := fun R S => S = R.map φ) ?_ (fun h => h ▸ earlier_map.mpr) rfl
    rintro R _ t rfl
    exact after_map _ R

theorem answers_map : Answers (R.map φ) q p ↔ Answers R q p := by
  constructor
  · rintro ⟨hm, hr, hb⟩
    refine ⟨hm, by rwa [reachable_map] at hr, fun e he hm' hr' hbe => ?_⟩
    exact hb (e.1, φ e.2) (mem_map_table.mpr ⟨e.2, he, rfl⟩) hm' (by rwa [reachable_map])
      (beats_map.mpr hbe)
  · rintro ⟨hm, hr, hb⟩
    refine ⟨hm, by rwa [reachable_map], fun e he hm' hr' hbe => ?_⟩
    obtain ⟨x, hx, -⟩ := mem_map_table.mp he
    exact hb (e.1, x) hx hm' (by rwa [reachable_map] at hr') (beats_map.mp hbe)

theorem Holds.map {x : V} (h : Holds R p x) : Holds (R.map φ) p (φ x) :=
  ⟨mem_map_table.mpr ⟨x, h.1, rfl⟩, by rw [valueAt_map, h.2]; rfl⟩

end Map

/-! ## The cell of a pattern -/

theorem Alike.refl (p : List Tok) : Alike p p := by
  induction p with
  | nil => rfl
  | cons t p ih => exact ih.cons

theorem alike_of_strip {w u : List Tok} (h : strip w p = some u) : Alike (w ++ u) p := by
  rw [Alike, strip_append, h]
  exact Alike.refl u

/-- The value a table holds for a pattern stands in a cell. -/
theorem Rep.exists_cell (h : Rep val n R) {x : V} (hx : Holds R p x) :
    ∃ d ∈ n.cells, d.entry val = some x := by
  induction h generalizing p with
  | @mk d cs R here _ cover _ _ ih =>
    obtain ⟨hm, hv⟩ := hx
    rcases Decidable.em (p = []) with rfl | hp
    · refine ⟨d, mem_cons_self, ?_⟩
      rw [here, ← hv, valueAt, after_nil]
    · obtain ⟨c, hc, hs⟩ := cover _ hm hp
      obtain ⟨u, hu⟩ := Option.isSome_iff_exists.mp hs
      have hb : Holds (after c.label R) u x := by
        refine ⟨mem_after.mpr ⟨p, hm, hu⟩, ?_⟩
        rw [valueAt, after_after, (alike_of_strip hu).after_eq, ← valueAt, hv]
      obtain ⟨e, he, hex⟩ := ih c hc hb
      exact ⟨e, mem_cons_of_mem _ (mem_cellsIn.mpr ⟨c, hc, he⟩), hex⟩

/-- A write that keeps the edge of a cell keeps the edges of the trie. -/
theorem sameEdge_modify (hf : ∀ d cs, SameEdge (Node.mk d cs) (Node.mk (f d) cs)) (n : Node H) :
    SameEdge n (n.modify id f) := by
  obtain ⟨d, cs⟩ := n
  have h := hf d cs
  rw [Node.modify]
  split_ifs
  · exact ⟨h.nType, h.path, h.key⟩
  · exact ⟨rfl, rfl, rfl⟩

theorem Before.map {φ : V → W} {c' e' : Node H} (h : Before R c c')
    (hc : SameEdge c e) (hc' : SameEdge c' e') : Before (R.map φ) e e' := by
  unfold Before
  rw [hc.nType, hc'.nType, hc.path, hc'.path, hc.key, hc'.key, earlier_map]
  exact h

theorem ChildOk.map {φ : V → W} {k : NodeType} (h : ChildOk k R c) (hc : SameEdge c e) :
    ChildOk k (R.map φ) e where
  live := by
    rw [hc.label, after_map]
    simpa [Table.map] using h.live
  text := by
    rw [hc.nType, hc.path]
    exact h.text
  slash := by
    rw [hc.nType, hc.path]
    exact h.slash
  fork := by
    rw [hc.nType, hc.label, after_map, forks_map]
    exact h.fork
  key := by
    rw [hc.nType, hc.key, firstStar_map]
    exact h.key

/-- A write to one cell changes the values of the table, if it changes the value
of every cell in the same way. -/
theorem Rep.modify (h : Rep val n R) {φ : V → V}
    (hf : ∀ d cs, SameEdge (Node.mk d cs) (Node.mk (f d) cs))
    (hφ : ∀ d ∈ n.cells, (if d.id = id then f d else d).entry val = (d.entry val).map φ) :
    Rep val (n.modify id f) (R.map φ) := by
  induction h with
  | @mk d cs R here _ cover order ok ih =>
    have hedge : ∀ c : Node H, SameEdge c (c.modify id f) := sameEdge_modify hf
    have hk : (if d.id = id then f d else d).nType = d.nType :=
      (hedge (.mk d cs)).nType
    rw [Node.modify, modifyIn_eq_map]
    constructor
    · rw [hφ d mem_cons_self, here, lastHere_map]
    · rw [forall_mem_map]
      intro c hc
      rw [(hedge c).label, after_map]
      refine ih c hc fun e he => hφ e ?_
      exact mem_cons_of_mem _ (mem_cellsIn.mpr ⟨c, hc, he⟩)
    · rintro e he hne
      obtain ⟨x, hx, -⟩ := mem_map_table.mp he
      obtain ⟨c, hc, hs⟩ := cover _ hx hne
      refine ⟨c.modify id f, mem_map_of_mem hc, ?_⟩
      rwa [(hedge c).label]
    · rw [pairwise_map]
      exact order.imp fun hb => hb.map (hedge _) (hedge _)
    · rw [forall_mem_map, hk]
      exact fun c hc => (ok c hc).map (hedge c)

end Celeris.Routing
