import Celeris.Routing.Pattern

/-!
# What `splitPath` produces

The segments of a pattern concatenate to the pattern, so two patterns with the
same tokens are the same pattern, and they are chained the way the insertion
needs: a static segment is followed by a parameter, a catch-all or the end,
except that the `/` behind a parameter is a segment of its own.
-/

namespace Celeris.Routing

open List

/-- How the segments of a pattern follow each other; `k` is the kind of the node
they are inserted under. -/
def Chained : NodeType → List Segment → Prop
  | _, [] => True
  | k, s :: segs =>
    match s.kind with
    | .static =>
      s.text ≠ [] ∧ (k = .param → s.text = [slash]) ∧
        (k ≠ .param → ∀ s' ∈ segs.head?, s'.kind ≠ .static) ∧ Chained .static segs
    | .param => k ≠ .param ∧ s.text.head? = some colon ∧ Chained .param segs
    | .catchAll => k ≠ .param ∧ s.text.head? = some star ∧ segs = []

variable {path pattern : Bytes}

/-- What stands behind a static piece is a special byte. -/
theorem head_drop_findSpecial : path.drop (findSpecial path) = [] ∨
      ∃ b bs, path.drop (findSpecial path) = b :: bs ∧ (b = colon ∨ b = star) := by
  induction path with
  | nil => exact .inl rfl
  | cons b bs ih =>
    by_cases h : b = colon ∨ b = star
    · exact .inr ⟨b, bs, by simp [findSpecial, h], h⟩
    · simpa [findSpecial, h] using ih

theorem head_drop_findSegmentEnd : path.drop (findSegmentEnd path) = [] ∨
      ∃ bs, path.drop (findSegmentEnd path) = slash :: bs := by
  induction path with
  | nil => exact .inl rfl
  | cons b bs ih =>
    by_cases h : b = slash
    · exact .inr ⟨bs, by simp [findSegmentEnd, h]⟩
    · simpa [findSegmentEnd, h] using ih

/-- A piece that starts with a special byte does not start with a static
segment. -/
theorem splitLoop_head_special {b : UInt8} (hb : b = colon ∨ b = star) {fuel : Nat} {bs : Bytes} :
    ∀ s ∈ (splitLoop fuel (b :: bs)).head?, s.kind ≠ .static := by
  cases fuel with
  | zero => simp [splitLoop]
  | succ fuel =>
    by_cases hc : b = colon
    · simp [splitLoop, hc]
    · have hs : b = star := hb.resolve_left hc
      subst hs
      simp [splitLoop, hc]

/-- The loop of `splitPath` chains its segments and loses no byte. -/
theorem splitLoop_spec {fuel : Nat} : ∀ path : Bytes, path.length ≤ fuel →
    (splitLoop fuel path).flatMap Segment.text = path ∧ Chained .static (splitLoop fuel path) := by
  induction fuel with
  | zero =>
    intro path h
    rw [eq_nil_of_length_eq_zero (Nat.le_zero.mp h)]
    exact ⟨rfl, trivial⟩
  | succ fuel ih =>
    intro path h
    cases path with
    | nil => exact ⟨rfl, trivial⟩
    | cons b bs =>
      have hlen : bs.length ≤ fuel := Nat.le_of_succ_le_succ h
      by_cases hc : b = colon
      · have hns : b ≠ slash := by rw [hc]; decide
        have hstop : findSegmentEnd (b :: bs) = findSegmentEnd bs + 1 := by
          simp [findSegmentEnd, hns]
        have hsp := take_append_drop (findSegmentEnd (b :: bs)) (b :: bs)
        rcases head_drop_findSegmentEnd with hd | ⟨rest, hd⟩ <;> rw [hd] at hsp
        · rw [append_nil] at hsp
          simp only [splitLoop, if_pos hc, hd, hsp]
          refine ⟨by simp, ?_⟩
          exact ⟨by simp, by simp [hc], trivial⟩
        · have hrest : rest.length ≤ fuel := by
            have := congrArg length hsp
            simp only [length_append, length_cons] at this
            omega
          obtain ⟨ht, hch⟩ := ih rest hrest
          simp only [splitLoop, if_pos hc, hd, if_true]
          refine ⟨?_, ?_⟩
          · simpa [ht] using hsp
          · refine ⟨by simp, by rw [hstop]; simp [hc], ?_⟩
            exact ⟨by simp, fun _ => rfl, fun hk => absurd rfl hk, hch⟩
      · by_cases hs : b = star
        · simp only [splitLoop, if_neg hc, if_pos hs]
          exact ⟨by simp, by simp, by simp [hs], rfl⟩
        · have hpos : findSpecial (b :: bs) = findSpecial bs + 1 := by
            simp [findSpecial, hc, hs]
          have hdrop : ((b :: bs).drop (findSpecial (b :: bs))).length ≤ fuel := by
            rw [hpos, drop_succ_cons, length_drop]
            omega
          obtain ⟨ht, hch⟩ := ih _ hdrop
          simp only [splitLoop, if_neg hc, if_neg hs]
          refine ⟨?_, ?_⟩
          · simp only [flatMap_cons, ht]
            exact take_append_drop _ _
          · refine ⟨by rw [hpos]; simp, fun hk => absurd hk (by decide), fun _ => ?_, hch⟩
            rcases head_drop_findSpecial with hd | ⟨c, cs, hd, hcs⟩
            · rw [hd]
              cases fuel <;> simp [splitLoop]
            · rw [hd]
              exact splitLoop_head_special hcs

theorem splitPath_chained : Chained .static (splitPath pattern) := by
  unfold splitPath
  split
  · trivial
  · exact (splitLoop_spec _ (by simp)).2

theorem splitPath_text (h : pattern.head? = some slash) :
    slash :: (splitPath pattern).flatMap Segment.text = pattern := by
  obtain ⟨bs, rfl⟩ := head?_eq_some_iff.mp h
  unfold splitPath
  split
  · rename_i he
    rw [he]
    rfl
  · rw [(splitLoop_spec _ (by simp)).1]
    rfl

/-- The tokens of chained segments are well formed, and only `/` follows a
parameter. -/
theorem Chained.wellFormed : ∀ {segs : List Segment} {k : NodeType}, Chained k segs →
    WellFormed (segs.flatMap Segment.toks) ∧ (k = .param → segs.flatMap Segment.toks = [] ∨
        (segs.flatMap Segment.toks).head? = some (.lit slash)) := by
  intro segs
  induction segs with
  | nil => intro k _; exact ⟨trivial, fun _ => .inl rfl⟩
  | cons s segs ih =>
    intro k h
    obtain ⟨kind, text⟩ := s
    cases kind with
    | static =>
      obtain ⟨hne, hk, -, hch⟩ := h
      have hw := (ih hch).1
      refine ⟨?_, fun hp => .inr ?_⟩
      · have key : ∀ bs : Bytes, WellFormed (bs.map .lit ++ segs.flatMap Segment.toks) := by
          intro bs
          induction bs with
          | nil => exact hw
          | cons b bs ihb => exact ihb
        exact key text
      · rw [show text = [slash] from hk hp]
        rfl
    | param =>
      obtain ⟨hk, -, hch⟩ := h
      obtain ⟨hw, hs⟩ := ih hch
      exact ⟨⟨hs rfl, hw⟩, fun hp => absurd hp hk⟩
    | catchAll =>
      obtain ⟨hk, -, rfl⟩ := h
      exact ⟨rfl, fun hp => absurd hp hk⟩

theorem flatMap_text_lits {text : Bytes} : (text.map Tok.lit).flatMap Tok.text = text := by
  induction text with
  | nil => rfl
  | cons b bs ih => simp [Tok.text, ih]

theorem Chained.text : ∀ {segs : List Segment} {k : NodeType}, Chained k segs →
    (segs.flatMap Segment.toks).flatMap Tok.text = segs.flatMap Segment.text := by
  intro segs
  induction segs with
  | nil => intro k _; rfl
  | cons s segs ih =>
    intro k h
    obtain ⟨kind, text⟩ := s
    cases kind with
    | static =>
      simp [ih h.2.2.2, Segment.toks, flatMap_text_lits]
    | param =>
      cases text with
      | nil => simp [Chained] at h
      | cons b bs =>
        have hb : b = colon := by simpa using h.2.1
        simp [Segment.toks, Tok.text, hb, ih h.2.2]
    | catchAll =>
      cases text with
      | nil => simp [Chained] at h
      | cons b bs =>
        obtain ⟨-, hb, rfl⟩ := h
        have hb : b = star := by simpa using hb
        simp [Segment.toks, Tok.text, hb]

theorem toks_wellFormed : WellFormed (toks pattern) :=
  splitPath_chained.wellFormed.1

/-- Writing the tokens of a pattern down gives the pattern back. -/
theorem toks_text (h : pattern.head? = some slash) :
    slash :: (toks pattern).flatMap Tok.text = pattern := by
  rw [toks, splitPath_chained.text, splitPath_text h]

theorem findSpecial_of_static (h : ∀ b ∈ path, b ≠ colon ∧ b ≠ star) :
    findSpecial path = path.length := by
  induction path with
  | nil => rfl
  | cons b bs ih =>
    rw [forall_mem_cons] at h
    simp [findSpecial, h.1, ih h.2]

/-- A pattern with no `:` and no `*` is its own text. -/
theorem toks_of_static (h : ∀ b ∈ pattern, b ≠ colon ∧ b ≠ star) :
    toks pattern = (pattern.drop 1).map .lit := by
  unfold toks splitPath
  split
  · rename_i hp
    rw [hp]
    rfl
  · have hd : ∀ b ∈ pattern.drop 1, b ≠ colon ∧ b ≠ star := fun b hb => h b (mem_of_mem_drop hb)
    cases hp : pattern.drop 1 with
    | nil => cases pattern.length <;> simp [splitLoop]
    | cons b bs =>
      obtain ⟨n, hn⟩ : ∃ n, pattern.length = n + 1 := by
        cases pattern with
        | nil => cases hp
        | cons c cs => exact ⟨cs.length, rfl⟩
      rw [hp] at hd
      have hb := (forall_mem_cons.mp hd).1
      have hnil : splitLoop n [] = [] := by cases n <;> rfl
      rw [hn]
      simp only [splitLoop, hb.1, hb.2, if_false, findSpecial_of_static hd, take_length,
        drop_length, hnil]
      simp [Segment.toks]

end Celeris.Routing
