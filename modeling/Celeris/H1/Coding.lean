import Celeris.H1.Grammar

/-!
# Transfer codings on several lines

A `Transfer-Encoding` that comes on several field lines means the same as one
line with the values joined by commas. The parser judges each line for itself
and keeps one flag. It so refuses a `chunked` that another coding of the same
line follows, but not one that a coding of a later line follows.

`verdict_join_iff` says when the two readings agree.
-/

namespace Celeris.H1

open List

/-! ## Elements of a list -/

variable {b : UInt8} {vs : List Bytes} {fields : List (Bytes × Bytes)}

theorem trimSpace_cons (h : isBlank b = true) {t : Bytes} : trimSpace (b :: t) = trimSpace t := by
  rw [trimSpace, dropWhile_cons_of_pos h]
  rfl

theorem trimSpace_concat (h : isBlank b = true) (t : Bytes) :
    trimSpace (t ++ [b]) = trimSpace t := by
  unfold trimSpace
  rw [dropWhile_append]
  split_ifs with ha
  · rw [List.isEmpty_iff] at ha
    rw [ha, dropWhile_cons_of_pos h]
    rfl
  · rw [rdropWhile_concat_pos _ _ _ h]

theorem comma_not_blank (h : isBlank b = true) : b ≠ comma := by
  rintro rfl
  exact absurd h (by decide)

theorem exists_cut (v : Bytes) : comma ∉ v ∨ ∃ a b, v = a ++ comma :: b ∧ comma ∉ a := by
  by_cases h : comma ∈ v
  · have hc : cut comma v = some (v.takeWhile (· ≠ comma), (v.dropWhile (· ≠ comma)).drop 1) := by
      rw [cut, if_pos (by simpa using h)]
    exact .inr ⟨_, _, cut_eq_some hc⟩
  · exact .inl h

variable {v : Bytes} {cl : Option Nat}

theorem listElements_of_not_mem (h : comma ∉ v) : listElements v = [trimSpace v] := by
  rw [listElements, splitOn_eq_singleton h]
  rfl

theorem listElements_append (a b : Bytes) :
    listElements (a ++ comma :: b) = listElements a ++ listElements b := by
  rw [listElements, splitOn_append_cons_self, map_append]
  rfl

theorem listElements_cons_blank (h : isBlank b = true) :
    listElements (b :: v) = listElements v := by
  have hb := comma_not_blank h
  rcases exists_cut v with hv | ⟨c, d, rfl, hc⟩
  · rw [listElements_of_not_mem hv, listElements_of_not_mem (by simp [hv, Ne.symm hb]),
      trimSpace_cons h]
  · rw [← cons_append, listElements_append, listElements_append,
      listElements_of_not_mem hc, listElements_of_not_mem (by simp [hc, Ne.symm hb]),
      trimSpace_cons h]

theorem listElements_concat_blank (h : isBlank b = true) (v : Bytes) :
    listElements (v ++ [b]) = listElements v := by
  have hb := comma_not_blank h
  induction hn : v.length using Nat.strong_induction_on generalizing v with
  | _ n ih =>
    subst hn
    rcases exists_cut v with hv | ⟨c, d, rfl, hc⟩
    · rw [listElements_of_not_mem hv, listElements_of_not_mem (by simp [hv, Ne.symm hb]),
        trimSpace_concat h]
    · rw [append_assoc, cons_append, listElements_append, listElements_append,
        ih d.length (by rw [length_append, length_cons]; omega) d rfl]

theorem listElements_trimSpace : listElements (trimSpace v) = listElements v := by
  have hl : ∀ w : Bytes, listElements (w.dropWhile isBlank) = listElements w := by
    intro w
    induction w with
    | nil => rfl
    | cons b w ih =>
      by_cases hb : isBlank b = true
      · rw [dropWhile_cons_of_pos hb, ih, listElements_cons_blank hb]
      · rw [dropWhile_cons_of_neg hb]
  have hr : ∀ w : Bytes, listElements (w.rdropWhile isBlank) = listElements w := by
    intro w
    induction w using reverseRecOn with
    | nil => rfl
    | append_singleton w b ih =>
      by_cases hb : isBlank b = true
      · rw [rdropWhile_concat_pos _ _ _ hb, ih, listElements_concat_blank hb]
      · rw [rdropWhile_concat_neg _ _ _ hb]
  rw [trimSpace, hr, hl]

/-! ## Codings -/

def isChunked (tok : Bytes) : Bool := asciiEqualFold tok (ascii "chunked")

/-- The codings of a value: its elements that are not empty. -/
def codings (value : Bytes) : List Bytes := (listElements value).filter fun tok => !tok.isEmpty

/-- Whether a value is malformed: `chunked` stands before another coding. -/
def chunkedNotLast (cs : List Bytes) : Bool := cs.dropLast.any isChunked

/-- Whether the last coding is `chunked`. -/
def chunkedLast (cs : List Bytes) : Bool := cs.getLast?.any isChunked

theorem any_isChunked (cs : List Bytes) :
    cs.any isChunked = (chunkedNotLast cs || chunkedLast cs) := by
  induction cs using reverseRecOn with
  | nil => rfl
  | append_singleton cs c _ => simp [chunkedNotLast, chunkedLast]

theorem foldl_teStep {toks : List Bytes} : toks.foldl teStep (none, false) =
      ((toks.filter fun tok => !tok.isEmpty).getLast?,
        chunkedNotLast (toks.filter fun tok => !tok.isEmpty)) := by
  induction toks using reverseRecOn with
  | nil => rfl
  | append_singleton toks tok ih =>
    rw [foldl_append, ih, foldl_cons, foldl_nil, teStep, filter_append]
    by_cases ht : tok.isEmpty = true
    · simp [ht]
    · rw [if_neg ht]
      have hcs := any_isChunked (toks.filter fun tok => !tok.isEmpty)
      simp only [filter_cons, ht, Bool.not_false, if_true, filter_nil,
        getLast?_append, getLast?_singleton, Option.some_or, Prod.mk.injEq, true_and,
        chunkedNotLast, dropLast_concat]
      exact hcs.symm

/-- What the source computes, in terms of the codings. -/
theorem transferEncodingIsChunked_eq {value : Bytes} : transferEncodingIsChunked value =
      if chunkedNotLast (codings value) then .error .invalidTransferEncoding
      else .ok (chunkedLast (codings value)) := by
  have hc : teListContainsChunked value = (codings value).any isChunked := by
    rw [teListContainsChunked, codings, any_filter]
    congr 1
    funext tok
    cases tok with
    | nil => rfl
    | cons b tok => rfl
  unfold transferEncodingIsChunked
  rw [foldl_teStep, ← codings, hc, any_isChunked]
  cases hlast : (codings value).getLast? with
  | none =>
    rw [getLast?_eq_none_iff] at hlast
    rw [hlast]
    rfl
  | some last =>
    have hl : chunkedLast (codings value) = asciiEqualFold last (ascii "chunked") := by
      rw [chunkedLast, hlast]
      rfl
    simp only [hl]
    cases chunkedNotLast (codings value) <;> cases asciiEqualFold last (ascii "chunked") <;> rfl

theorem codings_trimSpace : codings (trimSpace v) = codings v := by
  rw [codings, listElements_trimSpace, codings]

def joinValues : List Bytes → Bytes
  | [] => []
  | [v] => v
  | v :: w :: vs => v ++ comma :: space :: joinValues (w :: vs)

theorem codings_joinValues : codings (joinValues vs) = vs.flatMap codings := by
  induction vs with
  | nil => rfl
  | cons v vs ih =>
    cases vs with
    | nil => simp [joinValues]
    | cons w vs =>
      rw [joinValues, codings, listElements_append, listElements_cons_blank (by decide),
        filter_append, ← codings, ← codings, ih]
      rfl

/-! ## One line or several -/

/-- No line that ends in `chunked` is followed by a line with a coding. -/
def Separate (vs : List Bytes) : Prop :=
  vs.Pairwise fun v w => chunkedLast (codings v) = true → codings w = []

instance (vs : List Bytes) : Decidable (Separate vs) :=
  inferInstanceAs (Decidable (vs.Pairwise _))

theorem chunkedNotLast_append {cs ds : List Bytes} : chunkedNotLast (cs ++ ds) =
      if ds = [] then chunkedNotLast cs else (cs.any isChunked || chunkedNotLast ds) := by
  split_ifs with h
  · rw [h, append_nil]
  · rw [chunkedNotLast, dropLast_append_of_ne_nil h, any_append]
    rfl

/-- A line that is malformed makes the joined list malformed. -/
theorem chunkedNotLast_flatMap_of_mem (hv : v ∈ vs)
    (h : chunkedNotLast (codings v) = true) : chunkedNotLast (vs.flatMap codings) = true := by
  induction vs with
  | nil => cases hv
  | cons w vs ih =>
    rw [flatMap_cons, chunkedNotLast_append]
    rcases mem_cons.mp hv with rfl | hv
    · split_ifs
      · exact h
      · rw [any_isChunked, h]
        rfl
    · have hr := ih hv
      split_ifs with hn
      · rw [hn] at hr
        cases hr
      · rw [hr, Bool.or_true]

/-- Where no line is malformed by itself, the joined list is malformed just when
the lines are not separate. -/
theorem chunkedNotLast_flatMap_iff (h : ∀ v ∈ vs, chunkedNotLast (codings v) = false) :
    chunkedNotLast (vs.flatMap codings) = false ↔ Separate vs := by
  induction vs with
  | nil => exact iff_of_true rfl .nil
  | cons v vs ih =>
    rw [forall_mem_cons] at h
    have hn : vs.flatMap codings = [] ↔ ∀ w ∈ vs, codings w = [] := flatMap_eq_nil_iff
    rw [Separate, pairwise_cons, ← Separate, ← ih h.2, flatMap_cons,
      chunkedNotLast_append, any_isChunked, h.1, Bool.false_or]
    split_ifs with hr
    · rw [hr]
      exact iff_of_true rfl ⟨fun w hw _ => hn.mp hr w hw, rfl⟩
    · rw [Bool.or_eq_false_iff]
      refine and_congr_left fun _ => ⟨fun hl w _ hl' => ?_, fun ha => ?_⟩
      · rw [hl] at hl'
        cases hl'
      · rw [Bool.eq_false_iff]
        exact fun hl => hr (hn.mpr fun w hw => ha w hw hl)

/-! ## Framing as a whole -/

def isTransferEncoding (f : Bytes × Bytes) : Bool := lower f.1 = ascii "transfer-encoding"

def isContentLength (f : Bytes × Bytes) : Bool := lower f.1 = ascii "content-length"

/-- The values of the `Transfer-Encoding` fields. -/
def teValues (fields : List (Bytes × Bytes)) : List Bytes :=
  (fields.filter isTransferEncoding).map Prod.snd

def otherFields (fields : List (Bytes × Bytes)) : List (Bytes × Bytes) :=
  fields.filter fun f => !isTransferEncoding f

theorem otherFields_cons (f : Bytes × Bytes) (fields : List (Bytes × Bytes)) :
    otherFields (f :: fields) =
    if isTransferEncoding f then otherFields fields else f :: otherFields fields := by
  cases h : isTransferEncoding f <;> simp [otherFields, h]

variable {f : Bytes × Bytes} {fr : Framing} {others : List (Bytes × Bytes)}

theorem mem_otherFields_of_length (hf : f ∈ fields) (h : isContentLength f = true) :
    f ∈ otherFields fields := by
  refine mem_filter.mpr ⟨hf, ?_⟩
  have hl : lower f.1 = ascii "content-length" := of_decide_eq_true h
  rw [isTransferEncoding, hl]
  decide

/-- The content length that fields agree on. -/
def lengthOf (cl : Option Nat) (fields : List (Bytes × Bytes)) : Option (Option Nat) :=
  fields.foldlM (fun cl f =>
    if isContentLength f then
      match parseInt64Bytes (trimSpace f.2) with
      | none => none
      | some n => if cl.any fun m => m ≠ n then none else some (some n)
    else some cl) cl

/-- The host that fields name last. -/
def hostOf (host : Bytes) (fields : List (Bytes × Bytes)) : Bytes :=
  fields.foldl (fun host f => if lower f.1 = ascii "host" then trimSpace f.2 else host) host

/-- The framing that fields lead to, in whatever order those of one kind come
among the others. -/
def frameAll (fr : Framing) (others : List (Bytes × Bytes)) (vs : List Bytes) : Option Framing :=
  match lengthOf fr.contentLength others with
  | none => none
  | some cl =>
    let chunked := fr.chunked || vs.any fun v => chunkedLast (codings v)
    if vs.any (fun v => chunkedNotLast (codings v)) || (cl.isSome && chunked) then none
    else some ⟨cl, chunked, hostOf fr.host others⟩

theorem lengthOf_cons : lengthOf cl (f :: fields) =
      if isContentLength f then
        match parseInt64Bytes (trimSpace f.2) with
        | none => none
        | some n => if cl.any fun m => m ≠ n then none else lengthOf (some n) fields
      else lengthOf cl fields := by
  rw [lengthOf, foldlM_cons]
  split_ifs with h
  · cases parseInt64Bytes (trimSpace f.2) with
    | none => rfl
    | some n =>
      simp only
      split_ifs <;> rfl
  · rfl

/-- A length that was given before or is given by a field. -/
theorem lengthOf_isSome {cl' : Option Nat} (h : lengthOf cl fields = some cl')
    (hcl : cl.isSome = true ∨ ∃ f ∈ fields, isContentLength f = true) : cl'.isSome = true := by
  induction fields generalizing cl with
  | nil =>
    cases h
    exact hcl.resolve_right nofun
  | cons g fields ih =>
    rw [lengthOf_cons] at h
    split_ifs at h with hg
    · split at h
      · cases h
      · split_ifs at h
        exact ih h (.inl rfl)
    · refine ih h (hcl.imp_right ?_)
      rintro ⟨f, hf, hl⟩
      rcases mem_cons.mp hf with rfl | hf
      · exact absurd hl hg
      · exact ⟨f, hf, hl⟩

theorem frameAll_none (h : ∀ cl, lengthOf fr.contentLength others = some cl →
      vs.any (fun v => chunkedNotLast (codings v)) = true ∨
        (cl.isSome = true ∧ (fr.chunked || vs.any fun v => chunkedLast (codings v)) = true)) :
    frameAll fr others vs = none := by
  unfold frameAll
  cases hl : lengthOf fr.contentLength others with
  | none => rfl
  | some cl =>
    simp only
    rcases h cl hl with hb | ⟨hcl, hch⟩
    · rw [hb]
      rfl
    · rw [hcl, hch, Bool.true_and, Bool.or_true]
      rfl

/-- The framing of a head does not depend on the order of its fields across
kinds. -/
theorem foldlM_frameField (fields : List (Bytes × Bytes))
    (hfr : ¬ (fr.contentLength.isSome = true ∧ fr.chunked = true)) :
    (fields.foldlM frameField fr).toOption =
      frameAll fr (otherFields fields) (teValues fields) := by
  induction fields generalizing fr with
  | nil =>
    obtain ⟨cl, chunked, host⟩ := fr
    cases chunked <;> cases cl <;> simp_all [frameAll, lengthOf, otherFields, teValues, hostOf,
      Except.toOption, pure, Except.pure]
  | cons f fields ih =>
    rw [foldlM_cons]
    by_cases hte : isTransferEncoding f = true
    · have hlow : lower f.1 = ascii "transfer-encoding" := by
        simpa [isTransferEncoding] using hte
      have hvs : teValues (f :: fields) = f.2 :: teValues fields := by simp [teValues, hte]
      rw [frameField, hlow, if_neg (by decide), if_neg (by decide), if_pos rfl,
        transferEncodingIsChunked_eq, codings_trimSpace, otherFields_cons, if_pos hte, hvs]
      cases hbad : chunkedNotLast (codings f.2) with
      | true =>
        refine Eq.symm (frameAll_none fun cl _ => .inl ?_)
        rw [any_cons, hbad]
        rfl
      | false =>
        cases hlast : chunkedLast (codings f.2) with
        | false =>
          refine (ih hfr).trans ?_
          simp [frameAll, hbad, hlast]
        | true =>
          simp only [Bool.false_eq_true, if_false]
          split_ifs with hcl
          · refine Eq.symm (frameAll_none fun cl hl => .inr ⟨lengthOf_isSome hl (.inl hcl), ?_⟩)
            rw [any_cons, hlast, Bool.true_or, Bool.or_true]
          · have hnone : fr.contentLength = none := by simpa using hcl
            refine (ih (by simp)).trans ?_
            simp [frameAll, hnone, hbad, hlast]
    · have hne : lower f.1 ≠ ascii "transfer-encoding" := by
        simpa [isTransferEncoding] using hte
      have hvs : teValues (f :: fields) = teValues fields := by simp [teValues, hte]
      rw [otherFields_cons, if_neg hte, hvs]
      by_cases hhost : lower f.1 = ascii "host"
      · have hncl : isContentLength f = false := by
          simp only [isContentLength, hhost]
          decide
        rw [frameField, if_pos hhost]
        refine (ih (by exact hfr)).trans ?_
        simp [frameAll, lengthOf_cons, hncl, hostOf, if_pos hhost]
      by_cases hclen : lower f.1 = ascii "content-length"
      · have hcl : isContentLength f = true := by simpa [isContentLength] using hclen
        rw [frameField, if_neg hhost, if_pos hclen]
        split_ifs with hch
        · refine Eq.symm (frameAll_none fun cl hl => .inr ⟨?_, by rw [hch, Bool.true_or]⟩)
          exact lengthOf_isSome hl (.inr ⟨f, mem_cons_self, hcl⟩)
        · cases hp : parseInt64Bytes (trimSpace f.2) with
          | none =>
            simp only [frameAll, lengthOf_cons, hcl, if_true, hp]
            rfl
          | some n =>
            simp only
            split_ifs with hdup
            · simp only [frameAll, lengthOf_cons, hcl, if_true, hp, hdup]
              rfl
            · refine (ih (by simp [hch])).trans ?_
              simp only [frameAll, lengthOf_cons, hcl, if_true, hp, hdup, hostOf, foldl_cons,
                if_neg hhost]
              rfl
      · have hncl : isContentLength f = false := by simpa [isContentLength] using hclen
        rw [frameField, if_neg hhost, if_neg hclen, if_neg hne]
        refine (ih hfr).trans ?_
        simp [frameAll, lengthOf_cons, hncl, hostOf, if_neg hhost]

/-! ## Joining the lines -/

/-- The verdict on what the fields lead to. -/
def verdictOf : Option Framing → Verdict
  | none => .refused
  | some fr => if fr.host.isEmpty then .refused else if fr.chunked then .chunked else .notChunked

theorem Framing.verdict_eq {e : Except ParseError Framing} :
    Framing.verdict e = verdictOf e.toOption := by
  cases e <;> rfl

theorem lengthOf_of_forall (h : ∀ f ∈ fields, isContentLength f = false) :
    lengthOf cl fields = some cl := by
  induction fields with
  | nil => rfl
  | cons f fields ih =>
    rw [forall_mem_cons] at h
    rw [lengthOf_cons, h.1]
    exact ih h.2

theorem hostOf_otherFields (host : Bytes) (fields : List (Bytes × Bytes)) :
    hostOf host (otherFields fields) = hostOf host fields := by
  induction fields generalizing host with
  | nil => rfl
  | cons f fields ih =>
    by_cases hte : isTransferEncoding f = true
    · have hne : lower f.1 ≠ ascii "host" := by
        have hl : lower f.1 = ascii "transfer-encoding" := by
          simpa [isTransferEncoding] using hte
        rw [hl]
        decide
      rw [otherFields_cons, if_pos hte, ih, hostOf, hostOf, foldl_cons, if_neg hne]
    · rw [otherFields_cons, if_neg hte, hostOf, hostOf, foldl_cons, foldl_cons]
      exact ih _

theorem isValidHeaderValue_joinValues
    (h : ∀ v ∈ vs, isValidHeaderValue v = true) : isValidHeaderValue (joinValues vs) = true := by
  induction vs with
  | nil => rfl
  | cons v vs ih =>
    rw [forall_mem_cons] at h
    cases vs with
    | nil => exact h.1
    | cons w vs =>
      have hr := ih h.2
      rw [isValidHeaderValue] at hr ⊢
      rw [joinValues, all_append, all_cons, all_cons, hr]
      have hv := h.1
      rw [isValidHeaderValue] at hv
      rw [hv]
      decide

/-- When the verdict on the joined codings is the verdict on the lines. -/
theorem verdictOf_join_iff :
    verdictOf (frameAll ⟨none, false, []⟩ others vs) =
      verdictOf (frameAll ⟨none, false, []⟩ others [joinValues vs]) ↔
      Separate vs ∨ (∃ v ∈ vs, chunkedNotLast (codings v) = true) ∨
        (∃ f ∈ others, isContentLength f = true) ∨ hostOf [] others = [] := by
  have hor : ((vs.any fun v => chunkedNotLast (codings v)) || vs.any fun v => chunkedLast
      (codings v)) = (chunkedNotLast (vs.flatMap codings) || chunkedLast (vs.flatMap codings)) := by
    rw [← any_isChunked, any_flatMap, Bool.eq_iff_iff]
    simp only [Bool.or_eq_true, any_eq_true, any_isChunked, and_or_left, exists_or]
  by_cases hex : ∃ f ∈ others, isContentLength f = true
  · -- With a content length, any `chunked` at all is refused either way.
    refine iff_of_true ?_ (.inr (.inr (.inl hex)))
    unfold frameAll
    cases hl : lengthOf none others with
    | none => rfl
    | some cl =>
      have hsome := lengthOf_isSome hl (.inr hex)
      simp only [hsome, Bool.true_and, Bool.false_or, any_cons, any_nil, Bool.or_false,
        codings_joinValues]
      rw [← hor]
      split_ifs with h
      · rfl
      · rw [Bool.or_eq_true, not_or, Bool.not_eq_true, Bool.not_eq_true] at h
        have hJ := hor
        rw [h.1, h.2, Bool.or_false, eq_comm, Bool.or_eq_false_iff] at hJ
        rw [h.2, hJ.2]
  · have hno : ∀ f ∈ others, isContentLength f = false := by simpa using hex
    simp only [hex, false_or]
    unfold frameAll
    simp only [lengthOf_of_forall hno, Option.isSome_none, Bool.false_and, Bool.or_false,
      Bool.false_or, any_cons, any_nil, codings_joinValues]
    by_cases hhost : hostOf [] others = []
    · refine iff_of_true ?_ (.inr (.inr hhost))
      split_ifs <;> simp [verdictOf, hhost]
    have he : (hostOf [] others).isEmpty = false := by simpa using hhost
    simp only [hhost, or_false]
    by_cases hbad : ∃ v ∈ vs, chunkedNotLast (codings v) = true
    · obtain ⟨v, hv, hvb⟩ := hbad
      refine iff_of_true ?_ (.inr ⟨v, hv, hvb⟩)
      rw [if_pos (any_eq_true.mpr ⟨v, hv, hvb⟩), if_pos (chunkedNotLast_flatMap_of_mem hv hvb)]
    · have hgood : ∀ v ∈ vs, chunkedNotLast (codings v) = false := by simpa using hbad
      have hany : (vs.any fun v => chunkedNotLast (codings v)) = false := by simpa using hgood
      simp only [hbad, or_false]
      rw [← chunkedNotLast_flatMap_iff hgood, hany, if_neg (by decide)]
      rw [hany, Bool.false_or] at hor
      cases hJ : chunkedNotLast (vs.flatMap codings) with
      | true =>
        refine iff_of_false ?_ (by decide)
        simp only [verdictOf, he, Bool.false_eq_true, if_false, if_true]
        split_ifs <;> decide
      | false =>
        rw [hJ, Bool.false_or] at hor
        rw [hor]
        exact iff_of_true rfl rfl

/-- One `Transfer-Encoding` among the other fields. -/
theorem teValues_middle {A B : List (Bytes × Bytes)} (hab : otherFields fields = A ++ B) :
    teValues (A ++ (ascii "Transfer-Encoding", v) :: B) = [v] ∧
      otherFields (A ++ (ascii "Transfer-Encoding", v) :: B) = A ++ B := by
  have hname : lower (ascii "Transfer-Encoding") = ascii "transfer-encoding" := by decide
  have hte : isTransferEncoding (ascii "Transfer-Encoding", v) = true := decide_eq_true hname
  have hn : (otherFields fields).filter isTransferEncoding = [] := by simp [otherFields]
  have hk : (otherFields fields).filter (fun f => !isTransferEncoding f) =
    otherFields fields := by simp [otherFields]
  rw [hab, filter_append, append_eq_nil_iff] at hn
  rw [hab, filter_append] at hk
  exact ⟨by simp [teValues, hte, hn], by simpa [otherFields, hte] using hk⟩

/-- The verdict on a head whose `Transfer-Encoding` comes on several lines is the
verdict on the head with one line, in both header modes, just when no line that
ends in `chunked` is followed by a line with a coding, or the head is refused or
not chunked for another reason. -/
theorem verdict_join_iff (o : Options) {line : Bytes} {req : Request}
    (hline : readRequestLine line = .ok req) (hlen : line.length ≤ maxRequestLineSize)
    {fields A B : List (Bytes × Bytes)} (hf : ∀ f ∈ fields, IsField f)
    (hab : otherFields fields = A ++ B) (hlim : WithinLimits fields) (hlim' : WithinLimits
      (A ++ (ascii "Transfer-Encoding", joinValues (teValues fields)) :: B)) (rest : Bytes) :
    (parseRequest o (writeHead line fields ++ rest)).verdict = (parseRequest o (writeHead line
          (A ++ (ascii "Transfer-Encoding", joinValues (teValues fields)) :: B) ++ rest)).verdict ↔
      Separate (teValues fields) ∨
        (∃ v ∈ teValues fields, transferEncodingIsChunked v = .error .invalidTransferEncoding) ∨
        (∃ f ∈ fields, isContentLength f = true) ∨ hostOf [] fields = [] := by
  have ho : ∀ f ∈ A ++ B, f ∈ fields := by
    intro f hmem
    rw [← hab] at hmem
    exact mem_of_mem_filter hmem
  have hva : ∀ v ∈ teValues fields, isValidHeaderValue v = true := by
    intro v hv
    obtain ⟨f, hmem, rfl⟩ := mem_map.mp hv
    exact (hf f (mem_of_mem_filter hmem)).2
  have hf' : ∀ f ∈ A ++ (ascii "Transfer-Encoding", joinValues (teValues fields)) :: B,
      IsField f := by
    intro f hmem
    rcases mem_cons.mp (perm_middle.mem_iff.mp hmem) with rfl | hmem
    · have hn : isValidHeaderName (ascii "Transfer-Encoding") = true := by decide
      exact ⟨hn, isValidHeaderValue_joinValues hva⟩
    · exact hf f (ho f hmem)
  have hcl : (∃ f ∈ fields, isContentLength f = true) ↔
      ∃ f ∈ A ++ B, isContentLength f = true := by
    rw [← hab]
    exact ⟨fun ⟨f, hmem, h⟩ => ⟨f, mem_otherFields_of_length hmem h, h⟩,
      fun ⟨f, hmem, h⟩ => ⟨f, mem_of_mem_filter hmem, h⟩⟩
  have herr : (∃ v ∈ teValues fields, transferEncodingIsChunked v =
    .error .invalidTransferEncoding) ↔
      ∃ v ∈ teValues fields, chunkedNotLast (codings v) = true := by
    refine exists_congr fun v => and_congr_right fun _ => ?_
    rw [transferEncodingIsChunked_eq]
    cases chunkedNotLast (codings v) <;> simp
  rw [verdict_writeHead hline hlen hf hlim, verdict_writeHead hline hlen hf' hlim',
    Framing.verdict_eq, Framing.verdict_eq, foldlM_frameField _ (by simp),
    foldlM_frameField _ (by simp), (teValues_middle hab).1, (teValues_middle hab).2, hab,
      verdictOf_join_iff, herr,
    hcl, ← hostOf_otherFields [] fields, hab]

/-- `chunked` on one line and `gzip` on the next is taken as chunked; on one line
it is refused. -/
theorem twoLines_not_join : (parseRequest { zeroCopy := true } (ascii
    "POST / HTTP/1.1\r\nHost:a\r\nTransfer-Encoding:chunked\r\nTransfer-Encoding:gzip\r\n\r\n"
    )).verdict = .chunked ∧
    (parseRequest { zeroCopy := true } (ascii
    "POST / HTTP/1.1\r\nHost:a\r\nTransfer-Encoding:chunked, gzip\r\n\r\n")).verdict = .refused ∧
    (parseRequest {} (ascii
    "POST / HTTP/1.1\r\nHost:a\r\nTransfer-Encoding:chunked\r\nTransfer-Encoding:gzip\r\n\r\n"
    )).verdict = .chunked := by
  decide +kernel

/-- `gzip` on one line and `chunked` on the next is read as one list. -/
theorem gzipThenChunked_join : (parseRequest {} (writeHead (ascii "POST / HTTP/1.1")
      [(ascii "Host", ascii "a"), (ascii "Transfer-Encoding", ascii "gzip"),
        (ascii "Transfer-Encoding", ascii "chunked")] ++ [])).verdict =
      (parseRequest {} (writeHead (ascii "POST / HTTP/1.1")
        ([(ascii "Host", ascii "a")] ++ (ascii "Transfer-Encoding", joinValues (teValues
          [(ascii "Host", ascii "a"), (ascii "Transfer-Encoding", ascii "gzip"),
            (ascii "Transfer-Encoding", ascii "chunked")])) :: []) ++ [])).verdict := by
  refine (verdict_join_iff {} rfl (by decide) (by decide) (by decide) (by decide)
    (by decide) []).mpr (.inl ?_)
  decide

end Celeris.H1
