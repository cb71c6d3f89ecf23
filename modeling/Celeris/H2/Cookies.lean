import Celeris.H2.Stream
import Mathlib.Data.List.Induction
import Mathlib.Tactic.SplitIfs
import Mathlib.Algebra.Ring.Nat

/-!
# Cookie fields

A client may split the `cookie` header into several fields, and the server joins them before
anything reads them: over HTTP/2 while the block is decoded (`hpackEmit` and
`endHeaderDecode` in `processor.go`), over HTTP/1 with `CookieJoiner` or in `MaterializeHeaders`
(`stream.go`), which appends all fields and then moves the others together in place.
-/

namespace Celeris.H2

open List

def cookie : Bytes := ascii "cookie"

def cookies (fs : List Field) : List Bytes := (fs.filter (·.1 = cookie)).map Prod.snd

def others (fs : List Field) : List Field := fs.filter (·.1 ≠ cookie)

/-- All cookie fields as one, in the place of the first. -/
def joinCookies : List Field → List Field
  | [] => []
  | f :: fs =>
    if f.1 = cookie then (cookie, (ascii "; ").intercalate (f.2 :: cookies fs)) :: others fs
    else f :: joinCookies fs

/-! ## The implementations -/

/-- `CookieJoiner`: the index of the first cookie field, and the value that is joined from the
second on. -/
structure CookieJoiner where
  first : Option Nat := none
  buf : Option Bytes := none

namespace CookieJoiner

def append (j : CookieJoiner) (hdrs : List Field) (f : Field) : CookieJoiner × List Field :=
  if f.1 = cookie then
    match j.first with
    | none => ({ j with first := some hdrs.length }, hdrs ++ [f])
    | some k => ({ j with buf := some (j.buf.getD (hdrs.getD k ([], [])).2 ++ ascii "; " ++ f.2) },
        hdrs)
  else (j, hdrs ++ [f])

def finish (j : CookieJoiner) (hdrs : List Field) : List Field :=
  match j.buf with
  | some b => hdrs.modify (j.first.getD 0) fun f => (f.1, b)
  | none => hdrs

end CookieJoiner

/-- What a `Processor` keeps while it decodes a block: `cookieAt`, `cookieBuf` with `cookieJoined`,
and the size counted so far. -/
structure HeaderDecode where
  hpackTarget : List Field
  joinCookies : Bool
  cookieAt : Option Nat := none
  cookieBuf : Option Bytes := none
  headerListSize : Nat := 0
  headerListTooLarge : Bool := false

def beginHeaderDecode (target : List Field) (requestHeaders : Bool) : HeaderDecode where
  hpackTarget := target
  joinCookies := requestHeaders

def headerFieldOverhead : Nat := 32

def fieldSize (f : Field) : Nat := f.1.length + f.2.length + headerFieldOverhead

def listSize (fs : List Field) : Nat := (fs.map fieldSize).sum

/-- `hpackEmit`; past the bound the decoder emits nothing more. -/
def hpackEmit (headerListMax : Nat) (p : HeaderDecode) (f : Field) : HeaderDecode :=
  if p.headerListTooLarge then p
  else
    let p := { p with headerListSize := p.headerListSize + fieldSize f }
    if p.headerListSize > headerListMax then { p with headerListTooLarge := true }
    else if p.joinCookies ∧ f.1 = cookie then
      match p.cookieAt with
      | none => { p with
          cookieAt := some p.hpackTarget.length, hpackTarget := p.hpackTarget ++ [f] }
      | some k =>
        let buf := p.cookieBuf.getD (p.hpackTarget.getD k ([], [])).2
        { p with cookieBuf := some (buf ++ ascii "; " ++ f.2) }
    else { p with hpackTarget := p.hpackTarget ++ [f] }

/-- `endHeaderDecode`, with the list of a block that is not refused. -/
def endHeaderDecode (p : HeaderDecode) : Option (List Field) :=
  if p.headerListTooLarge then none
  else
    match p.cookieBuf with
    | some b => some (p.hpackTarget.modify (p.cookieAt.getD 0) fun f => (f.1, b))
    | none => some p.hpackTarget

/-- One round of `joinCookieFields` at index `i`: the list, which is rewritten in place, the length
of `out` and the value built so far. -/
def joinField (s : List Field × Nat × Bytes) (i : Nat) : List Field × Nat × Bytes :=
  let (hdrs, out, b) := s
  let h := hdrs.getD i ([], [])
  if h.1 = cookie then (hdrs, out, b ++ ascii "; " ++ h.2) else (hdrs.set out h, out + 1, b)

def joinCookieFields (hdrs : List Field) (first : Nat) : List Field :=
  let (hdrs, out, b) := (range' (first + 1) (hdrs.length - (first + 1))).foldl joinField
    (hdrs, first + 1, (hdrs.getD first ([], [])).2)
  (hdrs.modify first fun f => (f.1, b)).take out

/-- The loop of `MaterializeHeaders` for a field with its name in lower case: the list, `first` and
`extra`. -/
def appendLazy (s : List Field × Option Nat × Nat) (f : Field) : List Field × Option Nat × Nat :=
  let (hdrs, first, extra) := s
  if f.1 = cookie then
    match first with
    | none => (hdrs ++ [f], some hdrs.length, extra)
    | some k => (hdrs ++ [f], some k, extra + 1)
  else (hdrs ++ [f], first, extra)

/-- `MaterializeHeaders`, behind what `Headers` has already; `lower` is `lazyLowerHeaderName`. -/
def materializeHeaders (lower : Bytes → Bytes) (hdrs lazyRawHeaders : List Field) : List Field :=
  let (hdrs, first, extra) :=
    (lazyRawHeaders.map (Prod.map lower id)).foldl appendLazy (hdrs, none, 0)
  if extra > 0 then joinCookieFields hdrs (first.getD 0) else hdrs

/-! ## They agree -/

def joined (v : Bytes) (vs : List Bytes) : Bytes := vs.foldl (fun b x => b ++ ascii "; " ++ x) v

theorem joined_append {u v : Bytes} {vs : List Bytes} :
    joined (u ++ v) vs = u ++ (ascii "; ").intercalate (v :: vs) := by
  induction vs generalizing u v with
  | nil => simp [joined]
  | cons x vs ih =>
    rw [intercalate_cons_cons, ← append_assoc, ← append_assoc, ← ih]
    rfl

theorem joinCookies_cookie (v : Bytes) (fs : List Field) :
    joinCookies ((cookie, v) :: fs) = (cookie, joined v (cookies fs)) :: others fs := by
  rw [joinCookies, if_pos rfl, ← nil_append v, joined_append, nil_append, nil_append]

theorem joinCookies_other {f : Field} (h : f.1 ≠ cookie) (fs : List Field) :
    joinCookies (f :: fs) = f :: joinCookies fs :=
  if_neg h

theorem cookies_cons (f : Field) (fs : List Field) :
    cookies (f :: fs) = if f.1 = cookie then f.2 :: cookies fs else cookies fs := by
  unfold cookies
  split_ifs with h <;> simp [h]

theorem others_cons (f : Field) (fs : List Field) :
    others (f :: fs) = if f.1 = cookie then others fs else f :: others fs := by
  unfold others
  split_ifs with h <;> simp [h]

variable {a l fs : List Field} {f : Field} {v b : Bytes}

theorem modify_cookie :
    (a ++ (cookie, v) :: l).modify a.length (fun f => (f.1, b)) = a ++ (cookie, b) :: l := by
  simp [modify_eq_set]

namespace CookieJoiner

theorem finish_first (buf : Option Bytes) :
    finish ⟨some a.length, buf⟩ (a ++ (cookie, v) :: l) = a ++ (cookie, buf.getD v) :: l := by
  cases buf with
  | none => rfl
  | some b => exact modify_cookie

theorem append_other (j : CookieJoiner) (h : f.1 ≠ cookie) : j.append l f = (j, l ++ [f]) :=
  if_neg h

theorem append_more (buf : Option Bytes) (h : f.1 = cookie) :
    append ⟨some a.length, buf⟩ (a ++ (cookie, v) :: l) f
      = (⟨some a.length, some (buf.getD v ++ ascii "; " ++ f.2)⟩, a ++ (cookie, v) :: l) := by
  simp [append, h]

/-- `Append` for every field. -/
def run (s : CookieJoiner × List Field) (fs : List Field) : CookieJoiner × List Field :=
  fs.foldl (fun s f => s.1.append s.2 f) s

/-- The list after `Finish`. -/
def result (s : CookieJoiner × List Field) : List Field := s.1.finish s.2

/-- Behind the first cookie field. -/
theorem run_first (buf : Option Bytes) :
    result (run (⟨some a.length, buf⟩, a ++ (cookie, v) :: l) fs)
    = a ++ (cookie, joined (buf.getD v) (cookies fs)) :: (l ++ others fs) := by
  induction fs generalizing l buf with
  | nil =>
    rw [others, filter_nil, append_nil]
    exact finish_first buf
  | cons f fs ih =>
    rw [run, foldl_cons, cookies_cons, others_cons]
    split_ifs with h
    · rw [append_more _ h]
      exact ih _
    · rw [append_other _ h, append_assoc, cons_append, append_cons l f (others fs)]
      exact ih buf

theorem result_run {hdrs : List Field} : result (run ({}, hdrs) fs) = hdrs ++ joinCookies fs := by
  induction fs generalizing hdrs with
  | nil => exact (append_nil _).symm
  | cons f fs ih =>
    obtain ⟨n, v⟩ := f
    by_cases h : n = cookie
    · subst h
      rw [joinCookies_cookie]
      exact run_first none
    · rw [joinCookies_other h, append_cons, ← ih, run, foldl_cons, append_other _ h, run]

end CookieJoiner

/-! ## While the block is decoded -/

theorem listSize_concat : listSize (fs ++ [f]) = listSize fs + fieldSize f := by
  simp [listSize]

open CookieJoiner

variable {max n : Nat} {j : CookieJoiner} {hdrs : List Field}

/-- Within the bound `hpackEmit` keeps what a `CookieJoiner` keeps. -/
theorem hpackEmit_append (h : n + fieldSize f ≤ max) :
    hpackEmit max ⟨hdrs, true, j.first, j.buf, n, false⟩ f
      = ⟨(j.append hdrs f).2, true, (j.append hdrs f).1.first, (j.append hdrs f).1.buf,
        n + fieldSize f, false⟩ := by
  unfold hpackEmit append
  rw [if_neg Bool.false_ne_true, if_neg (Nat.not_lt.mpr h)]
  by_cases hf : f.1 = cookie
  · cases j.first <;> simp [hf]
  · simp [hf]

/-- What `hpackEmit` has kept of the fields `fs`. -/
theorem hpackEmit_foldl :
    let p := fs.foldl (hpackEmit max) (beginHeaderDecode hdrs true)
    let s := run ({}, hdrs) fs
    (p.headerListTooLarge = true ∧ max < p.headerListSize ∧ ∃ gs, gs <+: fs ∧
      p.headerListSize = listSize gs)
      ∨ listSize fs ≤ max ∧ p = ⟨s.2, true, s.1.first, s.1.buf, listSize fs, false⟩ := by
  induction fs using reverseRecOn with
  | nil => exact .inr ⟨Nat.zero_le _, rfl⟩
  | append_singleton fs f ih =>
    simp only [foldl_concat, run, listSize_concat] at ih ⊢
    obtain ⟨ht, hm, gs, hg, hs⟩ | ⟨hm, hp⟩ := ih
    · rw [hpackEmit, if_pos ht]
      exact .inl ⟨ht, hm, gs, hg.trans (prefix_append ..), hs⟩
    · rw [hp]
      by_cases h : listSize fs + fieldSize f ≤ max
      · exact .inr ⟨h, hpackEmit_append h⟩
      · have hl := Nat.lt_of_not_le h
        rw [hpackEmit, if_neg Bool.false_ne_true, if_pos hl]
        exact .inl ⟨rfl, hl, _, prefix_rfl, (listSize_concat ..).symm⟩

theorem endHeaderDecode_finish :
    endHeaderDecode ⟨hdrs, true, j.first, j.buf, n, false⟩ = some (j.finish hdrs) := by
  unfold finish endHeaderDecode
  cases j.buf <;> rfl

theorem listSize_le_of_prefix {gs : List Field} (h : gs <+: fs) : listSize gs ≤ listSize fs := by
  obtain ⟨l, rfl⟩ := h
  simp [listSize]

/-! ## In place -/

/-- A write at the end of what is kept: nothing that is still to be read changes. -/
theorem set_gap (a l : List Field) (f : Field) (gap : List Field) :
    ∃ gap', gap'.length = gap.length ∧ (a ++ gap ++ f :: l).set a.length f = a ++ [f] ++ gap' ++
      l := by
  cases gap with
  | nil => exact ⟨[], rfl, by simp⟩
  | cons g gap => exact ⟨gap ++ [f], by simp, by simp⟩

theorem joinField_foldl (a gap : List Field) (b : Bytes) (fs : List Field) :
    ∃ gap', (range' (a.length + gap.length) fs.length).foldl joinField (a ++ gap ++ fs, a.length, b)
      = (a ++ others fs ++ gap', (a ++ others fs).length, joined b (cookies fs)) := by
  induction fs generalizing a gap b with
  | nil => exact ⟨gap, by simp [others, cookies, joined]⟩
  | cons f fs ih =>
    have hf : (a ++ gap ++ f :: fs).getD (a.length + gap.length) ([], []) = f := by simp
    rw [length_cons, range'_succ, foldl_cons, joinField, hf, cookies_cons, others_cons]
    split_ifs with h
    · -- a cookie widens the gap
      obtain ⟨gap', hr⟩ := ih a (gap ++ [f]) (b ++ ascii "; " ++ f.2)
      rw [← append_assoc, append_assoc _ [f], length_append] at hr
      exact ⟨gap', hr⟩
    · obtain ⟨gap₁, hl, hs⟩ := set_gap a fs f gap
      obtain ⟨gap', hr⟩ := ih (a ++ [f]) gap₁ b
      rw [length_append, length_singleton, hl, Nat.add_right_comm, ← hs, ← append_cons] at hr
      exact ⟨gap', hr⟩

theorem joinCookieFields_first : joinCookieFields (a ++ (cookie, v) :: fs) a.length
    = a ++ (cookie, joined v (cookies fs)) :: others fs := by
  obtain ⟨gap, h⟩ := joinField_foldl (a ++ [(cookie, v)]) [] v fs
  have hl : (a ++ (cookie, v) :: fs).length - (a.length + 1) = fs.length := by
    rw [length_append, length_cons]
    omega
  have hv : ((a ++ (cookie, v) :: fs).getD a.length ([], [])).2 = v := by simp
  simp only [length_append, length_singleton, length_nil, Nat.add_zero, append_nil, append_assoc,
    singleton_append] at h
  rw [joinCookieFields, hl, hv, h, cons_append]
  simp [modify_cookie, take_append, take_of_length_le]

/-- Behind the first cookie field, the loop appends and counts. -/
theorem appendLazy_foldl (k n : Nat) (hdrs fs : List Field) :
    fs.foldl appendLazy (hdrs, some k, n) = (hdrs ++ fs, some k, n + (cookies fs).length) := by
  induction fs generalizing hdrs n with
  | nil => simp [cookies]
  | cons f fs ih =>
    rw [foldl_cons, appendLazy, cookies_cons, append_cons hdrs f fs]
    split_ifs with h
    · rw [length_cons, ← Nat.add_assoc, Nat.add_right_comm]
      exact ih ..
    · exact ih ..

theorem others_of_no_cookies (h : cookies fs = []) : others fs = fs := by
  simpa [cookies, others] using h

theorem materializeHeaders_joined (lower : Bytes → Bytes) (hdrs raw : List Field) :
    materializeHeaders lower hdrs raw = hdrs ++ joinCookies (raw.map (Prod.map lower id)) := by
  unfold materializeHeaders
  generalize raw.map (Prod.map lower id) = fs
  induction fs generalizing hdrs with
  | nil => exact (append_nil _).symm
  | cons f fs ih =>
    obtain ⟨n, v⟩ := f
    rw [foldl_cons, appendLazy]
    by_cases h : n = cookie
    · subst h
      rw [joinCookies_cookie, if_pos rfl, appendLazy_foldl, ← append_cons]
      dsimp only
      split_ifs with hc
      · exact joinCookieFields_first
      · have he : cookies fs = [] := by simpa using hc
        rw [he, others_of_no_cookies he]
        rfl
    · rw [joinCookies_other h, if_neg h, append_cons hdrs _ (joinCookies fs)]
      exact ih _

/-- All three give the list with the cookies joined, behind what was there before; the bound is on
the sizes of the fields received. -/
theorem cookies_joined_alike (max : Nat) (lower : Bytes → Bytes) (hdrs raw fs : List Field) :
    let p := fs.foldl (hpackEmit max) (beginHeaderDecode hdrs true)
    (max < listSize fs ∧ endHeaderDecode p = none ∧
      (∃ gs, gs <+: fs ∧ p.headerListSize = listSize gs)
        ∨ p.headerListSize = listSize fs ∧ listSize fs ≤ max ∧
          endHeaderDecode p = some (hdrs ++ joinCookies fs))
      ∧ result (run ({}, hdrs) fs) = hdrs ++ joinCookies fs
      ∧ materializeHeaders lower hdrs raw = hdrs ++ joinCookies (raw.map (Prod.map lower id)) := by
  refine ⟨?_, result_run, materializeHeaders_joined lower hdrs raw⟩
  obtain ⟨ht, hm, gs, hg, hs⟩ | ⟨hm, hp⟩ := hpackEmit_foldl
  · exact .inl ⟨Nat.lt_of_lt_of_le hm (hs ▸ listSize_le_of_prefix hg), if_pos ht, gs, hg, hs⟩
  · refine .inr ⟨by rw [hp], hm, ?_⟩
    rw [hp, endHeaderDecode_finish]
    exact congrArg some result_run

end Celeris.H2
