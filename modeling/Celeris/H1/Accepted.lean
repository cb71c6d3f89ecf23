import Celeris.Conn.Wire

/-!
# What an accepted head says

The framing of an accepted head is unambiguous, in whatever order its fields come: a chunked
request has no `Content-Length`, and the values of those of any other are one number. Whether
the connection stays open is what its last `Connection` line says, read byte by byte.
-/

namespace Celeris.H1

open List Client

theorem parseInt64Bytes_iff {b : Bytes} {n : Nat} :
    parseInt64Bytes b = some n ↔ readNumber 10 decDigit b = some n ∧ n ≤ maxInt64 := by
  refine Conn.parseNumber_iff (by decide) fun c d hd => ?_
  exact (Conn.decDigit_lt hd).le.trans (by decide)

/-! ## Framing -/

variable {o : Options} {U : Bytes} {n : Nat} {req : Request} {fields : List (Bytes × Bytes)}

/-- The fields that give a length all give the same. -/
theorem parse_of_lengthOf {cl cl' : Option Nat} (h : lengthOf cl fields = some cl') :
    (∀ m ∈ cl, cl' = some m) ∧ ∀ f ∈ fields, isContentLength f = true →
      parseInt64Bytes (trimSpace f.2) = cl' := by
  induction fields generalizing cl with
  | nil =>
    cases h
    exact ⟨fun m hm => hm, nofun⟩
  | cons f fields ih =>
    rw [lengthOf_cons] at h
    split_ifs at h with hf
    · split at h
      · cases h
      rename_i n hn
      split_ifs at h with hd
      obtain ⟨hs, hr⟩ := ih h
      have hcl' := hs n rfl
      refine ⟨fun m hm => ?_, forall_mem_cons.mpr ⟨fun _ => hn.trans hcl'.symm, hr⟩⟩
      cases hm
      simp at hd
      rw [hcl', hd]
    · obtain ⟨hs, hr⟩ := ih h
      exact ⟨hs, forall_mem_cons.mpr ⟨fun hl => absurd hl hf, hr⟩⟩

/-- In an accepted head a chunked request has no length, and any other one length, which its
fields give as a number below `2^63`. -/
theorem framing_unambiguous (h : parseRequest o U = .done n req) :
    if req.chunkedEncoding then ∀ f ∈ req.rawHeaders, isContentLength f = false
    else ∀ f ∈ req.rawHeaders, isContentLength f = true →
      ∃ m < 2 ^ 63, readNumber 10 decDigit f.2 = some m ∧ req.contentLength = some m := by
  obtain ⟨lead, line, req₀, fields, R, hh, -, -, hr⟩ := parseRequest_done_iff.mp h
  obtain ⟨hfr, hraw, -⟩ := readHead_ok hh.reads hr
  have hfi : ∀ f ∈ req.rawHeaders, isContentLength f = true →
      ∃ g ∈ otherFields fields, isContentLength g = true ∧ f.2 = trimSpace g.2 := by
    intro f hf hlen
    rw [hraw, mem_map] at hf
    obtain ⟨g, hg, rfl⟩ := hf
    exact ⟨g, mem_otherFields_of_length hg hlen, hlen, rfl⟩
  have hall := @foldlM_frameField ⟨none, false, []⟩ fields (by simp)
  rw [hfr, frameAll] at hall
  cases hl : lengthOf none (otherFields fields) with rw [hl] at hall
  | none => cases hall
  | some cl =>
    dsimp only at hall
    split_ifs at hall with hbad
    · cases hall
    obtain ⟨rfl, hch, -⟩ := Framing.mk.inj (Option.some.inj hall)
    split_ifs with hc
    · intro f hf
      rw [Bool.eq_false_iff]
      intro hlen
      obtain ⟨g, hg, hlen, -⟩ := hfi f hf hlen
      rw [← hch, hc, lengthOf_isSome hl (.inr ⟨g, hg, hlen⟩), Bool.and_true, Bool.or_true] at hbad
      exact hbad rfl
    · intro f hf hlen
      obtain ⟨g, hg, hlen, hv⟩ := hfi f hf hlen
      have hp := (parse_of_lengthOf hl).2 g hg hlen
      obtain ⟨m, hm⟩ := Option.isSome_iff_exists.mp (lengthOf_isSome hl (.inr ⟨g, hg, hlen⟩))
      rw [hm, ← hv, parseInt64Bytes_iff] at hp
      exact ⟨m, Nat.lt_succ_of_le hp.2, hp.1, hm⟩

/-- Two lengths that are written differently are one number. -/
theorem twoLengths_unambiguous : ∃ m < 2 ^ 63, readNumber 10 decDigit (ascii "05") = some m ∧
    some 5 = some m := by
  have hp : parseRequest { zeroCopy := true }
      (ascii "GET / HTTP/1.1\r\nHost:a\r\nContent-Length:5\r\nContent-Length:05\r\n\r\n") =
        .done 63 {
        method := ascii "GET"
        path := ascii "/"
        version := ascii "HTTP/1.1"
        rawHeaders := [(ascii "Host", ascii "a"), (ascii "Content-Length", ascii "5"),
          (ascii "Content-Length", ascii "05")]
        host := ascii "a"
        contentLength := some 5
        keepAlive := true } := by decide +kernel
  exact framing_unambiguous hp (ascii "Content-Length", ascii "05") (by decide) (by decide)

/-! ## Persistence -/

section Persistence

variable {f : Bytes × Bytes} {v s : Bytes}

theorem asciiContainsFold_iff : asciiContainsFold v s = true ↔ lower s <:+: lower v := by
  induction v with
  | nil =>
    rw [asciiContainsFold, Bool.or_false, isPrefixOf_iff_prefix]
    exact prefix_nil.trans infix_nil.symm
  | cons c v ih =>
    rw [asciiContainsFold, Bool.or_eq_true, isPrefixOf_iff_prefix, ih]
    exact infix_cons_iff.symm

theorem infix_of_mem_listElements {tok : Bytes} (h : tok ∈ listElements v) : tok <:+: v := by
  have ht : ∀ a : Bytes, trimSpace a <:+: a := fun a =>
    IsPrefix.isInfix ( rdropWhile_prefix isBlank _) |>.trans (dropWhile_suffix isBlank).isInfix
  induction hn : v.length using Nat.strong_induction_on generalizing v with
  | _ n ih =>
    subst hn
    rcases exists_cut v with hv | ⟨a, b, rfl, ha⟩
    · rw [listElements_of_not_mem hv, mem_singleton] at h
      exact h ▸ ht v
    · rw [listElements_append, listElements_of_not_mem ha, singleton_append, mem_cons] at h
      rcases h with rfl | h
      · exact (ht a).trans (prefix_append a _).isInfix
      · exact (ih b.length (by simp only [length_append, length_cons]; omega) h rfl).trans
          ((suffix_cons comma b).trans (suffix_append a _)).isInfix

def isConnection (f : Bytes × Bytes) : Bool := lower f.1 = ascii "connection"

/-- Whether a `Connection` line lists a token. -/
def listsToken (s : Bytes) (fields : List (Bytes × Bytes)) : Bool :=
  fields.any fun f => isConnection f && (listElements f.2).any (asciiEqualFold · s)

/-- Whether a connection stays open, by the tokens of all lines. -/
def staysOpen (req : Request) : Bool :=
  !listsToken (ascii "close") req.rawHeaders &&
    (req.version = ascii "HTTP/1.1" || listsToken (ascii "keep-alive") req.rawHeaders)

/-- Whether a line sets the flag. -/
def Sets (f : Bytes × Bytes) : Prop := isConnection f = true ∧
  (asciiContainsFold f.2 (ascii "close") = true ∨ asciiContainsFold f.2 (ascii "keep-alive") = true)

instance (f : Bytes × Bytes) : Decidable (Sets f) := inferInstanceAs (Decidable (_ ∧ _))

theorem exists_of_listsToken (h : listsToken s fields = true) :
    ∃ f ∈ fields, isConnection f = true ∧ asciiContainsFold f.2 s = true := by
  obtain ⟨f, hf, hl⟩ := any_eq_true.mp h
  obtain ⟨hc, ht⟩ := Bool.and_eq_true_iff.mp hl
  obtain ⟨tok, ht, heq⟩ := any_eq_true.mp ht
  refine ⟨f, hf, hc, asciiContainsFold_iff.mpr ?_⟩
  rw [← of_decide_eq_true heq]
  exact (infix_of_mem_listElements ht).map lowerByte

theorem persist_of_sets (h : Sets f) {k : Bool} :
    persist k f = !asciiContainsFold f.2 (ascii "close") := by
  obtain ⟨hconn, hc | hk⟩ := h
  · rw [persist, if_pos (of_decide_eq_true hconn), hc]
    rfl
  · rw [persist, if_pos (of_decide_eq_true hconn), hk, Bool.true_or, Bool.and_true]

theorem persist_of_not_sets (h : ¬Sets f) {k : Bool} : persist k f = k := by
  unfold persist
  split_ifs with hc
  · have hno := not_and.mp h (decide_eq_true hc)
    rw [not_or, Bool.not_eq_true, Bool.not_eq_true] at hno
    rw [hno.1, hno.2]
    rfl
  · rfl

/-- Lines that all set the flag alike. -/
theorem foldl_persist {b k : Bool} (h : ∀ f ∈ fields, Sets f →
    (!asciiContainsFold f.2 (ascii "close")) = b)
    (hk : k = b ∨ ∃ f ∈ fields, Sets f) : fields.foldl persist k = b := by
  induction fields generalizing k with
  | nil => exact hk.resolve_right nofun
  | cons f fields ih =>
    rw [forall_mem_cons] at h
    refine ih h.2 ?_
    by_cases hf : Sets f
    · exact .inl ((persist_of_sets hf).trans (h.1 hf))
    · rw [persist_of_not_sets hf]
      refine hk.imp_right ?_
      rintro ⟨g, hg, hs⟩
      rcases mem_cons.mp hg with rfl | hg
      · exact absurd hs hf
      · exact ⟨g, hg, hs⟩

theorem keepAlive_eq_foldl (h : parseRequest o U = .done n req) :
    req.keepAlive = req.rawHeaders.foldl persist (req.version = ascii "HTTP/1.1") := by
  obtain ⟨lead, line, req₀, fields, R, hh, -, -, hr⟩ := parseRequest_done_iff.mp h
  exact (readHead_ok hh.reads hr).2.2.2

theorem keepAlive_eq (h : parseRequest o U = .done n req)
    (hall : ∀ f ∈ req.rawHeaders, Sets f →
      (!asciiContainsFold f.2 (ascii "close")) = staysOpen req) :
    req.keepAlive = staysOpen req := by
  rw [keepAlive_eq_foldl h]
  refine foldl_persist hall ?_
  by_cases hs : ∃ f ∈ req.rawHeaders, Sets f
  · exact .inr hs
  · -- No line says anything, so none lists a token.
    have hno : ∀ s, (∀ f, isConnection f = true → asciiContainsFold f.2 s = true → Sets f) →
        listsToken s req.rawHeaders = false := by
      intro s hsets
      rw [Bool.eq_false_iff]
      intro hl
      obtain ⟨f, hf, hconn, hc⟩ := exists_of_listsToken hl
      exact hs ⟨f, hf, hsets f hconn hc⟩
    rw [staysOpen, hno _ fun f hconn hc => ⟨hconn, .inl hc⟩,
      hno _ fun f hconn hk => ⟨hconn, .inr hk⟩, Bool.or_false]
    exact .inl rfl

theorem length_writeFields :
    (writeFields fields).length = (fields.map fun f => (fieldLine f).length + 2).sum + 2 := by
  induction fields with
  | nil => rfl
  | cons f fields ih =>
    simp only [writeFields, length_append, length_cons, map_cons, sum_cons]
    omega

/-- A `Connection` line can be moved behind all others. -/
theorem exists_moved (h : parseRequest o U = .done n req) (hf : f ∈ req.rawHeaders)
    (hc : isConnection f = true) :
    ∃ U' n' req' raw, parseRequest o U' = .done n' req' ∧ req'.version = req.version ∧
      req'.rawHeaders = raw ++ [f] ∧ (raw ++ [f]).Perm req.rawHeaders := by
  obtain ⟨lead, line, req₀, fields, R, hh, -, -, hr⟩ := parseRequest_done_iff.mp h
  obtain ⟨hfr, hraw, hve, -⟩ := readHead_ok hh.reads hr
  rw [hraw, mem_map] at hf
  obtain ⟨g, hg, rfl⟩ := hf
  obtain ⟨A, B, rfl⟩ := append_of_mem hg
  have hp : (A ++ B ++ [g]).Perm (A ++ g :: B) := (perm_append_singleton g _).trans perm_middle.symm
  have hn : ∀ fr, frameField fr g = .ok fr := by
    intro fr
    have hlow : lower g.1 = ascii "connection" := of_decide_eq_true hc
    rw [frameField, hlow]
    rfl
  have hfr' : (A ++ B ++ [g]).foldlM frameField ⟨none, false, []⟩ = .ok req.framing := by
    rw [← hfr]
    simp only [foldlM_append, foldlM_cons, foldlM_nil, hn]
    cases A.foldlM frameField ⟨none, false, []⟩ with
    | error e => rfl
    | ok fr => exact bind_pure (B.foldlM frameField fr)
  have hh' : IsHead lead line req₀ (A ++ B ++ [g]) := by
    refine ⟨hh.front, hh.starts, hh.short, fun f hf => hh.valid f (hp.mem_iff.mp hf), ?_, ?_⟩
    · rw [hp.length_eq]
      exact hh.limits.1
    · rw [length_writeFields, (hp.map _).sum_nat, ← length_writeFields]
      exact hh.limits.2
  have hv := verdict_readHead o hh.reads (A ++ g :: B)
  have hv' := verdict_readHead o hh.reads (A ++ B ++ [g])
  rw [hfr, hr] at hv
  rw [hfr', hv] at hv'
  cases hr' : readHead o req₀ (A ++ B ++ [g]) with
  | error e =>
    rw [hr'] at hv'
    dsimp only at hv'
    split_ifs at hv'
  | ok req' =>
    obtain ⟨-, hraw', hve', -⟩ := readHead_ok hh.reads hr'
    rw [map_append] at hraw'
    refine ⟨_, _, req', (A ++ B).map _,
      parseRequest_done_iff.mpr ⟨lead, line, req₀, _, [], hh', rfl, rfl, hr'⟩,
      hve'.trans hve.symm, hraw', ?_⟩
    have hmap := hp.map fun f => (f.1, trimSpace f.2)
    rwa [map_append, ← hraw] at hmap

/-- The flag is what the tokens of all lines say, in whatever order they come, just when every
line that sets it sets it so. -/
theorem keepAlive_iff (h : parseRequest o U = .done n req) :
    (req.keepAlive = staysOpen req ∧ ∀ U' n' req', parseRequest o U' = .done n' req' →
      req'.version = req.version → req'.rawHeaders.Perm req.rawHeaders →
        req'.keepAlive = req.keepAlive) ↔
    ∀ f ∈ req.rawHeaders, Sets f → (!asciiContainsFold f.2 (ascii "close")) = staysOpen req := by
  constructor
  · rintro ⟨ho, hp⟩ f hf hs
    obtain ⟨U', n', req', raw, h', hv, hraw, hm⟩ := exists_moved h hf hs.1
    have hk := hp U' n' req' h' hv (hraw ▸ hm)
    have hfold := keepAlive_eq_foldl h'
    rw [hraw, foldl_append, foldl_cons, foldl_nil, persist_of_sets hs] at hfold
    rw [← hfold, hk, ho]
  · intro ha
    refine ⟨keepAlive_eq h ha, fun U' n' req' h' hv hp => ?_⟩
    have hsame : staysOpen req' = staysOpen req := by
      rw [staysOpen, staysOpen, listsToken, listsToken, hv, hp.any_eq, hp.any_eq]
      rfl
    rw [keepAlive_eq h ha, ← hsame]
    refine keepAlive_eq h' fun f hf hs => ?_
    rw [hsame]
    exact ha f (hp.mem_iff.mp hf) hs

theorem close_keepAlive : ∃ req, parseRequest { zeroCopy := true }
    (ascii "GET / HTTP/1.1\r\nHost:a\r\nConnection:close\r\n\r\n") = .done 44 req ∧
      req.keepAlive = staysOpen req := by
  have hp : parseRequest { zeroCopy := true }
      (ascii "GET / HTTP/1.1\r\nHost:a\r\nConnection:close\r\n\r\n") = .done 44 {
        method := ascii "GET"
        path := ascii "/"
        version := ascii "HTTP/1.1"
        rawHeaders := [(ascii "Host", ascii "a"), (ascii "Connection", ascii "close")]
        host := ascii "a" } := by decide +kernel
  exact ⟨_, hp, ((keepAlive_iff hp).mpr (by decide)).1⟩

/-- A later line takes back a `close`. -/
theorem close_forgotten : ∃ req, parseRequest { zeroCopy := true }
    (ascii "GET / HTTP/1.1\r\nHost:a\r\nConnection:close\r\nConnection:keep-alive\r\n\r\n") =
      .done 67 req ∧
      listsToken (ascii "close") req.rawHeaders = true ∧ req.keepAlive = true :=
  ⟨{  method := ascii "GET"
      path := ascii "/"
      version := ascii "HTTP/1.1"
      rawHeaders := [(ascii "Host", ascii "a"), (ascii "Connection", ascii "close"),
        (ascii "Connection", ascii "keep-alive")]
      host := ascii "a"
      keepAlive := true }, by decide +kernel⟩

end Persistence

end Celeris.H1
