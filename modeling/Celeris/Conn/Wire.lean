import Celeris.Conn.Client
import Celeris.Conn.Response
import Celeris.H1.Coding
import Mathlib.Data.Nat.Digits.Lemmas

/-!
# Reading what was written

The writer and the client agree on the parts of a response: a number, a status line,
a field and a chunk are read back as they were written.
-/

namespace Celeris.Conn

open H1 Client List Option Nat

/-! ## Numbers -/

variable {base status fuel n : Nat} {digit : UInt8 → Option Nat} {v data : Bytes}

theorem foldlM_digits {ds : List Nat} (hd : ∀ d ∈ ds, digit (digitByte d) = some d) (n : Nat) :
    (ds.map digitByte).foldlM (fun n c => (digit c).map fun d => n * base + d) n =
      some (ds.foldl (fun n d => n * base + d) n) := by
  induction ds generalizing n with
  | nil => rfl
  | cons d ds ih =>
    rw [map_cons, foldlM_cons, hd d (by simp), map_some, foldl_cons]
    exact ih (fun d' h => hd d' (by simp [h])) _

theorem decDigit_lt {c : UInt8} {d : Nat} (h : decDigit c = some d) : d < 10 := by
  rw [decDigit] at h
  split_ifs at h with hc
  cases h
  have hle : c.toNat ≤ 0x39 := UInt8.le_iff_toNat_le.mp (by simp [isDigit] at hc; exact hc.2)
  omega

/-- A number that was written is read back. -/
theorem readNumber_appendInt (hbase : 1 < base) (hdi : ∀ d < base, digit (digitByte d) = some d) :
    readNumber base digit (appendInt base n) = some n := by
  unfold readNumber appendInt
  by_cases hn : n = 0
  · rw [if_pos hn, hn]
    have hz := hdi 0 (by omega)
    rw [show digitByte 0 = 0x30 from rfl] at hz
    simp [hz]
  · have hv : (digits base n).foldr (fun d m => m * base + d) 0 = n :=
      calc (digits base n).foldr (fun d m => m * base + d) 0
          = (digits base n).foldr (fun d m => d + base * m) 0 := by
            congr 1
            funext d m
            rw [mul_comm, add_comm]
        _ = ofDigits base (digits base n) := (ofDigits_eq_foldr base _).symm
        _ = n := ofDigits_digits base n
    have hne : digits base n ≠ [] := digits_ne_nil_iff_ne_zero.mpr hn
    rw [if_neg hn, if_neg (by simpa using hne),
      foldlM_digits fun d hd => hdi d (digits_lt_base hbase (mem_reverse.mp hd)),
      foldl_reverse, hv]

theorem readDecimal_appendInt (n : Nat) : readNumber 10 decDigit (appendInt 10 n) = some n :=
  readNumber_appendInt (by decide) (by decide)

theorem readHex_appendInt (n : Nat) : readNumber 16 hexDigit (appendInt 16 n) = some n :=
  readNumber_appendInt (by decide) (by decide)

theorem readNumber_some (h : readNumber base digit v = some n) :
    v ≠ [] ∧ ∀ c ∈ v, digit c ≠ none := by
  unfold readNumber at h
  split_ifs at h with he
  refine ⟨by simpa using he, ?_⟩
  generalize 0 = m at h
  clear he
  induction v generalizing m with
  | nil => simp
  | cons c v ih =>
    rw [foldlM_cons] at h
    obtain ⟨k, hk, h⟩ := bind_eq_some_iff.mp h
    obtain ⟨d, hd, -⟩ := map_eq_some_iff.mp hk
    exact forall_mem_cons.mpr ⟨by simp [hd], ih _ h⟩

/-- The bytes of a number are digits. -/
theorem not_mem_appendInt (hbase : 1 < base)
    (hd : ∀ d < base, digit (digitByte d) = some d) {c : UInt8} (hc : digit c = none) :
    c ∉ appendInt base n :=
  fun hm => (readNumber_some (readNumber_appendInt hbase hd)).2 c hm hc

/-! ## The head -/

def statusLine (status : Nat) : Bytes :=
  ascii "HTTP/1.1 " ++ appendInt 10 status ++ space :: statusText status

theorem cr_not_mem_statusLine : cr ∉ statusLine status := by
  have ht : cr ∉ statusText status := by
    unfold statusText
    split <;> decide +kernel
  have hint : cr ∉ appendInt 10 status :=
    not_mem_appendInt (by decide) (show ∀ d < 10, decDigit (digitByte d) = some d by decide)
      (by decide)
  simp only [statusLine, mem_append, mem_cons, not_or]
  exact ⟨⟨by decide, hint⟩, by decide, ht⟩

theorem length_appendInt (h : 100 ≤ status) (h' : status ≤ 999) :
    (appendInt 10 status).length = 3 := by
  have hl : log 10 status = 2 := log_eq_of_pow_le_of_lt_pow (by omega) (by omega)
  rw [appendInt, if_neg (by omega), length_map, length_reverse,
    length_digits 10 status (by decide) (by omega), hl]

theorem readStatus_statusLine (h : 100 ≤ status) (h' : status ≤ 999) :
    readStatus (statusLine status) = some status := by
  have hl := length_appendInt h h'
  have hv : (ascii "HTTP/1.1 ").length = 9 := rfl
  have hd : (statusLine status).drop 9 = appendInt 10 status ++ space :: statusText status := by
    rw [statusLine, append_assoc, drop_left' hv]
  have hd' : (statusLine status).drop 12 = space :: statusText status := by
    rw [show 12 = 9 + 3 from rfl, ← drop_drop, hd, drop_left' hl]
  unfold readStatus
  rw [hd', hd, take_left' hl, if_pos, readDecimal_appendInt]
  refine ⟨?_, rfl⟩
  rw [statusLine, append_assoc, take_left' hv]

def writeLines (fs : List (Bytes × Bytes)) : Bytes := fs.flatMap fun f => headerLine f.1 f.2

def seen (f : Bytes × Bytes) : Bytes × Bytes := (lower f.1, trimSpace f.2)

def fieldText (f : Bytes × Bytes) : Bytes := f.1 ++ ascii ": " ++ f.2

variable {rest : Bytes} {fs : List (Bytes × Bytes)}

theorem splitLine_writeLines_nil : splitLine (writeLines [] ++ (crlf ++ rest)) = some ([], rest) :=
  splitLine_crlf

/-- The first line is split off the lines that were written. -/
theorem splitLine_writeLines {f : Bytes × Bytes} (hf : cr ∉ fieldText f) :
    ∃ b line, fieldText f = b :: line ∧
      splitLine (writeLines (f :: fs) ++ (crlf ++ rest)) =
        some (b :: line, writeLines fs ++ (crlf ++ rest)) := by
  obtain ⟨b, line, hl⟩ := exists_cons_of_ne_nil (show fieldText f ≠ [] by simp [fieldText, ascii])
  have hs : writeLines (f :: fs) ++ (crlf ++ rest) = fieldText f ++ cr :: lf ::
      (writeLines fs ++ (crlf ++ rest)) := by
    simp [writeLines, headerLine, fieldText, crlf]
  exact ⟨b, line, hl, by rw [hs, splitLine_line hf, hl]⟩

/-- The client reads the fields that were written. -/
theorem readFields_writeLines (hfs : ∀ f ∈ fs, IsField f) (hfuel : fs.length < fuel) :
    readFields fuel (writeLines fs ++ (crlf ++ rest)) = some (fs.map seen, rest) := by
  induction fuel generalizing fs with
  | zero => exact absurd hfuel (not_lt_zero _)
  | succ fuel ih =>
    cases fs with
    | nil =>
      rw [readFields, splitLine_writeLines_nil]
      rfl
    | cons f fs =>
      obtain ⟨hn, hv⟩ := hfs f mem_cons_self
      have hf : IsField (f.1, space :: f.2) := ⟨hn, hv⟩
      have hr : readFields fuel _ = _ :=
        ih (fun f h => hfs f (mem_cons_of_mem _ h)) (lt_of_succ_lt_succ hfuel)
      have ht : fieldText f = fieldLine (f.1, space :: f.2) := append_assoc f.1 _ _
      have hc : cut colon (fieldText f) = some (f.1, space :: f.2) := by
        rw [ht]
        exact cut_append (not_tchar hn (by decide))
      obtain ⟨b, line, hl, hs⟩ := splitLine_writeLines (ht ▸ hf.cr_not_mem)
      rw [hl] at hc
      rw [readFields, hs]
      simp only [hc, hr]
      rfl

/-- A head and what follows it. -/
def writeMessage (status : Nat) (fs : List (Bytes × Bytes)) (rest : Bytes) : Bytes :=
  statusLine status ++ crlf ++ writeLines fs ++ crlf ++ rest

theorem splitLine_writeMessage :
    splitLine (writeMessage status fs rest) =
      some (statusLine status, writeLines fs ++ (crlf ++ rest)) := by
  rw [writeMessage, crlf, append_assoc, append_assoc, append_assoc]
  exact splitLine_line cr_not_mem_statusLine _

/-- There are fewer fields than bytes. -/
theorem length_lt_writeLines : fs.length < (writeLines fs ++ (crlf ++ rest)).length + 1 := by
  have hl : fs.length ≤ (writeLines fs).length := by
    induction fs with
    | nil => exact le_refl _
    | cons f fs ih =>
      have hline : 0 < (headerLine f.1 f.2).length := by simp [headerLine, crlf]
      have hc : writeLines (f :: fs) = headerLine f.1 f.2 ++ writeLines fs := rfl
      rw [hc, length_append, length_cons]
      omega
  rw [length_append]
  omega

/-- The client reads the head that was written, and what its rules say of the rest. -/
theorem read_writeMessage (h : 100 ≤ status) (h' : status ≤ 999) (hfs : ∀ f ∈ fs, IsField f)
    {method : Bytes} : read method (writeMessage status fs rest) =
      (readContent (contentEnds method status (fs.map seen)) rest).map fun r =>
        (⟨status, fs.map seen, r.1⟩, r.2) := by
  unfold Client.read
  rw [splitLine_writeMessage]
  simp only [bind_eq_bind, bind_some, readStatus_statusLine h h',
    readFields_writeLines hfs length_lt_writeLines]
  cases readContent (contentEnds method status (fs.map seen)) rest <;> rfl

/-! ## The length -/

section

variable {m : Nat} (hbase : 0 < base)

include hbase

theorem le_of_foldlM (h : v.foldlM (fun n c => (digit c).map fun d => n * base + d) m = some n) :
    m ≤ n := by
  induction v generalizing m with
  | nil =>
    cases h
    exact le_rfl
  | cons c v ih =>
    rw [foldlM_cons] at h
    obtain ⟨k, hk, h⟩ := bind_eq_some_iff.mp h
    obtain ⟨d, -, rfl⟩ := map_eq_some_iff.mp hk
    exact ((Nat.le_mul_of_pos_right m hbase).trans (Nat.le_add_right _ d)).trans (ih h)

/-- A number is parsed as it is read, if it is within the range of an `int64`. -/
theorem parseNumber_iff (hd : ∀ c, ∀ d ∈ digit c, d ≤ maxInt64) :
    parseNumber base digit v = some n ↔ readNumber base digit v = some n ∧ n ≤ maxInt64 := by
  have hf : ∀ m ≤ maxInt64, v.foldlM (fun n c => (digit c).bind (pushDigit base n)) m = some n ↔
      v.foldlM (fun n c => (digit c).map fun d => n * base + d) m = some n ∧ n ≤ maxInt64 := by
    induction v with
    | nil =>
      intro m hm
      refine ⟨fun h => ⟨h, ?_⟩, And.left⟩
      cases h
      exact hm
    | cons c v ih =>
      intro m hm
      rw [foldlM_cons, foldlM_cons]
      cases hc : digit c with
      | none => exact iff_of_false nofun nofun
      | some d =>
        have hp : m > (maxInt64 - d) / base ↔ ¬ m * base + d ≤ maxInt64 := by
          have := hd c d hc
          rw [gt_iff_lt, div_lt_iff_lt_mul hbase]
          omega
        rw [bind_some, pushDigit]
        split_ifs with hl
        · exact iff_of_false nofun fun h => hp.mp hl ((le_of_foldlM hbase h.1).trans h.2)
        · exact ih _ (not_not.mp (hp.not.mp hl))
  rw [parseNumber, readNumber]
  split_ifs
  · exact iff_of_false nofun nofun
  · exact hf 0 (zero_le _)

end

/-- There are no blanks around a number. -/
theorem trimSpace_number (h : readNumber base digit v = some n) (hs : digit space = none)
    (htab : digit H1.htab = none) : trimSpace v = v := by
  have hbl (c : UInt8) (hc : c ∈ v) : isBlank c = false := by
    cases hb : isBlank c with
    | false => rfl
    | true =>
      rw [isBlank, Bool.or_eq_true, decide_eq_true_eq, decide_eq_true_eq] at hb
      rcases hb with rfl | rfl
      · exact absurd hs ((readNumber_some h).2 space hc)
      · exact absurd htab ((readNumber_some h).2 H1.htab hc)
  cases v with
  | nil => rfl
  | cons c v =>
    rw [trimSpace, dropWhile_cons_of_neg (by rw [hbl c (by simp)]; simp)]
    refine rdropWhile_eq_self_iff.mpr fun hne' => ?_
    rw [hbl _ (getLast_mem hne')]
    simp

/-- A number is a list of one element. -/
theorem listElements_number (h : readNumber 10 decDigit v = some n) :
    ((listElements v).filter fun e => !e.isEmpty) = [v] := by
  obtain ⟨hne, hd⟩ := readNumber_some h
  have hco : comma ∉ v := fun hc => hd comma hc (by decide)
  rw [listElements_of_not_mem hco, trimSpace_number h (by decide) (by decide)]
  simpa using hne

/-- Fields that agree on a length say that length. -/
theorem contentLength_eq {fields : List (Bytes × Bytes)}
    (h : ∀ f ∈ fields, f.1 = ascii "content-length" → readNumber 10 decDigit f.2 = some n) :
    contentLength fields =
      some (if carries (ascii "content-length") fields then some n else none) := by
  have hm : ∀ e ∈ (elements (ascii "content-length") fields).map (readNumber 10 decDigit),
      e = some n := by
    intro e he
    obtain ⟨v, hv, rfl⟩ := mem_map.mp he
    obtain ⟨f, hf, hvf⟩ := mem_flatMap.mp hv
    rw [mem_filter, decide_eq_true_eq] at hf
    have hnum := h f hf.1 hf.2
    rw [listElements_number hnum, mem_singleton] at hvf
    rw [hvf, hnum]
  unfold contentLength
  cases hc : carries (ascii "content-length") fields with
  | false => rfl
  | true =>
    simp only [Bool.not_true, Bool.false_eq_true, if_false, if_true]
    obtain ⟨f, hf, hn⟩ := any_eq_true.mp hc
    rw [decide_eq_true_eq] at hn
    have hmem : f.2 ∈ elements (ascii "content-length") fields := by
      refine mem_flatMap.mpr ⟨f, mem_filter.mpr ⟨hf, by simpa using hn⟩, ?_⟩
      rw [listElements_number (h f hf hn)]
      exact mem_singleton_self _
    cases hel : (elements (ascii "content-length") fields).map (readNumber 10 decDigit) with
    | nil =>
      rw [map_eq_nil_iff] at hel
      rw [hel] at hmem
      cases hmem
    | cons e es =>
      rw [hel] at hm
      rw [hm e (by simp)]
      simp only
      rw [if_pos (all_eq_true.mpr fun e' he' => by simpa using hm e' (by simp [he']))]

/-! ## Chunks -/

/-- The size line is split off a chunk. -/
theorem splitLine_frameChunk : splitLine (frameChunk data ++ rest) =
      some (appendInt 16 data.length, data ++ (crlf ++ rest)) := by
  obtain ⟨-, hd⟩ := readNumber_some (readHex_appendInt data.length)
  rw [frameChunk, append_assoc, append_assoc, append_assoc]
  exact splitLine_line (fun hc => hd cr hc (by decide)) _

theorem trimSpace_size :
    trimSpace ((appendInt 16 n).takeWhile (· ≠ semicolon)) = appendInt 16 n := by
  have hn := readHex_appendInt n
  rw [takeWhile_eq_self_iff.mpr, trimSpace_number hn (by decide) (by decide)]
  intro c hc
  refine decide_eq_true fun e => ?_
  exact (readNumber_some hn).2 semicolon (e ▸ hc) (by decide)

theorem decodeChunked_frameChunk (hne : data ≠ []) :
    decodeChunked (fuel + 1) (frameChunk data ++ rest) =
      (decodeChunked fuel rest).map fun r => (data ++ r.1, r.2) := by
  obtain ⟨n, hn⟩ : ∃ n, data.length = n + 1 :=
    exists_eq_succ_of_ne_zero (fun h => hne (eq_nil_of_length_eq_zero h))
  have hd : (data ++ (crlf ++ rest)).drop (n + 3) = rest := by
    rw [show n + 3 = data.length + 2 by omega, ← drop_drop, drop_left]
    rfl
  rw [decodeChunked, splitLine_frameChunk]
  simp only [trimSpace_size, readHex_appendInt]
  rw [hn]
  simp only
  rw [← hn, drop_left, take_left, hd, if_pos (by rfl)]

/-- Chunks carry their data, and the last chunk ends it. -/
theorem decodeChunked_frameChunks {chunks : List Bytes} (hne : ∀ data ∈ chunks, data ≠ [])
    (hf : chunks.length < fuel) :
    decodeChunked fuel (chunks.flatMap frameChunk ++ ascii "0\r\n\r\n") =
      some (chunks.flatten, []) := by
  induction fuel generalizing chunks with
  | zero => exact absurd hf (not_lt_zero _)
  | succ fuel ih =>
    cases chunks with
    | nil => rfl
    | cons data chunks =>
      have hr : decodeChunked fuel _ = _ :=
        ih (fun d hd => hne d (mem_cons_of_mem _ hd)) (lt_of_succ_lt_succ hf)
      rw [flatMap_cons, append_assoc, decodeChunked_frameChunk (hne data (by simp)), hr,
        flatten_cons]
      rfl

theorem splitWrite_ne_nil {chunk : Bytes} (h : chunk ∈ splitWrite fuel data) : chunk ≠ [] := by
  induction fuel generalizing data with
  | zero => cases h
  | succ fuel ih =>
    rw [splitWrite] at h
    split_ifs at h with he hl
    · cases h
    · rcases mem_cons.mp h with rfl | h
      · refine ne_nil_of_length_pos ?_
        rw [length_take_of_le (by omega)]
        decide
      · exact ih h
    · rw [mem_singleton] at h
      subst h
      simpa using he

theorem splitWrite_flatten (h : data.length ≤ fuel) : (splitWrite fuel data).flatten = data := by
  induction fuel generalizing data with
  | zero =>
    have hn : data = [] := eq_nil_of_length_eq_zero (by omega)
    subst hn
    rfl
  | succ fuel ih =>
    rw [splitWrite]
    split_ifs with he hl
    · exact (isEmpty_iff.mp he).symm
    · have hm : 0 < maxChunkData := by decide
      rw [flatten_cons, ih (by rw [length_drop]; omega), take_append_drop]
    · rw [flatten_singleton]

end Celeris.Conn
