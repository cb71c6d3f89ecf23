import Celeris.H1.Fields

/-!
# The same-origin check (`middleware/websocket/upgrade.go`)

`checkSameOrigin` compares the host of an origin with that of a `Host` header behind the removal of
their ports. What it removes is everything from the last colon on, which of an address in brackets
without a port is the end of the address itself. `strings.EqualFold` is modelled on the ASCII
strings that hosts are.
-/

namespace Celeris.WebSocket

open H1 List

/-- The bytes behind the first `://`. -/
def afterScheme : Bytes → Option Bytes
  | [] => none
  | c :: rest => if (ascii "://").isPrefixOf (c :: rest) then some (rest.drop 2)
      else afterScheme rest

/-- A string up to its last colon: a slice at `strings.LastIndexByte`. -/
def stripPort (s : Bytes) : Bytes :=
  match cut colon s.reverse with
  | none => s
  | some (_, before) => before.reverse

/-- The default check of the origin. -/
def checkSameOrigin (origin host : Bytes) : Bool :=
  asciiEqualFold (stripPort ((afterScheme origin).getD origin)) (stripPort host)

/-! ## Hosts and ports -/

def Bracketed (host : Bytes) : Prop := ∃ a, host = 0x5b :: (a ++ [0x5d]) ∧ colon ∈ a ∧ 0x5d ∉ a

/-- A host with a port or without: a name or an IPv4 address, which have no colon and no bracket, or
an address in brackets, which has colons. -/
structure Authority where
  host : Bytes
  port : Option Bytes
  isAscii : ∀ c ∈ host, c < 0x80
  isHost : (colon ∉ host ∧ 0x5b ∉ host) ∨ Bracketed host
  isPort : ∀ p ∈ port, ∀ c ∈ p, isDigit c = true

/-- An origin `scheme://host[:port]`. -/
structure Origin extends Authority where
  scheme : Bytes
  isScheme : colon ∉ scheme

def Authority.text (a : Authority) : Bytes := a.host ++ a.port.elim [] (colon :: ·)

def Origin.text (o : Origin) : Bytes := o.scheme ++ (ascii "://" ++ o.toAuthority.text)

/-- An address in brackets without a port. -/
def Authority.Bare (a : Authority) : Prop := Bracketed a.host ∧ a.port = none

/-- The hosts are the same but for the case of letters. -/
def Authority.SameHost (a b : Authority) : Prop := lower a.host = lower b.host

variable {rest s : Bytes}

theorem afterScheme_append {scheme : Bytes} (h : colon ∉ scheme) :
    afterScheme (scheme ++ (ascii "://" ++ rest)) = some rest := by
  induction scheme with
  | nil =>
    change afterScheme (colon :: slash :: slash :: rest) = _
    rw [afterScheme, if_pos (by rfl)]
    rfl
  | cons c scheme ih =>
    rw [mem_cons, not_or] at h
    have hp : (ascii "://").isPrefixOf (c :: (scheme ++ (ascii "://" ++ rest))) = false := by
      change (colon == c && _) = false
      rw [beq_eq_false_iff_ne.mpr h.1, Bool.false_and]
    rw [cons_append, afterScheme, if_neg (by simp [hp]), ih h.2]

theorem stripPort_append (h : colon ∉ rest) : stripPort (s ++ colon :: rest) = s := by
  have hr : (s ++ colon :: rest).reverse = rest.reverse ++ colon :: s.reverse := by simp
  rw [stripPort, hr, cut_append (by simpa using h)]
  exact reverse_reverse s

theorem stripPort_of_notMem (h : colon ∉ s) : stripPort s = s := by
  rw [stripPort, cut, if_neg (by simpa using h)]

theorem exists_last_colon (h : colon ∈ s) :
    ∃ pre rest, s = pre ++ colon :: rest ∧ colon ∉ rest := by
  obtain ⟨rest, pre, hr, hn⟩ := eq_append_cons_of_mem (mem_reverse.mpr h)
  refine ⟨pre.reverse, rest.reverse, ?_, by simpa using hn⟩
  rw [← reverse_reverse s, hr]
  simp

theorem mem_lower_iff {d : UInt8} (h : ∀ c, lowerByte c = d ↔ c = d) : d ∈ lower s ↔ d ∈ s := by
  simp [lower, mem_map, h]

theorem stripPort_lower : stripPort (lower s) = lower (stripPort s) := by
  have hl : ∀ c, lowerByte c = colon ↔ c = colon := forall_byte (by decide +kernel)
  by_cases h : colon ∈ s
  · obtain ⟨s, rest, rfl, hr⟩ := exists_last_colon h
    have he : lower (s ++ colon :: rest) = lower s ++ colon :: lower rest := by
      rw [lower, map_append, map_cons, (hl colon).mpr rfl]
      rfl
    rw [he, stripPort_append (by rwa [mem_lower_iff hl]), stripPort_append hr]
  · rw [stripPort_of_notMem h, stripPort_of_notMem (by rwa [mem_lower_iff hl])]

namespace Authority

variable {a b : Authority}

/-- The port is removed, except from an address without one. -/
theorem stripPort_text (h : ¬ a.Bare) : stripPort a.text = a.host := by
  cases hp : a.port with
  | none =>
    have hc : colon ∉ a.host := by
      rcases a.isHost with hn | hb
      · exact hn.1
      · exact (h ⟨hb, hp⟩).elim
    rw [text, hp, Option.elim_none, append_nil, stripPort_of_notMem hc]
  | some p =>
    have hc : colon ∉ p := fun hm => absurd (a.isPort p hp colon hm) (by decide)
    rw [text, hp, Option.elim_some, stripPort_append hc]

theorem Bare.text_eq (h : a.Bare) : a.text = a.host := by
  rw [text, h.2, Option.elim_none, append_nil]

/-- What is left of an address has no closing bracket. -/
theorem Bare.strip_eq (h : a.Bare) : ∃ s, stripPort a.text = 0x5b :: s ∧ 0x5d ∉ s := by
  obtain ⟨addr, he, hc, hb⟩ := h.1
  obtain ⟨pre, rest, rfl, hr⟩ := exists_last_colon hc
  have hs : 0x5b :: (pre ++ colon :: rest ++ [0x5d]) = (0x5b :: pre) ++ colon ::
    (rest ++ [0x5d]) := by simp
  refine ⟨pre, ?_, fun hm => hb (mem_append_left _ hm)⟩
  rw [h.text_eq, he, hs, stripPort_append (by simpa [colon] using hr)]

/-- So it is no host. -/
theorem Bare.strip_ne (h : a.Bare) : lower (stripPort a.text) ≠ lower b.host := by
  obtain ⟨s, hs, hn⟩ := h.strip_eq
  rw [hs]
  intro he
  rcases b.isHost with hb | ⟨addr, hb, -⟩
  · exact hb.2 ((mem_lower_iff (forall_byte (by decide +kernel))).mp (he ▸ mem_cons_self))
  · have hin : (0x5d : UInt8) ∈ lower (0x5b :: s) := by
      rw [he, hb]
      exact (mem_lower_iff (forall_byte (by decide +kernel))).mpr (by simp)
    have hm := (mem_lower_iff (forall_byte (by decide +kernel))).mp hin
    exact hn ((mem_cons.mp hm).resolve_left (by decide))

/-- The check tells the two hosts apart: no address without a port is compared with the same host
written with one, and none with an address that differs from it behind the last colon alone. -/
def Told (a b : Authority) : Prop :=
  ((a.Bare ↔ ¬ b.Bare) → ¬ a.SameHost b) ∧
    (a.Bare → b.Bare → lower (stripPort a.host) = lower (stripPort b.host) → a.SameHost b)

end Authority

open Authority in
/-- The origin is accepted exactly when its host is that of the request, if and only if the two are
told apart. -/
theorem checkSameOrigin_iff {o : Origin} {b : Authority} :
    (checkSameOrigin o.text b.text = true ↔ o.SameHost b) ↔ o.Told b := by
  have hc : checkSameOrigin o.text b.text = true ↔
      lower (stripPort o.toAuthority.text) = lower (stripPort b.text) := by
    rw [checkSameOrigin, Origin.text, afterScheme_append o.isScheme, Option.getD_some,
      asciiEqualFold, decide_eq_true_iff]
  rw [hc, Told]
  by_cases ho : o.Bare
  · by_cases hb : b.Bare
    · have hs (h : o.SameHost b) : lower (stripPort o.host) = lower (stripPort b.host) := by
        rw [← stripPort_lower, ← stripPort_lower]
        exact congrArg stripPort h
      rw [ho.text_eq, hb.text_eq]
      exact ⟨fun h => ⟨fun hn => absurd hb (hn.mp ho), fun _ _ => h.mp⟩, fun h => ⟨h.2 ho hb, hs⟩⟩
    · rw [stripPort_text hb]
      exact ⟨fun h => ⟨fun _ he => ho.strip_ne (h.mpr he), fun _ h' => absurd h' hb⟩,
        fun h => ⟨fun he => absurd he ho.strip_ne,
          fun he => absurd he (h.1 ⟨fun _ => hb, fun _ => ho⟩)⟩⟩
  · rw [stripPort_text ho]
    by_cases hb : b.Bare
    · exact ⟨fun h => ⟨fun _ he => hb.strip_ne (h.mpr he).symm, fun h' => absurd h' ho⟩,
        fun h => ⟨fun he => absurd he.symm hb.strip_ne,
          fun he => absurd he (h.1 ⟨fun h' => absurd h' ho, fun h' => absurd hb h'⟩)⟩⟩
    · rw [stripPort_text hb]
      exact ⟨fun _ => ⟨fun hn => absurd (hn.mpr hb) ho, fun h' => absurd h' ho⟩, fun _ => Iff.rfl⟩

/-- The origin `http://[::1]`. -/
def loopback : Origin where
  host := ascii "[::1]"
  port := none
  isAscii := by decide +kernel
  isHost := .inr ⟨ascii "::1", rfl, by decide +kernel, by decide +kernel⟩
  isPort := nofun
  scheme := ascii "http"
  isScheme := by decide +kernel

/-- It is accepted by the host `[::2]`, and refused by `[::1]:8080`. -/
theorem loopback_mistaken :
    ∃ a b : Authority, a.text = ascii "[::2]" ∧ b.text = ascii "[::1]:8080" ∧
    checkSameOrigin loopback.text a.text = true ∧ ¬ loopback.SameHost a ∧
    checkSameOrigin loopback.text b.text = false ∧ loopback.SameHost b :=
  ⟨⟨ascii "[::2]", none, by decide +kernel,
    .inr ⟨ascii "::2", rfl, by decide +kernel, by decide +kernel⟩, nofun⟩,
    ⟨ascii "[::1]", some (ascii "8080"), by decide +kernel,
      .inr ⟨ascii "::1", rfl, by decide +kernel, by decide +kernel⟩, by decide +kernel⟩,
    rfl, rfl, by decide +kernel, by unfold Authority.SameHost; decide +kernel,
    by decide +kernel, rfl⟩

end Celeris.WebSocket
