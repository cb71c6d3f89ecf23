import Celeris.Store.Replay

/-!
# Buffered answers (`handler.go`)

A chain of middlewares that buffer the answer and flush it on the way back, the error path behind
them and what is sent if there is no answer. With the buffers and without them the same is sent,
unless the answer has an empty content type, which the flush takes for `NoContent`, or an error is
left to the error handler: a buffer that nothing was put into is not left again, and what the error
handler answers is kept in it (`transparent_iff`).
-/

namespace Celeris.Store

open Context List

/-- An error as the router tells them apart. -/
inductive HandlerError where
  | http (code : Nat) (message : Bytes)
  | other

/-- What a handler answers, if at all, and returns. -/
structure Task where
  answer : Option Answer
  error : Option HandlerError

def Context.give (c : Context) : Option Answer → Context
  | some (.blob code contentType data) => c.blob code contentType data
  | some (.noContent code) => c.noContent code
  | none => c

/-- A handler behind so many middlewares that buffer. -/
def Task.chain (t : Task) : Nat → Context → Context
  | 0, c => c.give t.answer
  | n + 1, c => (t.chain n c.bufferResponse).flushResponse

/-- `handleError`, with what the error handler answers: nothing if there is none. -/
def handleError (onError : Option Answer) (c : Context) (err : HandlerError) : Context :=
  if c.sent.isSome then c
  else
    let c := c.give onError
    if c.sent.isSome then c
    else
      let hdrs := c.respHeaders ++
        [(ascii "content-type", ascii "text/plain"), (ascii "cache-control", ascii "no-store")]
      match err with
      | .http code message => { c with sent := some ⟨code, none, hdrs, message⟩ }
      | .other => { c with sent := some ⟨500, none, hdrs, ascii "Internal Server Error"⟩ }

section

variable (emptyAnswerHeaders : Headers → Headers)

/-- What `HandleStream` does behind the chain and the error path. -/
def finish (c : Context) : Context :=
  let c := if c.buffered = true ∧ c.sent = none then { c with bufferDepth := 1 }.flushResponse
    else c
  if c.sent.isSome then c else { c with
    sent := some ⟨200, none, emptyAnswerHeaders c.respHeaders, []⟩ }

variable (hs : Headers) (t : Task) (onError : Option Answer)

/-- `HandleStream`, with the headers that were set and so many buffers: what it sends. -/
def handleStream (n : Nat) : Option Sent :=
  let c := t.chain n { respHeaders := hs }
  (finish emptyAnswerHeaders (t.error.elim c (handleError onError c))).sent

/-- With so many buffers a response is sent, and the same as without them. -/
def Transparent (n : Nat) : Prop :=
  ∃ s s', handleStream emptyAnswerHeaders hs t onError n = some s ∧
    handleStream emptyAnswerHeaders hs t onError 0 = some s' ∧
    s.status = s'.status ∧ s.headers = s'.headers ∧ s.body = s'.body

end

section

variable {f : Headers → Headers} {hs : Headers} {t : Task} {onError : Option Answer} {a : Answer}
  {c : Context} {s : Sent} {n d : Nat}

/-- Buffers that nothing is put into are not left. -/
theorem chain_none (h : t.answer = none) :
    t.chain n ⟨hs, d, false, {}, none⟩ = ⟨hs, d + n, false, {}, none⟩ := by
  induction n generalizing d with
  | zero => simp [Task.chain, h, give]
  | succ n ih =>
    rw [Task.chain, bufferResponse, ih, flushResponse, if_pos (.inr rfl), Nat.succ_add_eq_add_succ]

/-- An answer stays in the outermost buffer. -/
theorem chain_some (h : t.answer = some a) :
    t.chain n ⟨hs, d + 1, false, {}, none⟩ = ⟨hs, d + 1, true, a.captured, none⟩ := by
  induction n generalizing d with
  | zero => cases a <;> simp [Task.chain, h, give, blob, noContent, Answer.captured]
  | succ n ih =>
    rw [Task.chain, bufferResponse, ih]
    simp [flushResponse]

/-- What is sent of an answer. -/
def Answer.sent (hs : Headers) : Answer → Sent
  | .blob code contentType data => .typed code contentType data hs
  | .noContent code => ⟨code, none, hs, []⟩

/-- What the flush sends of an answer. -/
def Answer.flushed (hs : Headers) (a : Answer) : Sent :=
  if a.captured.type = [] then ⟨a.captured.status, none, hs, []⟩
  else .typed a.captured.status a.captured.type a.captured.body hs

/-- What is sent of an error. -/
def HandlerError.sent (hs : Headers) (err : HandlerError) : Sent :=
  let hdrs := hs ++ [(ascii "content-type", ascii "text/plain"),
    (ascii "cache-control", ascii "no-store")]
  match err with
  | .http code message => ⟨code, none, hdrs, message⟩
  | .other => ⟨500, none, hdrs, ascii "Internal Server Error"⟩

/-- A response that was sent stays: nothing behind it sends another. -/
theorem sent_stays (h : c.sent = some s) :
    (∀ a, (c.give a).sent = some s) ∧ c.flushResponse.sent = some s ∧
      (∀ onError err, (handleError onError c err).sent = some s) ∧
        ∀ f, (finish f c).sent = some s := by
  refine ⟨fun a => ?_, ?_, fun onError err => ?_, fun f => ?_⟩
  · rcases a with _ | _ | _ <;> simp [give, blob, noContent, h]
  · simp [flushResponse, h]
  · simp [handleError, h]
  · simp [finish, h]

theorem handleStream_of_sent (h : (t.chain n { respHeaders := hs }).sent = some s) :
    handleStream f hs t onError n = some s := by
  rw [handleStream]
  cases t.error with
  | none => exact (sent_stays h).2.2.2 f
  | some err => exact (sent_stays ((sent_stays h).2.2.1 onError err)).2.2.2 f

theorem handleStream_answer (h : t.answer = some a) :
    handleStream f hs t onError n = some (if n = 0 then a.sent hs else a.flushed hs) := by
  apply handleStream_of_sent
  cases n with
  | zero => cases a <;> simp [Task.chain, h, give, blob, noContent, Answer.sent]
  | succ n =>
    rw [Task.chain, bufferResponse, chain_some h]
    by_cases ht : a.captured.type = [] <;>
      simp [Answer.flushed, flushResponse, noContent, blob, ht]

theorem handleStream_none (h : t.answer = none) :
    handleStream f hs t onError n = some (match t.error, onError, n with
      | none, _, _ => ⟨200, none, f hs, []⟩
      | some _, some a, 0 => a.sent hs
      | some err, _, _ => err.sent hs) := by
  rw [handleStream, chain_none h]
  rcases t.error with _ | _ | _ <;> rcases onError with _ | _ | _ <;> cases n <;>
    simp [finish, handleError, give, blob, noContent, HandlerError.sent, Answer.sent]

/-- What is sent of an error has one header more of a name than what is sent of an answer. -/
theorem headers_ne {err : HandlerError} : (err.sent hs).headers ≠ (a.sent hs).headers := by
  intro heq
  have hc := congrArg (countP fun h => h.1 = ascii "cache-control") heq
  have hne : ascii "content-type" ≠ ascii "cache-control" ∧
      ascii "content-length" ≠ ascii "cache-control" := by
    decide
  cases err <;> cases a <;> simp [HandlerError.sent, Answer.sent, Sent.typed, hne] at hc

/-- The flush sends an answer as it is exactly if it has no empty type. -/
theorem flushed_eq_iff :
    ((a.flushed hs).status = (a.sent hs).status ∧ (a.flushed hs).headers = (a.sent hs).headers ∧
      (a.flushed hs).body = (a.sent hs).body) ↔ ∀ code data, a ≠ .blob code [] data := by
  cases a with
  | noContent code => simp [Answer.flushed, Answer.sent, Answer.captured]
  | blob code contentType data =>
    by_cases ht : contentType = []
    · refine iff_of_false (fun hsame => ?_) fun hne => hne code data (by rw [ht])
      have hl := congrArg length hsame.2.1
      simp only [Answer.flushed, Answer.sent, Answer.captured, Sent.typed, ht, if_true,
        length_append, length_cons] at hl
      omega
    · simp [Answer.flushed, Answer.sent, Answer.captured, ht]

end

/-- Buffers are transparent exactly if there are none, or the answer has no empty type and no error
is left for the error handler to answer. -/
theorem transparent_iff (emptyAnswerHeaders : Headers → Headers) (hs : Headers) (t : Task)
    (onError : Option Answer) (n : Nat) : Transparent emptyAnswerHeaders hs t onError n ↔
      n = 0 ∨ (∀ code data, t.answer ≠ some (.blob code [] data)) ∧
        (t.answer = none → t.error = none ∨ onError = none) := by
  unfold Transparent
  cases n with
  | zero =>
    refine iff_of_true ?_ (.inl rfl)
    cases ha : t.answer with
    | none => simp [handleStream_none ha]
    | some a => simp [handleStream_answer ha]
  | succ n =>
    cases ha : t.answer with
    | none =>
      rw [handleStream_none ha, handleStream_none ha]
      rcases t.error with _ | err <;> rcases onError with _ | a <;> simp [headers_ne]
    | some a =>
      rw [handleStream_answer ha, handleStream_answer ha]
      simp [flushed_eq_iff]

/-- An answer without a type loses its body, and the answer of the error handler is not sent. -/
theorem buffering_not_transparent :
    ¬ Transparent id [] ⟨some (.blob 200 [] (ascii "hi")), none⟩ none 1 ∧
      ¬ Transparent id [] ⟨none, some .other⟩ (some (.noContent 404)) 1 := by
  refine ⟨?_, ?_⟩ <;> rintro ⟨s, s', ⟨⟩, ⟨⟩, hst, -, hb⟩
  · cases hb
  · cases hst

end Celeris.Store
