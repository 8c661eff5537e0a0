/-
The two modes, outcome by outcome.

A state that tolerates errors has a strict twin (`ParseState.strict`), which stops at the
first one.  `Agrees` says how the two outcomes of one body from the two states go
together: they are the same as long as no error was recorded, and from the first recorded
error on the strict outcome is the fault that this error tells of.  `Meets` puts that
beside what the outcome itself satisfies, and `Meets.bind` composes it, so it has to be
checked for the single actions only.
-/
import PhpSyntax.Proofs.Trace.Move

namespace PhpSyntax

def Options.strict (o : Options) : Options := { o with suppressErrors := false }

def Stream.strict (s : Stream) : Stream := { s with options := s.options.strict }

def ParseState.strict (s : ParseState) : ParseState := { s with stream := s.stream.strict }

/-- The error node tells what the fault does: its message and where it is. -/
def Node.Records (n : Node) (f : Fault) : Prop :=
  (∃ token expected, n.production = .error f.message token f.line expected) ∧
    n.span.start.line = f.line ∧ n.span.start.column = f.column

/-- The first of these error nodes tells what the fault does. -/
def FirstRecords (f : Fault) (errors : List Node) : Prop :=
  ∃ n ns, errors = n :: ns ∧ n.Records f

theorem FirstRecords.of_prefix {f : Fault} {ms ns : List Node} (h : FirstRecords f ms)
    (hp : ms <+: ns) : FirstRecords f ns := by
  obtain ⟨n, rest, rfl, hn⟩ := h
  obtain ⟨more, rfl⟩ := hp
  exact ⟨n, rest ++ more, rfl, hn⟩

variable {α β : Type}

def Agrees (strict tolerant : Outcome α) : Prop :=
  match strict with
  | .ok (a, t) => ∃ u, tolerant = .ok (a, u) ∧ u.errors = #[] ∧ t = u.strict
  | .error f =>
    (tolerant = .error f ∧ f.cause = .listAsKey) ∨
      (f.cause.isFatal = false ∧
        match tolerant with
        | .ok (_, u) => FirstRecords f u.errors.toList
        | .error g => g.cause = .listAsKey)

def Outcome.andThen (o : Outcome α) (f : α → ParseState → Outcome β) : Outcome β :=
  match o with
  | .ok (a, s) => f a s
  | .error e => .error e

theorem Step.eval_bind_eq (answer : (c : Shape) → Rule c → ParseState → Outcome c.Value)
    (t : Step α) (f : α → ParseState → Step β) :
    (t.bind f).eval answer = (t.eval answer).andThen fun a s => (f a s).eval answer :=
  eval_bind answer t f

/-- What holds of an outcome from the state `s`, and of the strict one beside it.  The
parse never gives up, and only one cause ends it in tolerant mode. -/
structure Meets (s : ParseState) (Q : α → ParseState → Prop) (o strict : Outcome α) : Prop where
  ok : ∀ {a t}, o = .ok (a, t) →
    Q a t ∧ t.tolerates = s.tolerates ∧ s.errors.toList <+: t.errors.toList
  error : ∀ {f}, o = .error f →
    f.cause ≠ .unclosedNode ∧ (s.tolerates = true → f.cause = .listAsKey)
  agrees : s.tolerates = true → s.errors = #[] → Agrees strict o

namespace Meets

variable {s : ParseState} {Q R : α → ParseState → Prop} {o strict : Outcome α}

theorem mono (h : Meets s Q o strict) (hQ : ∀ a t, Q a t → R a t) : Meets s R o strict := by
  refine ⟨fun ho => ?_, h.error, h.agrees⟩
  obtain ⟨hq, ht, he⟩ := h.ok ho
  exact ⟨hQ _ _ hq, ht, he⟩

theorem of_ok {a : α} {t : ParseState} (hQ : Q a t) (ht : t.tolerates = s.tolerates)
    (he : t.errors = s.errors) : Meets s Q (.ok (a, t)) (.ok (a, t.strict)) := by
  refine ⟨fun ho => ?_, fun ho => ?_, fun _ hs => ⟨t, rfl, he.trans hs, rfl⟩⟩
  · cases ho
    exact ⟨hQ, ht, [], by rw [he, List.append_nil]⟩
  · cases ho

/-- A fault that ends the parse in either mode. -/
theorem of_fatal {f : Fault} (hf : f.cause = .listAsKey) : Meets s Q (.error f) (.error f) := by
  refine ⟨fun ho => ?_, fun ho => ?_, fun _ _ => Or.inl ⟨rfl, hf⟩⟩
  · cases ho
  · cases ho
    exact ⟨by rw [hf]; decide, fun _ => hf⟩

/-- The two outcomes of one part of a body and of what follows it. -/
theorem bind {Q' : β → ParseState → Prop} {f : α → ParseState → Outcome β}
    (h : Meets s Q o strict) (hf : ∀ a t, Q a t → Meets t Q' (f a t) (f a t.strict)) :
    Meets s Q' (o.andThen f) (strict.andThen f) := by
  refine ⟨fun {b u} ho => ?_, fun {e} ho => ?_, fun hs he => ?_⟩
  · cases o with
    | error e => cases ho
    | ok at' =>
      obtain ⟨hq, ht, hpre⟩ := h.ok rfl
      obtain ⟨hq', ht', hpre'⟩ := (hf _ _ hq).ok ho
      exact ⟨hq', ht'.trans ht, hpre.trans hpre'⟩
  · cases o with
    | error e' =>
      cases ho
      exact h.error rfl
    | ok at' =>
      obtain ⟨hq, ht, _⟩ := h.ok rfl
      obtain ⟨hcause, hfatal⟩ := (hf _ _ hq).error ho
      exact ⟨hcause, fun hs => hfatal (ht.trans hs)⟩
  · have hagrees := h.agrees hs he
    cases strict with
    | ok at' =>
      obtain ⟨u, rfl, hu, hstrict⟩ := hagrees
      obtain ⟨hq, ht, _⟩ := h.ok rfl
      have := (hf _ _ hq).agrees (ht.trans hs) hu
      rw [← hstrict] at this
      exact this
    | error e =>
      rcases hagrees with ⟨rfl, hcause⟩ | ⟨hcause, hrest⟩
      · exact Or.inl ⟨rfl, hcause⟩
      · refine Or.inr ⟨hcause, ?_⟩
        cases o with
        | error g => exact hrest
        | ok at' =>
          obtain ⟨hq, ht, _⟩ := h.ok rfl
          have hnext := hf _ _ hq
          -- What was recorded first stays first, whatever the rest of the body does.
          show (match f at'.1 at'.2 with
            | .ok (_, u) => FirstRecords e u.errors.toList
            | .error g => g.cause = .listAsKey)
          cases hfo : f at'.1 at'.2 with
          | ok bu => exact hrest.of_prefix (hnext.ok hfo).2.2
          | error g => exact (hnext.error hfo).2 (ht.trans hs)

end Meets

/-! ## Strict twins -/

namespace ParseState

theorem strict_openNode (s : ParseState) :
    s.strict.openNode = (s.openNode.1, s.openNode.2.strict) := rfl

theorem strict_openAt (s : ParseState) (p : Position) :
    s.strict.openAt p = ((s.openAt p).1, (s.openAt p).2.strict) := rfl

theorem strict_abandon (s : ParseState) (o : Opened) (n : Node) :
    s.strict.abandon o n = ((s.abandon o n).1, (s.abandon o n).2.strict) := rfl

end ParseState

/-- In strict mode an error is the outcome; in tolerant mode it is recorded. -/
theorem meets_raise {s : ParseState} {Q : Node → ParseState → Prop} {cause : Cause}
    {message : String} {e : Expected} (hc : cause.isFatal = false)
    (hQ : s.tolerates = true → Q (s.errorNode message e) (s.record message e))
    (answer : (c : Shape) → Rule c → ParseState → Outcome c.Value) :
    Meets s Q ((Parser.raise cause message e s).eval answer)
      ((Parser.raise cause message e s.strict).eval answer) := by
  have hstrict : (Parser.raise cause message e s.strict).eval answer =
      .error (s.fault cause message) := rfl
  have hrecoverable : cause ≠ .unclosedNode := fun h => by rw [h] at hc; cases hc
  rw [hstrict]
  by_cases ht : s.tolerates = true
  · have htolerant : (Parser.raise cause message e s).eval answer =
        .ok (s.errorNode message e, s.record message e) := by
      have : s.stream.options.suppressErrors = true := ht
      simp only [Parser.raise, this, if_true]
      rfl
    rw [htolerant]
    refine ⟨fun ho => ?_, fun ho => ?_, fun _ hs => Or.inr ⟨hc, ?_⟩⟩
    · cases ho
      refine ⟨hQ ht, rfl, ?_⟩
      simp only [ParseState.record, Array.toList_push]
      exact List.prefix_append _ _
    · cases ho
    · refine ⟨s.errorNode message e, [], ?_, ⟨_, _, rfl⟩, rfl, rfl⟩
      simp [ParseState.record, hs]
  · have hfault : (Parser.raise cause message e s).eval answer =
        .error (s.fault cause message) := by
      have : s.stream.options.suppressErrors = false := by simpa [ParseState.tolerates] using ht
      simp only [Parser.raise, this, Bool.false_eq_true, if_false]
      rfl
    rw [hfault]
    refine ⟨fun ho => ?_, fun ho => ?_, fun hs => absurd hs ht⟩
    · cases ho
    · cases ho
      exact ⟨hrecoverable, fun hs => absurd hs ht⟩

end PhpSyntax
