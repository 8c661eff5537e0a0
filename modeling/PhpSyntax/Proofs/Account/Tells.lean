/-
What the parts of a body note.

`Told` says of the outcome of a part that the stream has passed to where it ends, with notes
of which `Q` holds beside those taken before.  It also sets the outcome beside the one with
both versions of the language switched on, for plain texts: where the part ends, so does
that one, and where only that one ends, a construct has been noted that the options do not
admit.  `Tells` says so of a part whose calls are answered as rules promise.  There is one
rule for each action and each way of composing them.
-/
import Mathlib.Tactic.Abel
import PhpSyntax.Proofs.Account.Promise

namespace PhpSyntax

variable {α β : Type} {x : Text} {e d : Notes} {s : ParseState}
  {Q R : Notes → α → ParseState → Prop}

/-! ## Outcomes -/

/-- What has been noted behind an outcome, and how it goes with that of the same part with
both versions of the language switched on. -/
structure Told (x : Text) (e : Notes) (s : ParseState) (Q : Notes → α → ParseState → Prop)
    (o modern : Outcome α) : Prop where
  ok : ∀ {a t}, o = .ok (a, t) → ∃ f, Passes x s.stream f t.stream ∧ Q (e + f) a t
  lift : x.IsPlain → ∀ {a t}, o = .ok (a, t) → modern = .ok (a, t.modern)
  shut : x.IsPlain → ∀ {fault a t}, o = .error fault → modern = .ok (a, t) →
    ∃ f, Passes x s.modern.stream f t.stream ∧ Q (e + f) a t ∧
      ∃ g, Note.gate g ∈ f ∧ g.isOpen s.stream.options = false

def Informs (x : Text) (answer : (c : Shape) → Rule c → ParseState → Outcome c.Value) : Prop :=
  ∀ {c : Shape} (r : Rule c) (s : ParseState), r.Apt s → s.stream.Of x →
    Told x r.owes s (r.Yields x s) (answer c r s) (answer c r s.modern)

def Tells (x : Text) (e : Notes) (p : Parser α) (s : ParseState)
    (Q : Notes → α → ParseState → Prop) : Prop :=
  ∀ answer, Informs x answer → s.stream.Of x →
    Told x e s Q ((p s).eval answer) ((p s.modern).eval answer)

namespace Told

/-- An outcome that is the same with both versions switched on. -/
theorem of_ok {a : α} {t : ParseState} {f : Notes} (h : Passes x s.stream f t.stream)
    (hq : Q (e + f) a t) : Told x e s Q (.ok (a, t)) (.ok (a, t.modern)) := by
  refine ⟨fun ho => ?_, fun _ _ _ ho => ?_, fun _ _ _ _ ho => ?_⟩
  · cases ho
    exact ⟨f, h, hq⟩
  · cases ho
    rfl
  · cases ho

theorem of_error {f f' : Fault} : Told x e s Q (.error f) (.error f') := by
  refine ⟨fun ho => ?_, fun _ _ _ ho => ?_, fun _ _ _ _ _ ho => ?_⟩
  all_goals cases ho

theorem mono {o modern : Outcome α} (h : Told x e s Q o modern)
    (hQ : ∀ f a t, Q f a t → R f a t) : Told x e s R o modern := by
  refine ⟨fun ho => ?_, h.lift, fun hx _ _ _ ho hm => ?_⟩
  · obtain ⟨f, hpass, hq⟩ := h.ok ho
    exact ⟨f, hpass, hQ _ _ _ hq⟩
  · obtain ⟨f, hpass, hq, hgate⟩ := h.shut hx ho hm
    exact ⟨f, hpass, hQ _ _ _ hq, hgate⟩

end Told

namespace Tells

/-! ## Composition -/

theorem mono {p : Parser α} (h : Tells x e p s Q) (hQ : ∀ f a t, Q f a t → R f a t) :
    Tells x e p s R :=
  fun answer ha hs => (h answer ha hs).mono hQ

/-- What holds at every place of the text may be used. -/
theorem of {p : Parser α} (h : s.stream.Of x → Tells x e p s Q) : Tells x e p s Q :=
  fun answer ha hs => h hs answer ha hs

protected theorem pure {a : α} (h : Q e a s) : Tells x e (pure a) s Q :=
  fun _ _ _ => .of_ok .refl (by rwa [add_zero])

protected theorem bind {p : Parser α} {f : α → Parser β} {Q' : Notes → β → ParseState → Prop}
    (h : Tells x e p s Q) (hf : ∀ e' a t, Q e' a t → Tells x e' (f a) t Q') :
    Tells x e (p >>= f) s Q' := by
  intro answer ha hs
  have htold := h answer ha hs
  have eval (u : ParseState) : ((p >>= f) u).eval answer =
      ((p u).eval answer).andThen fun a t => (f a t).eval answer :=
    Step.eval_bind_eq answer (p u) f
  rw [eval, eval]
  cases hp : (p s).eval answer with
  | ok at' =>
    obtain ⟨a, t⟩ := at'
    obtain ⟨g, hpass, hq⟩ := htold.ok hp
    have hnext := hf _ a t hq answer ha (hpass.of hs)
    refine ⟨fun ho => ?_, fun hx _ _ ho => ?_, fun hx _ _ _ ho hm => ?_⟩
    · obtain ⟨k, hpass', hq'⟩ := hnext.ok ho
      exact ⟨g + k, hpass.trans hpass', by rwa [← add_assoc]⟩
    · rw [htold.lift hx hp]
      exact hnext.lift hx ho
    · rw [htold.lift hx hp] at hm
      obtain ⟨k, hpass', hq', gate, hgate, hshut⟩ := hnext.shut hx ho hm
      refine ⟨g + k, (hpass.modern hs hx).trans hpass', by rwa [← add_assoc], gate, ?_, ?_⟩
      · exact Multiset.mem_add.mpr (Or.inr hgate)
      · rw [← hpass.options]
        exact hshut
  | error fault =>
    refine ⟨fun ho => ?_, fun _ _ _ ho => ?_, fun hx _ b u ho hm => ?_⟩
    · cases ho
    · cases ho
    · cases hm' : (p s.modern).eval answer with
      | error fault' =>
        rw [hm'] at hm
        cases hm
      | ok at' =>
        -- The part goes on only with both versions switched on, and so does the rest.
        rw [hm'] at hm
        obtain ⟨g, hpass, hq, gate, hgate, hshut⟩ := htold.shut hx hp hm'
        have hnext := hf _ _ _ hq answer ha (hpass.of (hs.modern hx.2))
        obtain ⟨k, hpass', hq'⟩ := hnext.ok hm
        refine ⟨g + k, hpass.trans hpass', by rwa [← add_assoc], gate, ?_, hshut⟩
        exact Multiset.mem_add.mpr (Or.inl hgate)

protected theorem map {p : Parser α} {f : α → β} {Q' : Notes → β → ParseState → Prop}
    (h : Tells x e p s Q) (hf : ∀ e' a t, Q e' a t → Q' e' (f a) t) :
    Tells x e (f <$> p) s Q' :=
  .bind h fun e' a t hq => .pure (hf e' a t hq)

protected theorem ite {c : Prop} [Decidable c] {p q : Parser α} (hp : c → Tells x e p s Q)
    (hq : ¬c → Tells x e q s Q) : Tells x e (if c then p else q) s Q := by
  by_cases hc : c
  · rw [if_pos hc]
    exact hp hc
  · rw [if_neg hc]
    exact hq hc

/-- Two ways to a value that the rest depends on. -/
protected theorem join {γ : Type} {c : Prop} [Decidable c] {p q : Parser γ} {f : γ → Parser α}
    {P : Notes → γ → ParseState → Prop} (hp : c → Tells x e p s P) (hq : ¬c → Tells x e q s P)
    (hf : ∀ e' a t, P e' a t → Tells x e' (f a) t Q) :
    Tells x e (if c then p >>= f else q >>= f) s Q :=
  .ite (fun hc => .bind (hp hc) hf) fun hc => .bind (hq hc) hf

/-- A part that may be left out in front of the rest. -/
theorem possibly {γ : Type} {c : Prop} [Decidable c] {p : Parser γ} {q : Parser α}
    {P : Notes → ParseState → Prop} (hp : c → Tells x e p s fun e' _ t => P e' t)
    (hs : ¬c → P e s) (hq : ∀ e' t, P e' t → Tells x e' q t Q) :
    Tells x e (if c then p >>= fun _ => q else q) s Q :=
  .ite (fun hc => .bind (hp hc) fun e' _ t ht => hq e' t ht) fun hc => hq e s (hs hc)

/-! ## Looking at the state -/

protected theorem read {γ : Type} {g : ParseState → γ} {f : γ → Parser α}
    (h : Tells x e (f (g s)) s Q)
    (hg : s.stream.Of x → x.HasNoFn → g s.modern = g s) :
    Tells x e (Parser.read g >>= f) s Q := by
  intro answer ha hs
  have htold := h answer ha hs
  refine ⟨htold.ok, fun hx _ _ ho => ?_, fun hx _ _ _ ho hm => ?_⟩
  · show (f (g s.modern) s.modern).eval answer = _
    rw [hg hs hx.2]
    exact htold.lift hx ho
  · have hm : (f (g s.modern) s.modern).eval answer = _ := hm
    rw [hg hs hx.2] at hm
    exact htold.shut hx ho hm

protected theorem kind {f : TokenKind → Parser α} (h : Tells x e (f s.kind) s Q) :
    Tells x e (Parser.kind >>= f) s Q := .read h fun _ _ => rfl

protected theorem text {f : String → Parser α} (h : Tells x e (f s.stream.current.text) s Q) :
    Tells x e (Parser.text >>= f) s Q := .read h fun _ _ => rfl

protected theorem peek {f : TokenKind → Parser α} (h : Tells x e (f s.stream.peek) s Q) :
    Tells x e (Parser.peek >>= f) s Q := .read h fun hs hx => Stream.peek_modern hs hx

protected theorem isAt {j : TokenKind} {p q : Parser α} (hp : s.kind = j → Tells x e p s Q)
    (hq : s.kind ≠ j → Tells x e q s Q) :
    Tells x e (Parser.isAt j >>= fun c => if c = true then p else q) s Q :=
  .read (.ite (fun h => hp (of_decide_eq_true h)) fun h => hq fun e => h (decide_eq_true e))
    fun _ _ => rfl

protected theorem isIn {c : Category} {p q : Parser α}
    (hp : c.set.contains s.kind = true → Tells x e p s Q)
    (hq : c.set.contains s.kind = false → Tells x e q s Q) :
    Tells x e (Parser.isIn c >>= fun c => if c = true then p else q) s Q :=
  .read (.ite hp fun h => hq (Bool.eq_false_iff.mpr h)) fun _ _ => rfl

protected theorem sees {j : TokenKind} {f : Bool → Parser α}
    (h : Tells x e (f (decide (s.kind = j))) s Q) : Tells x e (Parser.isAt j >>= f) s Q :=
  .read h fun _ _ => rfl

protected theorem atEnd {f : Bool → Parser α}
    (h : Tells x e (f (decide (s.kind = .eof))) s Q) : Tells x e (Parser.atEnd >>= f) s Q :=
  .read h fun _ _ => rfl

/-! ## Changing the state -/

theorem of_update {g : ParseState → α × ParseState}
    (hg : g s.modern = ((g s).1, (g s).2.modern)) (hs : (g s).2.stream = s.stream)
    (h : Q e (g s).1 (g s).2) : Tells x e (Parser.update g) s Q := by
  intro answer _ _
  show Told x e s Q (.ok (g s)) (.ok (g s.modern))
  rw [hg]
  refine .of_ok (f := 0) ?_ (by rwa [add_zero])
  rw [hs]
  exact .refl

/-- Go into a namespace or out of it. -/
theorem nest (g : Nat → Nat) :
    Tells x e (Parser.modify fun s => { s with namespaceDepth := g s.namespaceDepth }) s
      fun f _ _ => f = e :=
  of_update (g := fun s => ((), { s with namespaceDepth := g s.namespaceDepth })) rfl rfl rfl

/-- Consume the current token, with what can be noted of it. -/
theorem of_advance {Q : Notes → Unit → ParseState → Prop} {f : Notes}
    (h : Passes x s.stream f s.stream.advance) (hq : Q (e + f) () s.advance) :
    Tells x e Parser.advance s Q := by
  intro answer _ hs
  refine ⟨fun ho => ?_, fun hx _ _ ho => ?_, fun _ _ _ _ ho => ?_⟩
  · cases ho
    exact ⟨f, h, hq⟩
  · cases ho
    have hadvance : s.modern.advance = s.advance.modern := by
      rw [ParseState.advance, ParseState.advance, ParseState.modern, ParseState.modern,
        Stream.modern_advance hs hx.2]
    show Except.ok ((), s.modern.advance) = _
    rw [hadvance]
  · cases ho

end Tells
end PhpSyntax
