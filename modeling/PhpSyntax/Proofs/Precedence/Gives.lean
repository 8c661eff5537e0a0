import PhpSyntax.Proofs.Trace.Move

namespace PhpSyntax

def ParseState.StopsAt (s : ParseState) (min : Nat) : Prop :=
  ∀ op, Infix.ofToken? s.kind = some op → op.precedence < min

namespace Node

def IsAtom (n : Node) : Prop := n.operator? = none

/-- The node may stand to the left of the operator that comes next, if that one is as tight
as `min`. -/
structure Fits (n : Node) (min : Nat) (s : ParseState) : Prop where
  binds : n.binds min = true
  left : ∀ op, Infix.ofToken? s.kind = some op → min ≤ op.precedence → n.binds op.leftMin = true

theorem IsAtom.fits {n : Node} (h : n.IsAtom) (min : Nat) (s : ParseState) : n.Fits min s :=
  ⟨binds_of_none h min, fun _ _ _ => binds_of_none h _⟩

end Node

def Rule.Gives : {c : Shape} → Rule c → ParseState → c.Value → ParseState → Prop
  | _, .operand, _, n, _ | _, .variable _, _, n, _ | _, .simpleVariable, _, n, _
  | _, .name, _, n, _ => n.IsAtom
  | _, .lookups base _, _, n, _ => base.IsAtom → n.IsAtom
  | _, .expression min, _, n, t => n.binds min = true ∧ t.StopsAt min
  | _, .infixes min left, s, n, t => left.Fits min s → n.binds min = true ∧ t.StopsAt min
  | _, _, _, _, _ => True

variable {α β : Type}

/-- Where calls yield what rules promise, the body ends where `V` holds. -/
def Step.Gives (V : α → ParseState → Prop) : Step α → Prop
  | .done a s => V a s
  | .stop _ => True
  | .advance s next => (next s.advance).Gives V
  | .call r s next => ∀ v t, r.Gives s v t → (next v t).Gives V

namespace Step.Gives

variable {V W : α → ParseState → Prop}

theorem trivially (t : Step α) : t.Gives fun _ _ => True := by
  induction t with
  | done | stop => trivial
  | advance s next ih => exact ih _
  | call r s next ih => exact fun v t _ => ih v t

theorem bind {t : Step α} {f : α → ParseState → Step β} {V' : β → ParseState → Prop}
    (h : t.Gives V) (hf : ∀ a s, V a s → (f a s).Gives V') : (t.bind f).Gives V' := by
  induction t with
  | done a s => exact hf a s h
  | stop => trivial
  | advance s next ih => exact ih _ h
  | call r s next ih => exact fun v t hv => ih v t (h v t hv)

/-- Where a body ends is where its last part ends. -/
theorem last {p : Parser β} {f : β → Parser α} (hf : ∀ b t, (f b t).Gives V) (s : ParseState) :
    ((p >>= f) s).Gives V :=
  (trivially (p s)).bind fun b t _ => hf b t

/-- What a body does about the kind of the current token. -/
theorem kind {f : TokenKind → Parser α} {s : ParseState} (h : (f s.kind s).Gives V) :
    ((Parser.kind >>= f) s).Gives V := h

theorem mono {t : Step α} (h : t.Gives V) (hVW : ∀ a s, V a s → W a s) : t.Gives W := by
  induction t with
  | done a s => exact hVW a s h
  | stop => trivial
  | advance s next ih => exact ih _ h
  | call r s next ih => exact fun v t hv => ih v t (h v t hv)

theorem eval {t : Step α} {answer : (c : Shape) → Rule c → ParseState → Outcome c.Value}
    (h : t.Gives V)
    (ha : ∀ {c : Shape} {r : Rule c} {s t : ParseState} {v : c.Value},
      answer c r s = .ok (v, t) → r.Gives s v t)
    {a : α} {s : ParseState} (ht : t.eval answer = .ok (a, s)) : V a s := by
  induction t with
  | done =>
    cases ht
    exact h
  | stop => cases ht
  | advance s next ih => exact ih _ h ht
  | @call c r s next ih =>
    simp only [Step.eval] at ht
    split at ht
    · next v t hv => exact ih v t (h v t (ha hv)) ht
    · cases ht

end Step.Gives

def Gives (p : Parser α) (V : α → Prop) : Prop := ∀ s, (p s).Gives fun a _ => V a

namespace Gives

variable {V : α → Prop}

protected theorem pure {a : α} (h : V a) : Gives (pure a) V := fun _ => h

protected theorem bind {p : Parser α} {f : α → Parser β} {V' : β → Prop} (hp : Gives p V)
    (hf : ∀ a, V a → Gives (f a) V') : Gives (p >>= f) V' :=
  fun s => (hp s).bind fun a t ha => hf a ha t

/-- What a body yields is what its last part yields. -/
theorem last {p : Parser β} {f : β → Parser α} (hf : ∀ b, Gives (f b) V) : Gives (p >>= f) V :=
  Step.Gives.last hf

protected theorem map {p : Parser α} {f : α → β} {V' : β → Prop} (hp : Gives p V)
    (hf : ∀ a, V a → V' (f a)) : Gives (f <$> p) V' :=
  .bind hp fun a ha => .pure (hf a ha)

protected theorem ite {c : Prop} [Decidable c] {p q : Parser α} (hp : Gives p V)
    (hq : Gives q V) : Gives (if c then p else q) V := by
  split
  · exact hp
  · exact hq

/-- A part that may be left out in front of the rest. -/
theorem possibly {c : Prop} [Decidable c] {p : Parser β} {q : Parser α} (hq : Gives q V) :
    Gives (if c then p >>= fun _ => q else q) V := .ite (last fun _ => hq) hq

theorem call {c : Shape} {r : Rule c} {V : c.Value → Prop} (h : ∀ s v t, r.Gives s v t → V v) :
    Gives (Parser.call r) V :=
  fun s v t hv => h s v t hv

/-! ## Nodes without an operator at the top -/

theorem finish {o : Opened} {p : Production Node} (h : p.infix? = none) :
    Gives (Parser.finish o p) Node.IsAtom := by
  intro s
  show (Node.mk (s.finishNode o).1 p).operator? = none
  rw [Node.operator?, h]
  rfl

theorem raise {cause : Cause} {message : String} {e : Expected} :
    Gives (Parser.raise cause message e) Node.IsAtom := by
  intro s
  rw [Parser.raise]
  split
  · rfl
  · trivial

theorem missing {e : Expected} : Gives (Parser.missing e) Node.IsAtom := last fun _ => raise

theorem abandon {o : Opened} {n : Node} (h : n.IsAtom) : Gives (Parser.abandon o n) Node.IsAtom :=
  fun _ => h

end Gives
end PhpSyntax
