/-
Parts of bodies that do the same in two layouts.

`Alike A V p q` relates a part of a body to what it is in another layout: from states that
`A` aligns both go through the same steps, ask for the same rules, and end with values that
`V` relates or with faults that differ in their place only.  There is one rule for each
action and each way of composing them, and the outcomes of whole runs follow from the
bodies (`Step.Alike.eval`).
-/
import PhpSyntax.Proofs.Layout.Aligned

namespace PhpSyntax

variable {A : Alignment} {α β γ : Type}

/-! ## Rules and what they yield -/

def Shape.Like : (c : Shape) → c.Value → c.Value → Prop
  | .node => Same Node.erased
  | .nodes => Same (List.map Node.erased)
  | .segments | .modifiers | .classFlags | .nothing => Eq

inductive Rule.Like : {c : Shape} → Rule c → Rule c → Prop
  | same {c : Shape} (r : Rule c) : Like r r
  | infixes {m n : Node} (min : Nat) (h : m.erased = n.erased) :
    Like (.infixes min m) (.infixes min n)
  | lookups {m n : Node} (readOnly : Bool) (h : m.erased = n.erased) :
    Like (.lookups m readOnly) (.lookups n readOnly)

def Outcome.Alike (A : Alignment) (V : α → α → Prop) : Outcome α → Outcome α → Prop
  | .ok (a, s), .ok (b, t) => V a b ∧ s.Aligned A t
  | .error f, .error g => f.erased = g.erased
  | _, _ => False

/-- Bodies that do the same, step by step. -/
inductive Step.Alike (A : Alignment) (V : α → α → Prop) : Step α → Step α → Prop
  | done {a b : α} {s t : ParseState} (h : V a b) (hs : s.Aligned A t) :
    Alike A V (.done a s) (.done b t)
  | stop {f g : Fault} (h : f.erased = g.erased) : Alike A V (.stop f) (.stop g)
  | advance {s t : ParseState} {next next' : ParseState → Step α}
    (h : Alike A V (next s.advance) (next' t.advance)) :
    Alike A V (.advance s next) (.advance t next')
  | call {c : Shape} {r r' : Rule c} {s t : ParseState}
    {next next' : c.Value → ParseState → Step α} (hr : r.Like r') (hs : s.Aligned A t)
    (h : ∀ v w u u', c.Like v w → u.Aligned A u' → Alike A V (next v u) (next' w u')) :
    Alike A V (.call r s next) (.call r' t next')

namespace Step.Alike

variable {V : α → α → Prop} {x y : Step α}

theorem bind {W : β → β → Prop} {f g : α → ParseState → Step β} (h : x.Alike A V y)
    (hf : ∀ a b s t, V a b → s.Aligned A t → (f a s).Alike A W (g b t)) :
    (x.bind f).Alike A W (y.bind g) := by
  induction h with
  | done h hs => exact hf _ _ _ _ h hs
  | stop h => exact .stop h
  | advance _ ih => exact .advance ih
  | call hr hs _ ih => exact .call hr hs ih

/-- What answers calls alike lets bodies come to the same. -/
theorem eval {answer answer' : (c : Shape) → Rule c → ParseState → Outcome c.Value}
    (ha : ∀ (c : Shape) (r r' : Rule c) (s t : ParseState), r.Like r' → s.Aligned A t →
      (answer c r s).Alike A c.Like (answer' c r' t))
    (h : x.Alike A V y) : (x.eval answer).Alike A V (y.eval answer') := by
  induction h with
  | done h hs => exact ⟨h, hs⟩
  | stop h => exact h
  | advance _ ih => exact ih
  | @call c r r' s t next next' hr hs _ ih =>
    have hanswer := ha c r r' s t hr hs
    simp only [Step.eval]
    generalize answer c r s = out at hanswer
    generalize answer' c r' t = out' at hanswer
    cases out with
    | error f =>
      cases out' with
      | error g => exact hanswer
      | ok _ => exact hanswer.elim
    | ok vu =>
      cases out' with
      | error g => exact hanswer.elim
      | ok wu => exact ih vu.1 wu.1 vu.2 wu.2 hanswer.1 hanswer.2

end Step.Alike

def Alike (A : Alignment) (V : α → α → Prop) (p q : Parser α) : Prop :=
  ∀ s t, s.Aligned A t → (p s).Alike A V (q t)

/-- What the part of a body yields is the same in any layout, as far as `e` goes. -/
abbrev Steady (A : Alignment) (e : α → γ) (p : Parser α) : Prop := Alike A (Same e) p p

namespace Alike

variable {V W : α → α → Prop} {U : β → β → Prop}

/-! ## Composition -/

protected theorem pure {a b : α} (h : V a b) : Alike A V (pure a) (pure b) :=
  fun _ _ hs => .done h hs

protected theorem bind {p q : Parser β} {f g : β → Parser α} (hp : Alike A U p q)
    (hf : ∀ a b, U a b → Alike A V (f a) (g b)) : Alike A V (p >>= f) (q >>= g) :=
  fun s t hs => (hp s t hs).bind fun a b u u' hab hu => hf a b hab u u' hu

/-- A value that is the same in both layouts. -/
theorem see {p q : Parser β} {f g : β → Parser α} (hp : Alike A Eq p q)
    (hf : ∀ a, Alike A V (f a) (g a)) : Alike A V (p >>= f) (q >>= g) :=
  .bind hp fun a _ hab => hab ▸ hf a

/-- A value that is not used. -/
theorem skip {p q : Parser β} {f g : Parser α} (hp : Alike A U p q) (hf : Alike A V f g) :
    Alike A V (p >>= fun _ => f) (q >>= fun _ => g) :=
  .bind hp fun _ _ _ => hf

protected theorem map {p q : Parser β} {f : β → α} (hp : Alike A U p q)
    (hf : ∀ a b, U a b → V (f a) (f b)) : Alike A V (f <$> p) (f <$> q) :=
  .bind hp fun a b hab => .pure (hf a b hab)

protected theorem ite {c : Prop} [Decidable c] {p q p' q' : Parser α} (hp : Alike A V p q)
    (hp' : Alike A V p' q') : Alike A V (if c then p else p') (if c then q else q') := by
  split
  · exact hp
  · exact hp'

/-- A choice by what both layouts show. -/
theorem test {p q : Parser Bool} {f g f' g' : Parser α} (hp : Alike A Eq p q)
    (hf : Alike A V f g) (hf' : Alike A V f' g') :
    Alike A V (p >>= fun c => if c = true then f else f')
      (q >>= fun c => if c = true then g else g') :=
  .see hp fun _ => .ite hf hf'

/-- Two ways to a value that the rest depends on. -/
protected theorem join {c : Prop} [Decidable c] {p q p' q' : Parser β} {f g : β → Parser α}
    (hp : Alike A U p q) (hp' : Alike A U p' q')
    (hf : ∀ a b, U a b → Alike A V (f a) (g b)) :
    Alike A V (if c then p >>= f else p' >>= f) (if c then q >>= g else q' >>= g) :=
  .ite (.bind hp hf) (.bind hp' hf)

/-- A part that may be left out in front of the rest. -/
theorem possibly {c : Prop} [Decidable c] {p q : Parser β} {f g : Parser α}
    (hp : Alike A U p q) (hf : Alike A V f g) :
    Alike A V (if c then p >>= fun _ => f else f) (if c then q >>= fun _ => g else g) :=
  .ite (.skip hp hf) hf

/-- A pair, taken apart. -/
theorem pair {γ δ ε ζ : Type} {e : γ → δ} {e' : ε → ζ} {p q : Parser (γ × ε)}
    {f g : γ × ε → Parser α} (hp : Alike A (Same (Prod.map e e')) p q)
    (hf : ∀ a b c d, e a = e b → e' c = e' d → Alike A V (f (a, c)) (g (b, d))) :
    Alike A V (p >>= f) (q >>= g) :=
  .bind hp fun (a, c) (b, d) h => hf a b c d (Prod.mk.inj h).1 (Prod.mk.inj h).2

/-! ## The current token -/

theorem read {f : ParseState → α} (h : ∀ s t, s.Aligned A t → V (f s) (f t)) :
    Alike A V (Parser.read f) (Parser.read f) :=
  fun s t hs => .done (h s t hs) hs

theorem kind : Alike A Eq Parser.kind Parser.kind := read fun _ _ hs => hs.current.kind

theorem text : Alike A Eq Parser.text Parser.text := read fun _ _ hs => hs.current.text

theorem peek : Alike A Eq Parser.peek Parser.peek := read fun _ _ hs => hs.stream.peek

theorem ofKind {f : TokenKind → α} :
    Alike A Eq (Parser.read fun s => f s.stream.current.kind)
      (Parser.read fun s => f s.stream.current.kind) :=
  read fun _ _ hs => congrArg f hs.current.kind

theorem isAt {k : TokenKind} : Alike A Eq (Parser.isAt k) (Parser.isAt k) :=
  ofKind (f := fun j => decide (j = k))

theorem isIn {c : Category} : Alike A Eq (Parser.isIn c) (Parser.isIn c) :=
  ofKind (f := c.set.contains)

theorem atEnd : Alike A Eq Parser.atEnd Parser.atEnd :=
  ofKind (f := fun j => decide (j = .eof))

theorem option {f : Options → Bool} : Alike A Eq (Parser.option f) (Parser.option f) :=
  read fun _ _ hs => congrArg f hs.stream.options

theorem advance : Alike A Eq Parser.advance Parser.advance :=
  fun _ _ hs => .advance (.done rfl hs.advance)

theorem eat {k : TokenKind} : Alike A Eq (Parser.eat k) (Parser.eat k) :=
  .test isAt (.skip advance (.pure rfl)) (.pure rfl)

/-! ## Nodes -/

theorem openNode {f g : Opened → Parser α}
    (hf : ∀ o o', o.leading = o'.leading → Alike A V (f o) (g o')) :
    Alike A V (Parser.openNode >>= f) (Parser.openNode >>= g) :=
  .bind (fun _ _ hs => .done hs.openNode.1 hs.openNode.2) hf

/-- Open a node at the current token and consume the token. -/
theorem begin {f g : Opened → Parser α}
    (hf : ∀ o o', o.leading = o'.leading → Alike A V (f o) (g o')) :
    Alike A V (Parser.openNode >>= fun o => Parser.advance >>= fun _ => f o)
      (Parser.openNode >>= fun o => Parser.advance >>= fun _ => g o) :=
  openNode fun o o' ho => .skip advance (hf o o' ho)

theorem openAt {p q : Position} {f g : Opened → Parser α}
    (hf : ∀ o o', o.leading = o'.leading → Alike A V (f o) (g o')) :
    Alike A V (Parser.openAt p >>= f) (Parser.openAt q >>= g) :=
  .bind (fun _ _ hs => .done rfl (hs.openAt p q)) hf

theorem finish {o o' : Opened} {p q : Production Node} (ho : o.leading = o'.leading)
    (hp : p.Like q) : Alike A (Same Node.erased) (Parser.finish o p) (Parser.finish o' q) := by
  intro s t hs
  obtain ⟨hinfo, hstate⟩ := hs.finishNode ho
  exact .done (Node.mk_erased hinfo hp) hstate

theorem abandon {o o' : Opened} {m n : Node} (ho : o.leading = o'.leading)
    (h : m.erased = n.erased) :
    Alike A (Same Node.erased) (Parser.abandon o m) (Parser.abandon o' n) :=
  fun _ _ hs => .done (Opened.erased_handTo ho h) (hs.abandon o o' m n)

/-! ## Errors -/

theorem raise {cause : Cause} {message message' : String} {e : Expected}
    (h : message = message') :
    Alike A (Same Node.erased) (Parser.raise cause message e) (Parser.raise cause message' e) := by
  intro s t hs
  subst h
  rw [Parser.raise, Parser.raise, hs.stream.options]
  split
  · exact .done (hs.errorNode message e) (hs.record message e)
  · exact .stop (ParseState.Aligned.fault s t cause message)

theorem unexpected {cause : Cause} {e : Expected} :
    Steady A Node.erased (Parser.unexpected cause e) :=
  .bind (read fun _ _ hs => hs.current) fun _ _ ht => raise (ht.unexpected e)

theorem missing {e : Expected} : Steady A Node.erased (Parser.missing e) := unexpected

theorem objection {cause : Cause} {message : String} :
    Steady A Node.erased (Parser.objection cause message) := raise rfl

theorem fatal {cause : Cause} {message : String} {V : α → α → Prop} :
    Alike A V (Parser.fatal cause message) (Parser.fatal cause message) :=
  fun s t _ => .stop (ParseState.Aligned.fault s t cause message)

theorem requireOption {f : Options → Bool} :
    Alike A Eq (Parser.requireOption f) (Parser.requireOption f) :=
  .test option (.pure rfl) (.skip unexpected (.pure rfl))

theorem expect {k : TokenKind} : Alike A Eq (Parser.expect k) (Parser.expect k) :=
  .test eat (.pure rfl) (.skip missing (.pure rfl))

theorem require {k : TokenKind} : Alike A Eq (Parser.require k) (Parser.require k) :=
  .skip expect (.pure rfl)

theorem endStatement : Alike A Eq Parser.endStatement Parser.endStatement := by
  refine .see kind fun k => ?_
  split
  · exact advance
  · exact .pure rfl
  · exact .pure rfl
  · exact .skip missing (.pure rfl)

/-- Whether anything has been consumed shows in both layouts. -/
theorem forceProgress {p q : Position} (h : A.Pairs p.offset q.offset) :
    Alike A Eq (Parser.forceProgress p) (Parser.forceProgress q) := by
  refine .bind (U := Eq) (fun s t hs => .done ?_ hs) fun stuck _ hstuck => ?_
  · simp only [hs.current.isEof, A.eq_iff hs.current.start h]
  · subst hstuck
    exact .ite advance (.pure rfl)

/-! ## Other rules -/

theorem call {c : Shape} {r r' : Rule c} (h : r.Like r') :
    Alike A c.Like (Parser.call r) (Parser.call r') :=
  fun _ _ hs => .call h hs fun _ _ _ _ hv hu => .done hv hu

theorem node (r : Rule .node) : Steady A Node.erased (Parser.call r) := call (.same r)

theorem nodes (r : Rule .nodes) : Steady A (List.map Node.erased) (Parser.call r) :=
  call (.same r)

theorem expression : Steady A Node.erased Parser.expression := node (.expression 0)

theorem lookups {m n : Node} {readOnly : Bool} (h : m.erased = n.erased) :
    Alike A (Same Node.erased) (Parser.call (.lookups m readOnly))
      (Parser.call (.lookups n readOnly)) :=
  call (.lookups readOnly h)

theorem optionally {e : α → γ} {c : Bool} {p q : Parser α} (hp : Alike A (Same e) p q) :
    Alike A (Same (Option.map e)) (Parser.optionally c p) (Parser.optionally c q) :=
  .ite (.bind hp fun _ _ h => .pure (congrArg some h)) (.pure rfl)

theorem after {e : α → γ} {k : TokenKind} {p q : Parser α} (hp : Alike A (Same e) p q) :
    Alike A (Same (Option.map e)) (Parser.after k p) (Parser.after k q) :=
  .see eat fun _ => optionally hp

end Alike
end PhpSyntax
