/-
Parts of bodies that are echoed.

`Echoes E A V p q` says that `q` follows `p`: from related states both do the same and end
with values that `V` relates.  `A` is what is known of the values made so far.  Both are known
at every index from that of the states on, since a node keeps its image.  There is one rule
for each action and each way of composing them.
-/
import PhpSyntax.Proofs.Echo.Step

namespace PhpSyntax

variable {E : Echo} {α β : Type}

/-- A part of a body that another one follows, where `A` is known. -/
def Echoes (E : Echo) (A : E.Index → Prop) (V : E.Index → α → α → Prop) (p q : Parser α) : Prop :=
  ∀ w s t, (∀ i, w ≤ i → A i) → E.States w s t → (p s).Echoes E V w (q t)

namespace Echoes

open Echo

variable {A : E.Index → Prop} {V : E.Index → α → α → Prop} {U : E.Index → β → β → Prop}

/-! ## Composition -/

/-- What is known of the values in all later states is known in this one. -/
theorem given {P : Prop} {p q : Parser α} (h : ∀ i, A i → P) (hp : P → Echoes E A V p q) :
    Echoes E A V p q :=
  fun w s t hA hs => hp (h w (hA w le_rfl)) w s t hA hs

theorem weaken {B : E.Index → Prop} {p q : Parser α} (h : ∀ i, A i → B i)
    (hp : Echoes E B V p q) : Echoes E A V p q :=
  fun w s t hA hs => hp w s t (fun i hi => h i (hA i hi)) hs

theorem mono {W : E.Index → α → α → Prop} {p q : Parser α} (hp : Echoes E A W p q)
    (h : ∀ i a b, A i → W i a b → V i a b) : Echoes E A V p q :=
  fun w s t hA hs => (hp w s t hA hs).mono fun i a b hi => h i a b (hA i hi)

protected theorem pure {a b : α} (h : ∀ i, A i → V i a b) : Echoes E A V (pure a) (pure b) :=
  fun _ _ _ hA hs => .done le_rfl (fun i hi => h i (hA i hi)) hs

protected theorem bind {p q : Parser β} {f g : β → Parser α} (hp : Echoes E A U p q)
    (hf : ∀ a b, Echoes E (fun i => A i ∧ U i a b) V (f a) (g b)) :
    Echoes E A V (p >>= f) (q >>= g) := by
  intro w s t hA hs
  refine (hp w s t hA hs).bind fun z a b u u' hz hab hu => ?_
  exact hf a b z u u' (fun i hi => ⟨hA i (hz.trans hi), hab i hi⟩) hu

/-- A value that is the same in both runs. -/
theorem see {p q : Parser β} {f g : β → Parser α} (hp : Echoes E A Equal p q)
    (hf : ∀ a, Echoes E A V (f a) (g a)) : Echoes E A V (p >>= f) (q >>= g) := by
  apply Echoes.bind hp
  intro a b
  refine .given (P := a = b) (fun i h => h.2) fun hab => ?_
  subst hab
  exact (hf a).weaken fun i h => h.1

/-- A value that is not used. -/
theorem skip {p q : Parser β} {f g : Parser α} (hp : Echoes E A U p q) (hf : Echoes E A V f g) :
    Echoes E A V (p >>= fun _ => f) (q >>= fun _ => g) :=
  .bind hp fun _ _ => hf.weaken fun _ h => h.1

protected theorem map {p q : Parser β} {f : β → α} (hp : Echoes E A U p q)
    (hf : ∀ i a b, A i → U i a b → V i (f a) (f b)) : Echoes E A V (f <$> p) (f <$> q) :=
  .bind hp fun a b => .pure fun i h => hf i a b h.1 h.2

protected theorem ite {c : Prop} [Decidable c] {p q p' q' : Parser α} (hp : Echoes E A V p q)
    (hp' : Echoes E A V p' q') :
    Echoes E A V (if c then p else p') (if c then q else q') := by
  split
  · exact hp
  · exact hp'

/-- A choice by what both runs show. -/
theorem test {p q : Parser Bool} {f g f' g' : Parser α} (hp : Echoes E A Equal p q)
    (hf : Echoes E A V f g) (hf' : Echoes E A V f' g') :
    Echoes E A V (p >>= fun c => if c = true then f else f')
      (q >>= fun c => if c = true then g else g') :=
  .see hp fun _ => .ite hf hf'

/-- Two ways to a value that the rest depends on. -/
protected theorem join {c : Prop} [Decidable c] {p q p' q' : Parser β} {f g : β → Parser α}
    (hp : Echoes E A U p q) (hp' : Echoes E A U p' q')
    (hf : ∀ a b, Echoes E (fun i => A i ∧ U i a b) V (f a) (g b)) :
    Echoes E A V (if c then p >>= f else p' >>= f) (if c then q >>= g else q' >>= g) :=
  .ite (.bind hp hf) (.bind hp' hf)

/-- A part that may be left out in front of the rest. -/
theorem possibly {c : Prop} [Decidable c] {p q : Parser β} {f g : Parser α}
    (hp : Echoes E A U p q) (hf : Echoes E A V f g) :
    Echoes E A V (if c then p >>= fun _ => f else f) (if c then q >>= fun _ => g else g) :=
  .ite (.skip hp hf) hf

/-- A pair, taken apart. -/
theorem pair {γ δ : Type} {U : E.Index → γ → γ → Prop} {W : E.Index → δ → δ → Prop}
    {p q : Parser (γ × δ)} {f g : γ × δ → Parser α} (hp : Echoes E A (Both U W) p q)
    (hf : ∀ a b c d, Echoes E (fun i => A i ∧ U i a b ∧ W i c d) V (f (a, c)) (g (b, d))) :
    Echoes E A V (p >>= f) (q >>= g) :=
  .bind hp fun (a, c) (b, d) => hf a b c d

/-- An optional node, there or not. -/
theorem option {p q : Parser (Option Node)} {f g : Option Node → Parser α}
    (hp : Echoes E A E.Maybe p q) (hnone : Echoes E A V (f none) (g none))
    (hsome : ∀ m n, Echoes E (fun i => A i ∧ E.One i m n) V (f (some m)) (g (some n))) :
    Echoes E A V (p >>= f) (q >>= g) := by
  apply Echoes.bind hp
  intro m n
  cases m with
  | none =>
    cases n with
    | none => exact hnone.weaken fun i h => h.1
    | some n => exact .given (P := False) (fun i h => nomatch h.2) False.elim
  | some m =>
    cases n with
    | none => exact .given (P := False) (fun i h => nomatch h.2) False.elim
    | some n => exact (hsome m n).weaken fun i h => ⟨h.1, Option.some.inj h.2⟩

/-! ## Other rules -/

theorem call {c : Shape} {r r' : Rule c} (h : ∀ i, A i → r.rebase (E.image i) = r') :
    Echoes E A (r.Echoed E) (Parser.call r) (Parser.call r') := by
  intro w s t hA hs
  refine .call le_rfl (fun i hi => h i (hA i hi)) hs fun y v v' u u' _ hv hu => ?_
  exact .done le_rfl hv hu

/-- A node by a rule that is the same behind any node. -/
theorem node {r : Rule .node} (h : ∀ f, r.rebase f = r) :
    Echoes E A E.One (Parser.call r) (Parser.call r) :=
  (call fun _ _ => h _).mono fun _ _ _ _ hv => hv.shape

theorem nodes {r : Rule .nodes} (h : ∀ f, r.rebase f = r) :
    Echoes E A E.All (Parser.call r) (Parser.call r) :=
  (call fun _ _ => h _).mono fun _ _ _ _ hv => hv.shape

theorem expression : Echoes E A E.One Parser.expression Parser.expression := node fun _ => rfl

theorem infixes {min : Nat} {m n : Node} (h : ∀ i, A i → E.image i m = n) :
    Echoes E A E.One (Parser.call (.infixes min m)) (Parser.call (.infixes min n)) :=
  call (r := .infixes min m) fun i hi => congrArg (Rule.infixes min) (h i hi)

theorem lookups {readOnly : Bool} {m n : Node} (h : ∀ i, A i → E.image i m = n) :
    Echoes E A E.One (Parser.call (.lookups m readOnly)) (Parser.call (.lookups n readOnly)) :=
  call (r := .lookups m readOnly) fun i hi => congrArg (Rule.lookups · readOnly) (h i hi)

theorem optionally {c : Bool} {p q : Parser Node} (hp : Echoes E A E.One p q) :
    Echoes E A E.Maybe (Parser.optionally c p) (Parser.optionally c q) :=
  .ite (.bind hp fun _ _ => .pure fun _ h => congrArg some h.2) (.pure fun _ _ => rfl)

/-! ## The current token -/

theorem read {f : ParseState → α} (h : ∀ w s t i, E.States w s t → w ≤ i → V i (f s) (f t)) :
    Echoes E A V (Parser.read f) (Parser.read f) :=
  fun w s t _ hs => .done le_rfl (fun i hi => h w s t i hs hi) hs

variable [E.Lawful]

theorem kind : Echoes E A Equal Parser.kind Parser.kind :=
  read fun _ _ _ _ hs _ => (Lawful.kind hs).symm

theorem text : Echoes E A Equal Parser.text Parser.text :=
  read fun _ _ _ _ hs _ => (Lawful.text hs).symm

theorem ofKind {f : TokenKind → α} :
    Echoes E A Equal (Parser.read fun s => f s.stream.current.kind)
      (Parser.read fun s => f s.stream.current.kind) :=
  read fun _ _ _ _ hs _ => congrArg f (Lawful.kind hs).symm

theorem isAt {k : TokenKind} : Echoes E A Equal (Parser.isAt k) (Parser.isAt k) :=
  ofKind (f := fun j => decide (j = k))

theorem isIn {c : Category} : Echoes E A Equal (Parser.isIn c) (Parser.isIn c) :=
  ofKind (f := c.set.contains)

theorem atEnd : Echoes E A Equal Parser.atEnd Parser.atEnd :=
  ofKind (f := fun j => decide (j = .eof))

/-- The kind of the current token, for what follows in this state. -/
theorem atKind {f g : TokenKind → Parser α}
    (h : ∀ k w s t, s.kind = k → (∀ i, w ≤ i → A i) → E.States w s t →
      (f k s).Echoes E V w (g k t)) :
    Echoes E A V (Parser.kind >>= f) (Parser.kind >>= g) := by
  intro w s t hA hs
  show (f s.kind s).Echoes E V w (g t.kind t)
  rw [Lawful.kind hs]
  exact h s.kind w s t rfl hA hs

/-- The next token and the current one. -/
theorem glance {f g : TokenKind → TokenKind → Parser α}
    (h : ∀ k next next', k.Blurs next next' → Echoes E A V (f next k) (g next' k)) :
    Echoes E A V (Parser.peek >>= fun next => Parser.kind >>= f next)
      (Parser.peek >>= fun next => Parser.kind >>= g next) := by
  intro w s t hA hs
  show (f s.stream.peek s.kind s).Echoes E V w (g t.stream.peek t.kind t)
  rw [Lawful.kind hs]
  exact h s.kind _ _ (Lawful.peek hs) w s t hA hs

/-- A test of the next token behind one of kind `k`. -/
theorem ahead {k : TokenKind} {φ : TokenKind → Bool} {f g : Bool → Parser α}
    (hφ : ∀ next next', k.Blurs next next' → φ next' = φ next)
    (hf : ∀ c, Echoes E A V (f c) (g c)) :
    Echoes E A V (Parser.isAt k >>= fun c => Parser.peek >>= fun next => f (c && φ next))
      (Parser.isAt k >>= fun c => Parser.peek >>= fun next => g (c && φ next)) := by
  intro w s t hA hs
  show (f (decide (s.kind = k) && φ s.stream.peek) s).Echoes E V w
    (g (decide (t.kind = k) && φ t.stream.peek) t)
  rw [Lawful.kind hs]
  by_cases hkind : s.kind = k
  · rw [hφ s.stream.peek t.stream.peek (hkind ▸ Lawful.peek hs)]
    exact hf _ w s t hA hs
  · rw [decide_eq_false hkind, Bool.false_and, Bool.false_and]
    exact hf _ w s t hA hs

/-- A choice by the next token behind one of kind `k`. -/
theorem testAhead {k : TokenKind} {φ : TokenKind → Bool} {p q p' q' : Parser α}
    (hφ : ∀ next next', k.Blurs next next' → φ next' = φ next) (hp : Echoes E A V p q)
    (hp' : Echoes E A V p' q') :
    Echoes E A V
      (Parser.isAt k >>= fun c => Parser.peek >>= fun next => if (c && φ next) = true then p else p')
      (Parser.isAt k >>= fun c => Parser.peek >>= fun next =>
        if (c && φ next) = true then q else q') :=
  ahead (f := fun c => if c = true then p else p') (g := fun c => if c = true then q else q') hφ
    fun _ => .ite hp hp'

theorem advance : Echoes E A Equal Parser.advance Parser.advance :=
  fun _ _ _ _ hs => .advance fun hopen => .done le_rfl (fun _ _ => rfl) (Lawful.advance hs hopen)

theorem eat {k : TokenKind} : Echoes E A Equal (Parser.eat k) (Parser.eat k) :=
  .test isAt (.skip advance (.pure fun _ _ => rfl)) (.pure fun _ _ => rfl)

theorem after {k : TokenKind} {p q : Parser Node} (hp : Echoes E A E.One p q) :
    Echoes E A E.Maybe (Parser.after k p) (Parser.after k q) :=
  .see eat fun _ => optionally hp

/-! ## Nodes -/

theorem openNode {f g : Opened → Parser α} (hf : ∀ o, Echoes E A V (f o) (g (E.opened o))) :
    Echoes E A V (Parser.openNode >>= f) (Parser.openNode >>= g) := by
  intro w s t hA hs
  obtain ⟨ho, hstate⟩ := Lawful.openNode hs
  show (f s.openNode.1 s.openNode.2).Echoes E V w (g t.openNode.1 t.openNode.2)
  rw [ho]
  exact hf _ w _ _ hA hstate

/-- Open a node at the current token and consume the token. -/
theorem begin {f g : Opened → Parser α} (hf : ∀ o, Echoes E A V (f o) (g (E.opened o))) :
    Echoes E A V (Parser.openNode >>= fun o => Parser.advance >>= fun _ => f o)
      (Parser.openNode >>= fun o => Parser.advance >>= fun _ => g o) :=
  openNode fun o => .skip advance (hf o)

/-- Open a node where `m` begins. -/
theorem openAt {m n : Node} {f g : Opened → Parser α} (h : ∀ i, A i → E.image i m = n)
    (hf : ∀ o, Echoes E A V (f o) (g (E.opened o))) :
    Echoes E A V (Parser.openAt m.span.start >>= f) (Parser.openAt n.span.start >>= g) := by
  refine .given (P := n.span.start = E.place m.span.start) (fun i hi => ?_) fun hstart => ?_
  · rw [← h i hi, start_image]
  · intro w s t hA hs
    have ho : Opened.startingAt n.span.start = E.opened (.startingAt m.span.start) := by
      rw [hstart, opened, Opened.startingAt, Opened.startingAt, Lawful.hear_nil]
    show (f (.startingAt m.span.start) (s.openAt m.span.start).2).Echoes E V w
      (g (.startingAt n.span.start) (t.openAt n.span.start).2)
    rw [ho]
    exact hf _ w _ _ hA (Lawful.openAt hs _ _)

/-- Whatever is known of a finished node by its production. -/
theorem finishOf {o : Opened} {p q : Production Node} {V : E.Index → Node → Node → Prop}
    (h : ∀ i info, A i → V i ⟨info, p⟩ ⟨E.info i info, q⟩) :
    Echoes E A V (Parser.finish o p) (Parser.finish (E.opened o) q) := by
  intro w s t hA hs
  obtain ⟨x, hw, hstate, hinfo⟩ := Lawful.finishNode hs o
  refine .done hw (fun i hi => ?_) hstate
  show V i ⟨(s.finishNode o).1, p⟩ ⟨(t.finishNode (E.opened o)).1, q⟩
  rw [← hinfo i hi]
  exact h i _ (hA i (hw.trans hi))

theorem finish {o : Opened} {p q : Production Node} (h : ∀ i, A i → E.Makes i p q) :
    Echoes E A E.One (Parser.finish o p) (Parser.finish (E.opened o) q) :=
  finishOf fun i info hi => (image_mk E i info p).trans (congrArg (Node.mk _) (h i hi))

theorem abandon {o : Opened} {m n : Node} (h : ∀ i, A i → E.image i m = n) :
    Echoes E A E.One (Parser.abandon o m) (Parser.abandon (E.opened o) n) := by
  intro w s t hA hs
  refine .done le_rfl (fun i hi => ?_) (Lawful.abandon hs o (E.opened o) m n)
  show E.image i (o.handTo m) = (E.opened o).handTo n
  rw [← h i (hA i hi)]
  obtain ⟨info, p⟩ := m
  simp only [Opened.handTo, image_mk, Echo.info, opened, Lawful.hear_append]

/-! ## Errors -/

/-- An error that is recorded.  Where it is, nothing is put behind the end of the code. -/
theorem raise {cause : Cause} {message : String} {e : Expected} :
    Echoes E A (fun i m n => E.One i m n ∧ E.tail "" = "") (Parser.raise cause message e)
      (Parser.raise cause message e) := by
  intro w s t hA hs
  have hmode : t.stream.options.suppressErrors = s.stream.options.suppressErrors :=
    Lawful.tolerates hs
  rw [Parser.raise, Parser.raise, hmode]
  by_cases ht : s.stream.options.suppressErrors = true
  · rw [if_pos ht, if_pos ht]
    obtain ⟨x, hw, hstate, herror⟩ := Lawful.record hs ht message e
    exact .done hw (fun i hi => ⟨herror i hi, Lawful.tail_empty hs ht⟩) hstate
  · rw [if_neg ht, if_neg ht]
    exact .stop fun hb => Lawful.fault hs hb cause message

theorem unexpected {cause : Cause} {e : Expected} :
    Echoes E A (fun i m n => E.One i m n ∧ E.tail "" = "") (Parser.unexpected cause e)
      (Parser.unexpected cause e) := by
  intro w s t hA hs
  have hface (a b : Token) (hk : a.kind = b.kind) (htext : a.text = b.text) :
      Fault.unexpected a e = Fault.unexpected b e := by
    cases a
    cases b
    cases hk
    cases htext
    rfl
  have hmessage := hface _ _ (Lawful.kind hs) (Lawful.text hs)
  show (Parser.raise cause (Fault.unexpected s.stream.current e) e s).Echoes E _ w
    (Parser.raise cause (Fault.unexpected t.stream.current e) e t)
  rw [hmessage]
  exact raise w s t hA hs

theorem missing {e : Expected} : Echoes E A E.One (Parser.missing e) (Parser.missing e) :=
  unexpected.mono fun _ _ _ _ h => h.1

/-- What follows a token of kind `k`, or the error that there is none. -/
theorem behind {k : TokenKind} {e : Expected} {f g : Parser α}
    (h : ∀ w s t, (∀ i, w ≤ i → A i) → E.States w s t → s.kind = k ∨ E.tail "" = "" →
      (f s).Echoes E V w (g t)) :
    Echoes E A V
      (Parser.isAt k >>= fun c => if !c then Parser.missing e >>= fun _ => f else f)
      (Parser.isAt k >>= fun c => if !c then Parser.missing e >>= fun _ => g else g) := by
  intro w s t hA hs
  show ((if !decide (s.kind = k) then Parser.missing e >>= fun _ => f else f) s).Echoes E V w
    ((if !decide (t.kind = k) then Parser.missing e >>= fun _ => g else g) t)
  rw [Lawful.kind hs]
  by_cases hk : s.kind = k
  · simp only [hk, decide_true, Bool.not_true, Bool.false_eq_true, if_false]
    exact h w s t hA hs (.inl hk)
  · simp only [hk, decide_false, Bool.not_false, if_true]
    refine (unexpected w s t hA hs).bind fun x m n u u' hx hmn hu => ?_
    exact h x u u' (fun i hi => hA i (hx.trans hi)) hu (.inr (hmn x le_rfl).2)

theorem objection {cause : Cause} {message : String} :
    Echoes E A (fun i m n => E.One i m n ∧ E.tail "" = "") (Parser.objection cause message)
      (Parser.objection cause message) :=
  raise

theorem fatal {cause : Cause} {message : String} :
    Echoes E A V (Parser.fatal cause message) (Parser.fatal cause message) :=
  fun _ _ _ _ hs => .stop fun hb => Lawful.fault hs hb cause message

theorem requireOption {f : Options → Bool}
    (hf : ∀ w s t, E.States w s t → f t.stream.options = f s.stream.options) :
    Echoes E A Equal (Parser.requireOption f) (Parser.requireOption f) :=
  .test (read fun w s t _ hs _ => (hf w s t hs).symm) (.pure fun _ _ => rfl)
    (.skip unexpected (.pure fun _ _ => rfl))

theorem requirePhp7 :
    Echoes E A Equal (Parser.requireOption Options.php7) (Parser.requireOption Options.php7) :=
  requireOption fun _ _ _ hs => Lawful.php7 hs

theorem requirePhp74 :
    Echoes E A Equal (Parser.requireOption Options.php74) (Parser.requireOption Options.php74) :=
  requireOption fun _ _ _ hs => Lawful.php74 hs

theorem expect {k : TokenKind} : Echoes E A Equal (Parser.expect k) (Parser.expect k) :=
  .test eat (.pure fun _ _ => rfl) (.skip missing (.pure fun _ _ => rfl))

theorem require {k : TokenKind} : Echoes E A Equal (Parser.require k) (Parser.require k) :=
  .skip expect (.pure fun _ _ => rfl)

theorem endStatement : Echoes E A Equal Parser.endStatement Parser.endStatement := by
  apply Echoes.see kind
  intro k
  split
  · exact advance
  · exact .pure fun _ _ => rfl
  · exact .pure fun _ _ => rfl
  · exact .skip missing (.pure fun _ _ => rfl)

/-- Whether anything has been consumed shows in both runs. -/
theorem forceProgress {p q : Position} (h : ∀ i, A i → E.place p = q) :
    Echoes E A Equal (Parser.forceProgress p) (Parser.forceProgress q) := by
  refine .given h fun hq => ?_
  subst hq
  refine .bind (U := Equal) (fun w s t hA hs => .done le_rfl (fun i hi => ?_) hs) fun c d => ?_
  · have hk : t.stream.current.kind = s.stream.current.kind := Lawful.kind hs
    by_cases heof : s.stream.current.kind = .eof
    · simp only [Echo.Equal, Token.isEof, hk, heof, decide_true, Bool.not_true, Bool.false_and]
    · have hoffset := Lawful.offset_iff hs heof p
      simp only [ParseState.offset] at hoffset
      simp only [Echo.Equal, Token.isEof, hk, hoffset]
  · refine .given (P := c = d) (fun i hi => hi.2) fun hcd => ?_
    subst hcd
    exact .ite advance (.pure fun _ _ => rfl)

end Echoes
end PhpSyntax
