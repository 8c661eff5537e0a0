import PhpSyntax.Proofs.Echo.Statement
import PhpSyntax.Proofs.Fork.Ends
import PhpSyntax.Proofs.Grammar.Statement

namespace PhpSyntax

variable {F : Fork} {α β : Type} {φ : α → α} {ψ : β → β} {G : α → Prop} {H : β → Prop}

namespace ParseState

variable {s t : ParseState}

theorem Inside.kind (h : s.Inside F t) : t.kind = s.kind := h.forked.kind

theorem Inside.tolerates (h : s.Inside F t) : t.tolerates = false :=
  h.forked.tolerates.trans h.strict

theorem Inside.openNode (h : s.Inside F t) :
    t.openNode.1 = s.openNode.1 ∧ s.openNode.2.Inside F t.openNode.2 :=
  ⟨h.forked.openNode.1, h.forked.openNode.2, h.sound, h.ne_eof⟩

theorem Inside.finishNode (h : s.Inside F t) (o : Opened) :
    (s.finishNode o).2.Inside F (t.finishNode o).2 ∧
      (Echo.forked F).info () (s.finishNode o).1 = (t.finishNode o).1 :=
  ⟨⟨(h.forked.finishNode o).1, h.sound, h.ne_eof⟩, (h.forked.finishNode o).2⟩

theorem AtFork.finishNode (h : s.AtFork F t) (o : Opened) :
    (s.finishNode o).2.AtFork F (t.finishNode o).2 ∧
      (Echo.forked F).info () (s.finishNode o).1 = (t.finishNode o).1 := by
  obtain ⟨hbeside, hinfo⟩ := h.beside.finishNode o
  exact ⟨⟨h.stream, h.sound, hbeside.deferred, hbeside.nextId, h.namespaceDepth⟩, hinfo⟩

theorem Inside.step (h : s.Inside F t) (hlt : F.left < s.advance.stream.rest) :
    s.advance.Inside F t.advance := by
  refine h.advance.resolve_right fun hat => ?_
  have hrest : s.advance.stream.rest = F.left := hat.stream.rest
  omega

theorem Inside.arrive (h : s.Inside F t) (hrest : s.advance.stream.rest = F.left) :
    s.advance.AtFork F t.advance := by
  refine h.advance.resolve_left fun hin => ?_
  have hlt := hin.left_lt
  omega

theorem Stands.passes (h : s.Stands F) : s.advance.stream.rest ≠ F.left := by
  have hadvance : s.advance.stream.rest + 1 = s.stream.rest :=
    Stream.rest_advance h.sound h.ne_eof
  have hrest := h.rest
  omega

end ParseState

theorem Rule.rank_lt {c : Shape} (r : Rule c) : r.rank < 32 := by
  cases r <;> simp only [rank] <;> omega

/-! ## Actions -/

namespace Follows

theorem read {f : ParseState → α} (h : ∀ {s t}, s.Inside F t → f s = f t) :
    Follows F id (Parser.read f) (Parser.read f) where
  onward := Parser.Still.onward fun hy => (Parser.yields_pure.mp hy).2 ▸ rfl
  inside := by
    intro s t u a hs hy _
    obtain ⟨rfl, rfl⟩ : a = f s ∧ u = s := Parser.yields_pure.mp hy
    refine ⟨t, ?_, hs⟩
    rw [h hs]
    exact ⟨[], .done⟩

theorem kind : Follows F id Parser.kind Parser.kind := read fun hs => hs.kind.symm

theorem ofKind {f : TokenKind → α} :
    Follows F id (Parser.read fun s => f s.stream.current.kind)
      (Parser.read fun s => f s.stream.current.kind) :=
  read fun hs => congrArg f hs.kind.symm

theorem text : Follows F id Parser.text Parser.text :=
  read fun hs => hs.forked.text.symm

theorem openNode : Follows F id Parser.openNode Parser.openNode where
  onward := Parser.Still.onward fun hy => by
    cases Parser.yields_update.mp hy
    rfl
  inside := by
    intro s t u o hs hy _
    obtain ⟨ho, hin⟩ := hs.openNode
    cases Parser.yields_update.mp hy
    exact ⟨t.openNode.2, Parser.yields_update.mpr (Prod.ext ho rfl), hin⟩

theorem finish {o : Opened} {p q : Production Node} (h : F.Makes p q) :
    Follows F F.image (Parser.finish o p) (Parser.finish o q) where
  onward := Parser.Still.onward Parser.still_finish
  inside := by
    intro s t u n hs hy _
    obtain ⟨rfl, rfl⟩ := Parser.yields_finish.mp hy
    obtain ⟨hin, hinfo⟩ := hs.finishNode o
    refine ⟨_, Parser.yields_finish.mpr ⟨?_, rfl⟩, hin⟩
    rw [Fork.image_mk, hinfo, h]

/-- Another rule. -/
theorem call {c : Shape} {r : Rule c} {φ : c.Value → c.Value} (hready : ∀ s, r.Ready s)
    (htakes : r.takes [] = [])
    (h : Echoes (Echo.forked F) (fun _ => True) (fun _ a b => φ a = b) (Parser.call r)
      (Parser.call r)) :
    Follows F φ (Parser.call r) (Parser.call r) := by
  refine .of_echoes (fun s hs => ?_) h
  have hstage := Stage.start hs
  rw [← htakes] at hstage
  exact ⟨_, _, Sat.call r hstage r.rank_lt (hready s)⟩

theorem node {r : Rule .node} (hready : ∀ s, r.Ready s) (htakes : r.takes [] = [])
    (h : ∀ f, r.rebase f = r) : Follows F F.image (Parser.call r) (Parser.call r) :=
  call hready htakes (.node h)

theorem nodes {r : Rule .nodes} (hready : ∀ s, r.Ready s) (htakes : r.takes [] = [])
    (h : ∀ f, r.rebase f = r) :
    Follows F (List.map F.image) (Parser.call r) (Parser.call r) :=
  call hready htakes (.nodes h)

theorem expression : Follows F F.image Parser.expression Parser.expression :=
  node (fun _ => trivial) rfl fun _ => rfl

theorem statement :
    Follows F F.image (Parser.call .statement) (Parser.call .statement) :=
  node (fun _ => trivial) rfl fun _ => rfl

theorem statements (stop : TokenSet) :
    Follows F (List.map F.image) (Parser.call (.statements stop))
      (Parser.call (.statements stop)) :=
  nodes (fun _ => trivial) rfl fun _ => rfl

theorem eat {k : TokenKind} (hk : k ≠ .eof) : Follows F id (Parser.eat k) (Parser.eat k) :=
  .of_echoes (fun _ hs => ⟨_, _, Sat.eatAny (Stage.start hs) hk⟩) .eat

theorem expect {k : TokenKind} (hk : k ≠ .eof) :
    Follows F id (Parser.expect k) (Parser.expect k) :=
  .of_echoes (fun _ hs => ⟨_, _, Sat.expectAny (Stage.start hs) hk⟩) .expect

end Follows

/-- A part that consumes a token of some kinds, and in front of one of other kinds nothing. -/
structure Takes (P Q : TokenKind → Prop) (p : Parser Unit) : Prop where
  yields_iff : ∀ {s t : ParseState}, s.tolerates = false →
    (p.Yields s () t ↔ (P s.kind ∧ t = s.advance) ∨ (Q s.kind ∧ t = s))

theorem takes_advance : Takes (fun _ => True) (fun _ => False) Parser.advance := by
  refine ⟨fun {s t} _ => ?_⟩
  rw [Parser.yields_advance]
  simp

theorem takes_require (k : TokenKind) : Takes (· = k) (fun _ => False) (Parser.require k) := by
  refine ⟨fun {s t} hs => ?_⟩
  rw [Parser.yields_require hs]
  simp

theorem takes_endStatement :
    Takes (· = .semicolon) (fun k => k = .inlineHtml ∨ k = .eof) Parser.endStatement :=
  ⟨fun hs => Parser.yields_endStatement hs⟩

namespace Takes

variable {P Q : TokenKind → Prop} {p : Parser Unit}

theorem onward (h : Takes P Q p) : p.Onward := by
  intro s a t hs hsound hy
  rcases (h.yields_iff hs).mp hy with ⟨_, rfl⟩ | ⟨_, rfl⟩
  · exact .advance hsound
  · exact .refl hsound

theorem follows (h : Takes P Q p) : Follows F id p p where
  onward := h.onward
  inside := by
    intro s t u a hs hy hlt
    have htolerates := hs.tolerates
    rcases (h.yields_iff hs.strict).mp hy with ⟨hP, rfl⟩ | ⟨hQ, rfl⟩
    · refine ⟨t.advance, (h.yields_iff htolerates).mpr (Or.inl ⟨?_, rfl⟩), hs.step hlt⟩
      rw [hs.kind]
      exact hP
    · refine ⟨t, (h.yields_iff htolerates).mpr (Or.inr ⟨?_, rfl⟩), hs⟩
      rw [hs.kind]
      exact hQ

theorem closes {G : Unit → Prop} (h : Takes P Q p) (hQ : ¬Q F.first.kind) :
    Closes F G id p p where
  onward := h.onward
  needs := by
    intro s u a hs hy
    rcases (h.yields_iff hs.strict).mp hy with ⟨_, rfl⟩ | ⟨hk, _⟩
    · exact hs.passes
    · exact absurd (hs.kind ▸ hk) hQ
  lands := by
    intro s t u a hs hy hrest _
    have htolerates := hs.tolerates
    rcases (h.yields_iff hs.strict).mp hy with ⟨hP, rfl⟩ | ⟨_, rfl⟩
    · refine ⟨t.advance, (h.yields_iff htolerates).mpr (Or.inl ⟨?_, rfl⟩), hs.arrive hrest⟩
      rw [hs.kind]
      exact hP
    · exact absurd hrest (Nat.ne_of_gt hs.left_lt)

end Takes

/-! ## Parts that rest -/

namespace Rests

variable {p q : Parser α} {f g : α → Parser β}

/-- Two parts that consume nothing. -/
theorem of_still (hp : p.Still) (h : Settles F G φ p q) : Rests F G φ p q where
  onward := hp.onward
  lands := by
    intro s t u a hs hy hrest _
    rw [hp hy] at hrest
    exact absurd hrest (Nat.ne_of_gt hs.left_lt)
  settles := h

protected theorem pure {a : α} : Rests F G φ (pure a) (pure (φ a)) := by
  refine of_still Parser.still_pure fun s t u b hs hy _ _ => ?_
  obtain ⟨rfl, rfl⟩ := Parser.yields_pure.mp hy
  exact ⟨t, Parser.yields_pure.mpr ⟨rfl, rfl⟩, hs⟩

theorem finish {G : Node → Prop} {o : Opened} {p q : Production Node} (h : F.Makes p q) :
    Rests F G F.image (Parser.finish o p) (Parser.finish o q) := by
  refine of_still Parser.still_finish fun s t u n hs hy _ _ => ?_
  obtain ⟨rfl, rfl⟩ := Parser.yields_finish.mp hy
  obtain ⟨hat, hinfo⟩ := hs.finishNode o
  refine ⟨_, Parser.yields_finish.mpr ⟨?_, rfl⟩, hat⟩
  rw [Fork.image_mk, hinfo, h]

protected theorem bind (hp : Follows F φ p q) (hr : Rests F G φ p q)
    (hG : ∀ {m u : ParseState} {a : α} {b : β}, m.Stands F → (f a).Yields m b u → H b → G a)
    (hf : ∀ a, Rests F H ψ (f a) (g (φ a))) : Rests F H ψ (p >>= f) (q >>= g) where
  onward := Parser.Onward.bind hp.onward fun a => (hf a).onward
  lands := by
    refine Lands.bind hp (fun a => (hf a).onward) (fun a => (hf a).lands) ?_
    intro s t m u a b hs hy hm hu hrest hb
    obtain ⟨m', hm', hat⟩ := hr.lands hs hy hm.rest (hG hm hu hb)
    obtain ⟨v, hv, hat'⟩ := (hf a).settles hat hu hrest hb
    exact ⟨v, Parser.yields_bind.mpr ⟨φ a, m', hm', hv⟩, hat'⟩
  settles := by
    intro s t u b hs hy hrest hb
    obtain ⟨a, m, hm, hstands, hu⟩ :=
      hs.stands.bind hr.onward (fun a => (hf a).onward) hy hrest
    obtain ⟨m', hm', hat⟩ := hr.settles hs hm hstands.rest (hG hstands hu hb)
    obtain ⟨v, hv, hat'⟩ := (hf a).settles hat hu hrest hb
    exact ⟨v, Parser.yields_bind.mpr ⟨φ a, m', hm', hv⟩, hat'⟩

/-- A choice by the current token. -/
theorem kind {f g : TokenKind → Parser α} (honward : (Parser.kind >>= f).Onward)
    (hlands : ∀ k, Lands F G φ (f k) (g k))
    (hsettles : Settles F G φ (f F.first.kind) (g F.second.kind)) :
    Rests F G φ (Parser.kind >>= f) (Parser.kind >>= g) where
  onward := honward
  lands := by
    intro s t u a hs hy hrest ha
    obtain ⟨v, hv, hat⟩ := hlands s.kind hs (Parser.yields_kind_bind.mp hy) hrest ha
    refine ⟨v, Parser.yields_kind_bind.mpr ?_, hat⟩
    rw [hs.kind]
    exact hv
  settles := by
    intro s t u a hs hy hrest ha
    have hy := Parser.yields_kind_bind.mp hy
    rw [hs.stands.kind] at hy
    obtain ⟨v, hv, hat⟩ := hsettles hs hy hrest ha
    refine ⟨v, Parser.yields_kind_bind.mpr ?_, hat⟩
    rw [hs.kind]
    exact hv

/-- What a token opens that stands at neither side of the fork. -/
theorem isAt {k : TokenKind} {p q p' q' : Parser α} (hfirst : F.first.kind ≠ k)
    (hsecond : F.second.kind ≠ k) (hponward : p.Onward) (hp : Lands F G φ p q)
    (hp' : Rests F G φ p' q') :
    Rests F G φ (Parser.isAt k >>= fun c => if c = true then p else p')
      (Parser.isAt k >>= fun c => if c = true then q else q') := by
  let branch (p p' : Parser α) (j : TokenKind) : Parser α := if decide (j = k) = true then p else p'
  have honward (j : TokenKind) : (branch p p' j).Onward := by
    by_cases hj : j = k
    · simp only [branch, hj, decide_true, if_true]
      exact hponward
    · simp only [branch, hj, decide_false, Bool.false_eq_true, if_false]
      exact hp'.onward
  have hlands (j : TokenKind) : Lands F G φ (branch p p' j) (branch q q' j) := by
    by_cases hj : j = k
    · simp only [branch, hj, decide_true, if_true]
      exact hp
    · simp only [branch, hj, decide_false, Bool.false_eq_true, if_false]
      exact hp'.lands
  have hsettles : Settles F G φ (branch p p' F.first.kind) (branch q q' F.second.kind) := by
    simp only [branch, hfirst, hsecond, decide_false, Bool.false_eq_true, if_false]
    exact hp'.settles
  have hkind : (Parser.kind >>= branch p p').Onward :=
    Parser.Onward.bind (Parser.Still.onward Parser.still_kind) honward
  exact kind hkind hlands hsettles

end Rests

namespace Lands

variable {p q : Parser β} {f g : β → Parser α} {K : β → Prop}

/-- A part that lands, and behind it one that does not look at the stream. -/
theorem settle (hp : Lands F K ψ p q) (hstill : ∀ b, (f b).Still)
    (hG : ∀ {m u : ParseState} {b : β} {a : α}, (f b).Yields m a u → G a → K b)
    (hf : ∀ b, Settles F G φ (f b) (g (ψ b))) : Lands F G φ (p >>= f) (q >>= g) := by
  intro s t u a hs hy hrest ha
  obtain ⟨b, m, hm, hu⟩ := Parser.yields_bind.mp hy
  have hsame : u.stream = m.stream := hstill b hu
  obtain ⟨m', hm', hat⟩ := hp hs hm (hsame ▸ hrest) (hG hu ha)
  obtain ⟨v, hv, hat'⟩ := hf b hat hu hrest ha
  exact ⟨v, Parser.yields_bind.mpr ⟨ψ b, m', hm', hv⟩, hat'⟩

theorem finish {G : Node → Prop} {o : Opened} {P Q : β → Production Node}
    (hp : Lands F K ψ p q) (hG : ∀ info b, G ⟨info, P b⟩ → K b)
    (h : ∀ b, F.Makes (P b) (Q (ψ b))) :
    Lands F G F.image (p >>= fun b => Parser.finish o (P b))
      (q >>= fun b => Parser.finish o (Q b)) := by
  refine hp.settle (fun _ => Parser.still_finish) ?_ fun b => (Rests.finish (h b)).settles
  intro m u b n hy hn
  obtain ⟨rfl, _⟩ := Parser.yields_finish.mp hy
  exact hG _ b hn

end Lands

/-! ## Parts that close -/

namespace Closes

variable {p q : Parser β} {f g : β → Parser α} {K : β → Prop}

/-- A part whose value does not matter. -/
theorem skip {f g : Parser α} (hp : Follows F ψ p q) (hf : Closes F G φ f g) :
    Closes F G φ (p >>= fun _ => f) (q >>= fun _ => g) :=
  before hp fun _ => hf

theorem openNode {f g : Opened → Parser α} (hf : ∀ o, Closes F G φ (f o) (g o)) :
    Closes F G φ (Parser.openNode >>= f) (Parser.openNode >>= g) :=
  before Follows.openNode hf

/-- Open a node and consume its first token. -/
theorem begin {f g : Opened → Parser α} (hf : ∀ o, Closes F G φ (f o) (g o)) :
    Closes F G φ (Parser.openNode >>= fun o => Parser.advance >>= fun _ => f o)
      (Parser.openNode >>= fun o => Parser.advance >>= fun _ => g o) :=
  openNode fun o => skip takes_advance.follows (hf o)

protected theorem ite {c : Prop} [Decidable c] {p q p' q' : Parser α} (hp : Closes F G φ p q)
    (hp' : Closes F G φ p' q') : Closes F G φ (if c then p else p') (if c then q else q') := by
  by_cases hc : c
  · rw [if_pos hc, if_pos hc]
    exact hp
  · rw [if_neg hc, if_neg hc]
    exact hp'

protected theorem isAt {k : TokenKind} {p q p' q' : Parser α} (hp : Closes F G φ p q)
    (hp' : Closes F G φ p' q') :
    Closes F G φ (Parser.isAt k >>= fun c => if c = true then p else p')
      (Parser.isAt k >>= fun c => if c = true then q else q') :=
  before (Follows.ofKind (f := fun j => decide (j = k))) fun _ => .ite hp hp'

protected theorem eat {k : TokenKind} {p q p' q' : Parser α} (hk : k ≠ .eof)
    (hp : Closes F G φ p q) (hp' : Closes F G φ p' q') :
    Closes F G φ (Parser.eat k >>= fun c => if c = true then p else p')
      (Parser.eat k >>= fun c => if c = true then q else q') :=
  before (Follows.eat hk) fun _ => .ite hp hp'

/-- A part that yields nothing in strict mode. -/
theorem never {p q : Parser α} (h : ∀ {s t a}, s.tolerates = false → ¬p.Yields s a t) :
    Closes F G φ p q where
  onward := fun hs _ hy => absurd hy (h hs)
  needs := fun _ _ _ hs hy => absurd hy (h hs.strict)
  lands := fun _ _ _ _ hs hy _ _ => absurd hy (h hs.strict)

theorem missing {e : Expected} {f g : Node → Parser α} :
    Closes F G φ (Parser.missing e >>= f) (Parser.missing e >>= g) :=
  never fun hs hy => by
    obtain ⟨_, _, hmissing, _⟩ := Parser.yields_bind.mp hy
    exact Parser.not_yields_missing hs hmissing

/-- A part that closes, and behind it one that does not look at the stream. -/
theorem settle (hc : Closes F K ψ p q) (hstill : ∀ b, (f b).Still)
    (hG : ∀ {m u : ParseState} {b : β} {a : α}, (f b).Yields m a u → G a → K b)
    (hf : ∀ b, Settles F G φ (f b) (g (ψ b))) : Closes F G φ (p >>= f) (q >>= g) where
  onward := Parser.Onward.bind hc.onward fun b => Parser.Still.onward (hstill b)
  needs := Needs.bind_left hc.needs hc.onward fun b => Parser.Still.onward (hstill b)
  lands := hc.lands.settle hstill hG hf

/-- A value that is made of that of the part that closes. -/
protected theorem pure {f g : β → α} (hc : Closes F K ψ p q) (hG : ∀ b, G (f b) → K b)
    (h : ∀ b, g (ψ b) = φ (f b)) :
    Closes F G φ (p >>= fun b => pure (f b)) (q >>= fun b => pure (g b)) := by
  refine settle hc (fun _ => Parser.still_pure) ?_ fun b => ?_
  · intro m u b a hy ha
    obtain ⟨rfl, _⟩ := Parser.yields_pure.mp hy
    exact hG b ha
  · rw [h b]
    exact Rests.pure.settles

/-- What a rule does. -/
theorem call {c : Shape} {r : Rule c} {G : c.Value → Prop} {φ : c.Value → c.Value}
    (h : Closes F G φ r.body r.body) : Closes F G φ (Parser.call r) (Parser.call r) where
  onward := fun hs hsound hy => h.onward hs hsound (Parser.yields_call.mp hy)
  needs := fun _ _ _ hs hy => h.needs hs (Parser.yields_call.mp hy)
  lands := by
    intro s t u a hs hy hrest ha
    obtain ⟨v, hv, hat⟩ := h.lands hs (Parser.yields_call.mp hy) hrest ha
    exact ⟨v, Parser.yields_call.mpr hv, hat⟩

/-- A node that is finished behind the part that closes. -/
theorem finish {G : Node → Prop} {o : Opened} {P Q : β → Production Node}
    (hc : Closes F K ψ p q) (hG : ∀ info b, G ⟨info, P b⟩ → K b)
    (h : ∀ b, F.Makes (P b) (Q (ψ b))) :
    Closes F G F.image (p >>= fun b => Parser.finish o (P b))
      (q >>= fun b => Parser.finish o (Q b)) where
  onward := Parser.Onward.bind hc.onward fun _ => Parser.Still.onward Parser.still_finish
  needs := Needs.bind_left hc.needs hc.onward fun _ => Parser.Still.onward Parser.still_finish
  lands := hc.lands.finish hG h

/-- A node whose last token is of kind `k`. -/
theorem require {G : Node → Prop} {o : Opened} {k : TokenKind} {P Q : Production Node}
    (h : F.Makes P Q) :
    Closes F G F.image (Parser.require k >>= fun _ => Parser.finish o P)
      (Parser.require k >>= fun _ => Parser.finish o Q) :=
  finish (P := fun _ => P) (Q := fun _ => Q) (K := fun _ => True) ((takes_require k).closes id)
    (fun _ _ _ => trivial) fun _ => h

/-- A node whose last token is whatever comes next. -/
theorem advance {G : Node → Prop} {o : Opened} {P Q : Production Node} (h : F.Makes P Q) :
    Closes F G F.image (Parser.advance >>= fun _ => Parser.finish o P)
      (Parser.advance >>= fun _ => Parser.finish o Q) :=
  finish (P := fun _ => P) (Q := fun _ => Q) (K := fun _ => True) (takes_advance.closes id)
    (fun _ _ _ => trivial) fun _ => h

/-- A choice by the next token and the current one. -/
theorem glance {f g : TokenKind → TokenKind → Parser α}
    (h : ∀ k next next', k.Blurs next next' → Closes F G φ (f next k) (g next' k)) :
    Closes F G φ (Parser.peek >>= fun next => Parser.kind >>= f next)
      (Parser.peek >>= fun next => Parser.kind >>= g next) where
  onward := fun {s _ _} hs hsound hy =>
    (h s.kind s.stream.peek s.stream.peek fun _ _ => Iff.rfl).onward hs hsound hy
  needs := fun s _ _ hs hy =>
    (h s.kind s.stream.peek s.stream.peek fun _ _ => Iff.rfl).needs hs hy
  lands := by
    intro s t u a hs hy hrest ha
    obtain ⟨v, hv, hat⟩ :=
      (h s.kind s.stream.peek t.stream.peek hs.forked.stream.peek).lands hs hy hrest ha
    refine ⟨v, ?_, hat⟩
    show (g t.stream.peek t.kind).Yields t (φ a) v
    rw [hs.kind]
    exact hv

/-- Behind a token that has to be there. -/
protected theorem expect {k : TokenKind} {p q p' q' : Parser α} (hp : Closes F G φ p q) :
    Closes F G φ (Parser.expect k >>= fun c => if c = true then p else p')
      (Parser.expect k >>= fun c => if c = true then q else q') := by
  have taken {p p' : Parser α} {s u : ParseState} {a : α} (hs : s.tolerates = false) :
      (Parser.expect k >>= fun c => if c = true then p else p').Yields s a u ↔
        (Parser.require k >>= fun _ => p).Yields s a u := by
    rw [Parser.yields_bind, Parser.yields_bind]
    constructor
    · rintro ⟨c, m, hm, hu⟩
      obtain ⟨hk, rfl, rfl⟩ := (Parser.yields_expect hs).mp hm
      exact ⟨(), _, (Parser.yields_require hs).mpr ⟨hk, rfl⟩, hu⟩
    · rintro ⟨_, m, hm, hu⟩
      obtain ⟨hk, rfl⟩ := (Parser.yields_require hs).mp hm
      exact ⟨true, _, (Parser.yields_expect hs).mpr ⟨hk, rfl, rfl⟩, hu⟩
  have hrequire : Closes F G φ (Parser.require k >>= fun _ => p)
      (Parser.require k >>= fun _ => q) := skip (takes_require k).follows hp
  refine ⟨fun hs hsound hy => ?_, fun s u a hs hy => ?_, fun s t u a hs hy hrest ha => ?_⟩
  · exact hrequire.onward hs hsound ((taken hs).mp hy)
  · exact hrequire.needs hs ((taken hs.strict).mp hy)
  · obtain ⟨v, hv, hat⟩ := hrequire.lands hs ((taken hs.strict).mp hy) hrest ha
    exact ⟨v, (taken hs.tolerates).mpr hv, hat⟩

end Closes

namespace Rests

/-- A part behind a token that stands at neither side of the fork, if the token is there. -/
theorem after {k : TokenKind} {G : Option Node → Prop} {p q : Parser Node} (hk : k ≠ .eof)
    (hfirst : F.first.kind ≠ k) (hsecond : F.second.kind ≠ k)
    (hp : Closes F (fun _ => True) F.image p q) :
    Rests F G (Option.map F.image) (Parser.after k p) (Parser.after k q) := by
  have hsome : Closes F G (Option.map F.image) (Parser.optionally true p)
      (Parser.optionally true q) := .pure hp (fun _ _ => trivial) fun _ => rfl
  have hnone : Rests F G (Option.map F.image) (Parser.optionally false p)
      (Parser.optionally false q) := .pure
  have honward (c : Bool) : (Parser.optionally c p).Onward := by
    cases c
    · exact hnone.onward
    · exact hsome.onward
  refine ⟨Parser.Onward.bind (Follows.eat (F := F) hk).onward honward, ?_, ?_⟩
  · refine Lands.bind (Follows.eat hk) honward (fun c => ?_) ?_
    · cases c
      · exact hnone.lands
      · exact hsome.lands
    · intro s t m u c n hs hy hm hu hrest _
      rcases Parser.yields_eat.mp hy with ⟨_, rfl, _⟩ | ⟨_, _, rfl⟩
      · exact absurd hrest (hsome.needs hm hu)
      · exact absurd hm.rest (Nat.ne_of_gt hs.left_lt)
  · intro s t u n hs hy hrest hn
    obtain ⟨c, m, hm, hu⟩ := Parser.yields_bind.mp hy
    rcases Parser.yields_eat.mp hm with ⟨hkind, _, _⟩ | ⟨_, rfl, rfl⟩
    · exact absurd (hs.stands.kind.symm.trans hkind) hfirst
    · obtain ⟨v, hv, hat⟩ := hnone.settles hs hu hrest hn
      have heat : (Parser.eat k).Yields t false t :=
        Parser.yields_eat.mpr (Or.inr ⟨hs.kind ▸ hsecond, rfl, rfl⟩)
      exact ⟨v, Parser.yields_bind.mpr ⟨false, t, heat, hv⟩, hat⟩

/-- What a rule does. -/
theorem call {c : Shape} {r : Rule c} {G : c.Value → Prop} {φ : c.Value → c.Value}
    (h : Rests F G φ r.body r.body) : Rests F G φ (Parser.call r) (Parser.call r) where
  onward := fun hs hsound hy => h.onward hs hsound (Parser.yields_call.mp hy)
  lands := by
    intro s t u a hs hy hrest ha
    obtain ⟨v, hv, hat⟩ := h.lands hs (Parser.yields_call.mp hy) hrest ha
    exact ⟨v, Parser.yields_call.mpr hv, hat⟩
  settles := by
    intro s t u a hs hy hrest ha
    obtain ⟨v, hv, hat⟩ := h.settles hs (Parser.yields_call.mp hy) hrest ha
    exact ⟨v, Parser.yields_call.mpr hv, hat⟩

/-- A part that yields none of the values in question. -/
theorem never {p q : Parser α} (honward : p.Onward) (h : ∀ {s t a}, p.Yields s a t → ¬G a) :
    Rests F G φ p q where
  onward := honward
  lands := fun _ _ _ _ _ hy _ ha => absurd ha (h hy)
  settles := fun _ _ _ _ _ hy _ ha => absurd ha (h hy)

/-- What rests for each value rests for any. -/
theorem of_forall [Nonempty α] {p q : Parser α} (h : ∀ a, Rests F (· = a) φ p q) :
    Rests F G φ p q where
  onward := (h (Classical.arbitrary α)).onward
  lands := fun _ _ _ a hs hy hrest _ => (h a).lands hs hy hrest rfl
  settles := fun _ _ _ a hs hy hrest _ => (h a).settles hs hy hrest rfl

end Rests
end PhpSyntax
