/-
What is read between two states of a strict parse.

A state of a strict parse is `Reading` its text where it is at one of the tokens or at the
end.  What is read from there on keeps the state so, and lies between the tokens of both
states (`Reads`).  Only moves are needed for that, so whatever a part of a body yields, the
states that it passes are `Reading`.  A node of a program that a rule has made is what the rule
yields from such a state (`parse_read`).
-/
import PhpSyntax.Proofs.Progress.Yields
import PhpSyntax.Proofs.Span.Nesting
import PhpSyntax.Proofs.Stream.Order
import PhpSyntax.Proofs.Typing.Tree

namespace PhpSyntax

/-- The point behind a token, in the column where the token starts. -/
def Token.anchor (t : Token) : Position := ⟨t.start.line, t.start.column, t.stop.offset⟩

structure Between (t u : Token) (ns : List Node) : Prop where
  le : t.stop.offset ≤ u.start.offset
  starts : ∀ n ∈ ns, t.stop.offset ≤ n.span.start.offset
  stops : ∀ n ∈ ns, n.span.stop.offset ≤ u.start.offset

/-- Where spans stay as they are, what lies between two tokens still does. -/
theorem Between.mapInfo {t u : Token} {ns : List Node} (h : Between t u ns)
    {g : NodeInfo → NodeInfo} (hg : ∀ info, (g info).span = info.span) :
    Between t u (ns.map (Node.mapInfo g)) := by
  refine ⟨h.le, List.forall_mem_map.mpr fun n hn => ?_, List.forall_mem_map.mpr fun n hn => ?_⟩
  · rw [Node.span_mapInfo hg]
    exact h.starts n hn
  · rw [Node.span_mapInfo hg]
    exact h.stops n hn

/-- The current token is a token of the text. -/
theorem Stream.OnTokens.token {source : String} {s : Stream} (h : s.OnTokens source)
    (hk : s.current.kind ≠ .eof) : ∃ t ∈ tokenize source, s.current = t.forGrammar s.options := by
  rcases h.current with e | ⟨t, ht, _, e⟩
  · exact absurd (congrArg Token.kind e) hk
  · exact ⟨t, ht, e⟩

/-- The kinds that tokens of other kinds have in the eyes of the grammar. -/
def TokenKind.assumed : List TokenKind := [.semicolon, .kwEcho, .identifier]

theorem Token.forGrammar_kind (o : Options) (t : Token) :
    (t.forGrammar o).kind = t.kind ∨ (t.forGrammar o).kind ∈ TokenKind.assumed := by
  unfold forGrammar
  split
  · exact Or.inr (by simp [TokenKind.assumed])
  · exact Or.inr (by simp [TokenKind.assumed])
  · split
    · exact Or.inl rfl
    · exact Or.inr (by simp [TokenKind.assumed])
  · exact Or.inl rfl

/-- A token that is what the grammar sees in it. -/
theorem Stream.OnTokens.genuine {source : String} {s : Stream} (h : s.OnTokens source)
    (hk : s.current.kind ∉ .eof :: TokenKind.assumed) :
    ∃ t ∈ tokenize source, t.kind = s.current.kind ∧ t.start = s.current.start ∧
      t.stop = s.current.stop := by
  obtain ⟨heof, hassumed⟩ := List.ne_and_not_mem_of_not_mem_cons hk
  obtain ⟨t, ht, e⟩ := h.token heof
  rw [e] at hassumed ⊢
  have hkind := (Token.forGrammar_kind s.options t).resolve_right hassumed
  exact ⟨t, ht, hkind.symm, by rw [Token.forGrammar_start], by rw [Token.forGrammar_stop]⟩

/-! ## Tokens of one line -/

theorem Position.after_plain {cs : List Char} (h : ∀ c ∈ cs, c.utf8Size = 1 ∧ c ≠ '\n')
    (p : Position) : p.after cs = ⟨p.line, p.column + cs.length, p.offset + cs.length⟩ := by
  induction cs generalizing p with
  | nil => rfl
  | cons c cs ih =>
    obtain ⟨⟨hsize, hline⟩, hrest⟩ := List.forall_mem_cons.mp h
    rw [after_cons, ih hrest, next, if_neg hline, hsize, List.length_cons]
    simp only [Position.mk.injEq, true_and]
    omega

theorem Contiguous.stop_eq {p q : Position} {ts : List Token} (h : Contiguous p ts q) :
    ∀ t ∈ ts, t.stop = t.start.advance t.text := by
  induction ts generalizing p with
  | nil => simp
  | cons u ts ih =>
    obtain ⟨rfl, _, hstop, _, hrest⟩ := h
    exact List.forall_mem_cons.mpr ⟨hstop, ih hrest⟩

structure Token.IsPlain (width : Nat) (t : Token) : Prop where
  plain : ∀ c ∈ t.text.toList, c.utf8Size = 1 ∧ c ≠ '\n'
  length : t.text.toList.length = width

/-- The anchor of such a token is the boundary behind it, moved back by its width. -/
theorem Token.IsPlain.back_stop {source : String} {t : Token} {width : Nat} (h : t.IsPlain width)
    (ht : t ∈ tokenize source) :
    t.stop.back width = t.anchor ∧ t.stop.offset = t.start.offset + width := by
  rw [anchor, (tokenize_contiguous source).stop_eq t ht, Position.advance,
    Position.after_plain h.plain, h.length]
  simp [Position.back]

/-- Such a token has its anchor at the boundary when it is consumed. -/
theorem Stream.OnTokens.anchor {source : String} {s : Stream} {width : Nat}
    (h : s.OnTokens source) (hk : s.current.kind ∉ .eof :: TokenKind.assumed)
    (hplain : ∀ t ∈ tokenize source, t.kind = s.current.kind → t.IsPlain width) :
    ∃ t ∈ tokenize source, t.kind = s.current.kind ∧ t.start = s.current.start ∧
      t.stop = s.current.stop ∧ s.advance.prev.back width = t.anchor ∧
      t.stop.offset = t.start.offset + width := by
  obtain ⟨t, ht, hkind, hstart, hstop⟩ := h.genuine hk
  have hsolid : s.atTag = false := by
    have hne : s.current.kind ≠ .semicolon := fun e => hk (by simp [e, TokenKind.assumed])
    simp [atTag, hne]
  have hprev : s.advance.prev = t.stop := by simp [Stream.advance, hsolid, hstop]
  rw [hprev]
  exact ⟨t, ht, hkind, hstart, hstop, (hplain t ht hkind).back_stop ht⟩

/-! ## Reading -/

namespace ParseState

structure Reading (source : String) (s : ParseState) : Prop where
  strict : s.tolerates = false
  sound : s.stream.Sound
  tokens : s.stream.OnTokens source

/-- The bench on which what is read from the state `s` on comes to lie. -/
def bench (s : ParseState) : Bench := [.opened ⟨s.stream.current.start, []⟩]

structure Reads (source : String) (s : ParseState) (ns : List Node) (t : ParseState) : Prop where
  reading : t.Reading source
  le : s.offset ≤ t.offset
  prev_le : s.stream.prev.offset ≤ t.stream.prev.offset
  starts : ∀ n ∈ ns, s.offset ≤ n.span.start.offset
  stops : ∀ n ∈ ns, n.span.stop.offset ≤ t.offset
  begun : ∀ n ∈ ns, n.span.start.offset ≤ t.offset

namespace Reading

variable {source : String} {s t : ParseState}

/-- Nothing is read where the stream stays as it is. -/
theorem same (h : s.Reading source) (ht : t.stream = s.stream) : t.Reading source where
  strict := (congrArg (·.options.suppressErrors) ht).trans h.strict
  sound := ht ▸ h.sound
  tokens := ht ▸ h.tokens

theorem advance (h : s.Reading source) (hk : s.kind ≠ .eof) : s.advance.Reading source :=
  ⟨h.strict, Stream.advance_sound h.sound, h.tokens.advance hk⟩

theorem opened (h : s.Reading source) (hk : s.kind ≠ .eof) :
    s.openNode.2.advance.Reading source :=
  advance (h.same rfl) hk

/-- No token of a text is empty. -/
theorem lt_advance (h : s.Reading source) (hk : s.kind ≠ .eof) : s.offset < s.advance.offset := by
  obtain ⟨t, ht, e⟩ := h.tokens.token hk
  have hfilled := Token.start_lt_stop ht
  have hbehind : s.stream.current.stop.offset ≤ s.stream.advance.current.start.offset :=
    Stream.stop_le_advance h.sound
  rw [e, Token.forGrammar_stop] at hbehind
  show s.stream.current.start.offset < s.stream.advance.current.start.offset
  rw [e, Token.forGrammar_start]
  omega

theorem here (h : s.Reading source) : s.Reads source [] s :=
  ⟨h, Nat.le_refl _, Nat.le_refl _, List.forall_mem_nil _, List.forall_mem_nil _,
    List.forall_mem_nil _⟩

theorem stage (h : s.Reading source) :
    Stage (32 * s.stream.rest + 32) 32 0 (s.bench, s) s.bench s where
  moves := Relation.ReflTransGen.refl
  sound := h.sound
  paid := Nat.le_refl _
  limit := Nat.le_refl _
  covers := fun _ => Nat.zero_le _
  starts := List.forall_mem_singleton.mpr (Nat.le_refl _)

theorem reads (h : s.Reading source) {ns : List Node}
    (hm : Moves (s.bench, s) (stack ns s.bench, t)) :
    s.Reads source ns t := by
  have hplaced : Placed (stack ns s.bench, t) := hm.placed
    { sound := h.sound
      starts := h.stage.starts
      ordered := ⟨fun o ho => absurd ho List.not_mem_nil, trivial⟩
      ended := fun _ g hg => absurd hg List.not_mem_nil }
  have hstrict : t.tolerates = false := by
    rw [tolerates, hm.constant.1]
    exact h.strict
  have hsound : t.stream.Sound := hplaced.sound
  have hprev : t.stream.prev.offset ≤ t.offset := hsound.prev_le
  have hitem {n : Node} (hn : n ∈ ns) : n.span.start.offset ≤ t.offset :=
    hplaced.starts (.node n) (mem_stack.mpr (Or.inl ⟨n, hn, rfl⟩))
  refine ⟨⟨hstrict, hsound, h.tokens.leads hm.leads⟩, ?_, hm.leads.prev_le h.sound, ?_, ?_,
    fun n hn => hitem hn⟩
  · exact hplaced.starts (.opened ⟨s.stream.current.start, []⟩)
      (mem_stack.mpr (Or.inr List.mem_cons_self))
  · exact fun n hn => (Bench.ordered_stack.mp hplaced.ordered).1 n hn _ List.mem_cons_self
  · intro n hn
    have hended : n.span.stop.offset ≤ t.stream.prev.offset ∨
        (n.production.isHollow = true ∧ n.span.stop.offset = n.span.start.offset) :=
      (hplaced.ended hstrict _ (Bench.signature_mem_stack (Node.mem_walkFrom hn) _)).1.stop_le
    rcases hended with hle | ⟨_, hempty⟩
    · omega
    · rw [hempty]
      exact hitem hn

theorem reads_one (h : s.Reading source) {n : Node}
    (hm : Moves (s.bench, s) (.node n :: s.bench, t)) : s.Reads source [n] t := h.reads hm

theorem expression (h : s.Reading source) {n : Node} (he : Parser.expression.Yields s n t) :
    s.Reads source [n] t :=
  h.reads_one ((Grammar.expressionFrom_sat h.stage (by decide)).of_yields h.sound
    (Parser.yields_call.mp he)).moves

theorem statement (h : s.Reading source) {n : Node}
    (he : (Parser.call .statement).Yields s n t) : s.Reads source [n] t :=
  h.reads_one ((Sat.statement h.stage (by decide)).of_yields h.sound he).moves

theorem endStatement (h : s.Reading source) {a : Unit} (he : Parser.endStatement.Yields s a t) :
    t.Reading source := by
  rcases (Parser.yields_endStatement h.strict).mp he with ⟨hk, rfl⟩ | ⟨_, rfl⟩
  · exact h.advance (by simp [hk])
  · exact h

/-- What is behind the current token is behind its end. -/
theorem stop_le (h : s.Reading source) {t : Token} (ht : t.stop = s.stream.current.stop) :
    t.stop.offset ≤ s.advance.offset := by
  rw [ht]
  exact Stream.stop_le_advance h.sound

end Reading

theorem Reads.between {source : String} {s t : ParseState} {ns : List Node} {l r : Token}
    (h : s.Reads source ns t) (hl : l.stop.offset ≤ s.offset)
    (hr : r.start = t.stream.current.start) : Between l r ns := by
  have hoffset : r.start.offset = t.offset := congrArg Position.offset hr
  refine ⟨?_, fun n hn => Nat.le_trans hl (h.starts n hn), fun n hn => ?_⟩
  · have hle := h.le
    omega
  · have hle := h.stops n hn
    omega

end ParseState

namespace Grammar

variable {source : String} {s t : ParseState}

theorem anchored_yields (hs : s.tolerates = false) {k : TokenKind} {width : Nat}
    {a : Option Position} :
    (anchored k width).Yields s a t ↔
      s.kind = k ∧ a = some (s.advance.stream.prev.back width) ∧ t = s.advance := by
  have hbehind {u : ParseState} : (Parser.optionally true (anchorBehind width)).Yields u a t ↔
      a = some (u.stream.prev.back width) ∧ t = u := Parser.yields_pure
  refine Parser.yields_bind.trans ⟨?_, ?_⟩
  · rintro ⟨b, u, hb, h⟩
    obtain ⟨hk, rfl, rfl⟩ := (Parser.yields_expect hs).mp hb
    exact ⟨hk, hbehind.mp h⟩
  · rintro ⟨hk, h⟩
    exact ⟨true, s.advance, (Parser.yields_expect hs).mpr ⟨hk, rfl, rfl⟩, hbehind.mpr h⟩

/-- The expression between the parentheses of a condition. -/
theorem condition_yields (hs : s.Reading source) {n : Node} (h : condition.Yields s n t) :
    ∃ u, s.kind = .lParen ∧ Parser.expression.Yields s.advance n u ∧ u.Reading source ∧
      u.kind = .rParen ∧ t = u.advance := by
  rw [condition, Parser.yields_bind] at h
  obtain ⟨_, s₁, hopen, h⟩ := h
  obtain ⟨hl, rfl⟩ := (Parser.yields_require hs.strict).mp hopen
  obtain ⟨m, u, hm, h⟩ := Parser.yields_bind.mp h
  have hu := ((hs.advance (by simp [hl])).expression hm).reading
  obtain ⟨_, s₂, hclose, h⟩ := Parser.yields_bind.mp h
  obtain ⟨hr, rfl⟩ := (Parser.yields_require hu.strict).mp hclose
  obtain ⟨rfl, rfl⟩ := Parser.yields_pure.mp h
  exact ⟨u, hl, hm, hu, hr, rfl⟩

theorem loopBody_yields (hs : s.Reading source) {close : TokenKind} (hclose : close.IsSolid)
    {r : Node × Bool} (h : (loopBody close).Yields s r t) : s.Reads source [r.1] t :=
  hs.reads ((loopBody_sat hclose hs.stage (by decide)).of_yields hs.sound h).moves

end Grammar

/-! ## Programs -/

/-- In strict mode a node of a program is what a rule yields from a state that reads the text,
with the comments that trail the nodes in it. -/
theorem parse_read {source : String} {fileName : Option String} {o : Options} {p : Program}
    (h : parse source fileName o = .ok p) (hs : o.suppressErrors = false) {n : Node}
    (hn : n ∈ p.tree) (hm : n.production.makers ≠ []) :
    ∃ g : NodeInfo → NodeInfo, (∀ info, (g info).span = info.span) ∧
      ∃ m ∈ n.production.makers, ∃ (k : Node) (s t : ParseState), s.Reading source ∧
        s.stream.options = o.effective ∧ s.kind ∈ m.1 ∧ m.2.Yields s k t ∧
        n.production = k.production.map (Node.mapInfo g) ∧ n.span = k.span := by
  obtain ⟨g, hg, m, hm, k, ⟨s, t, hmode, hoptions, hsound, htokens, hkind, hyields⟩, hk⟩ :=
    parse_made h hn hm
  have hstrict : s.tolerates = false := by
    rw [hmode, Scope.outermost_strict source hs]
    rfl
  exact ⟨g, hg, m, hm, k, s, t, ⟨hstrict, hsound, htokens⟩, hoptions, hkind, hyields, hk⟩

end PhpSyntax
