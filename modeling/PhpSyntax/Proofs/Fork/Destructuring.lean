/-
Patterns in loops and in assignments.

A loop over a collection reads a short pattern for what it is.  An assignment reads it as an
array, which becomes a pattern in front of the equals sign.  To compare the two, the tokens of
an assignment are laid out as those of the loop are: they part behind the pattern.

An array has no skipped places, so neither may the pattern (`destructuring_agrees`).
-/
import PhpSyntax.Proofs.Fork.Forms
import PhpSyntax.Proofs.Fork.Pattern

namespace PhpSyntax

variable {F : Fork} {s t u v : ParseState} {m n : Node}

namespace ParseState

def variableHere (s : ParseState) : Node × ParseState :=
  let v := s.openNode.2.advance
  (⟨(v.finishNode s.openNode.1).1, .variable (.named (Grammar.withoutDollar s.stream.current.text))⟩,
    (v.finishNode s.openNode.1).2)

/-- The state in front of the pattern of a loop: from the keyword on, it is behind a
parenthesis, a variable and another keyword. -/
def patternStart (s : ParseState) : ParseState :=
  s.openNode.2.advance.advance.variableHere.2.advance

theorem patternStart_stream (s : ParseState) :
    s.patternStart.stream = s.stream.advance.advance.advance.advance := rfl

theorem patternStart_sound (h : s.stream.Sound) : s.patternStart.stream.Sound := by
  rw [patternStart_stream]
  exact Stream.advance_sound (Stream.advance_sound (Stream.advance_sound (Stream.advance_sound h)))

/-- One node is made in front of the pattern. -/
theorem patternStart_kept (s : ParseState) : s.patternStart.stream.options = s.stream.options ∧
    s.patternStart.stream.source = s.stream.source ∧ s.patternStart.stream.stop = s.stream.stop ∧
      s.patternStart.nextId = s.nextId + 1 ∧
        s.patternStart.namespaceDepth = s.namespaceDepth :=
  ⟨rfl, rfl, rfl, rfl, rfl⟩

/-- Without comments none are put aside. -/
theorem patternStart_silent (hdoc : s.stream.options.extractDoc = false)
    (hcomments : s.stream.comments = #[]) (hdeferred : s.trivia.deferred = #[]) :
    s.patternStart.stream.comments = #[] ∧ s.patternStart.trivia.deferred = #[] := by
  have hbehind : s.stream.advance.advance.advance.comments = #[] :=
    Stream.advance_silent hdoc (Stream.advance_silent hdoc (Stream.advance_silent hdoc hcomments))
  constructor
  · rw [patternStart_stream]
    exact Stream.advance_silent hdoc hbehind
  · let v := s.openNode.2.advance.advance.openNode.2.advance
    have htrail := (Trivia.trail_of_nothing (t := v.trivia) hdeferred v.nextId v.stream.prev
      v.stream.current.isEof).2
    rw [← hbehind] at htrail
    exact htrail

end ParseState

namespace Grammar
open PhpSyntax.Parser

/-! ## Variables alone -/

theorem simpleVariable_alone (hk : s.kind = .variable) :
    simpleVariable.Yields s s.variableHere.1 s.variableHere.2 := by
  have hopen : s.openNode.2.kind = .variable := hk
  rw [simpleVariable, yields_openNode_bind, yields_kind_bind, hopen]
  show (Parser.text >>= _).Yields s.openNode.2 _ _
  rw [Parser.text, yields_read_bind, yields_advance_bind]
  exact yields_finish.mpr ⟨rfl, rfl⟩

/-- A variable is all of an expression if what follows is no part of an operand. -/
theorem expression_variable (hk : s.kind = .variable) (hend : s.advance.kind ∈ operandEnds) :
    Parser.expression.Yields s n u ↔ n = s.variableHere.1 ∧ u = s.variableHere.2 := by
  have hvariable : (call (.variable false)).Yields s s.variableHere.1 s.variableHere.2 := by
    refine yields_call.mpr ?_
    show (variableWithLookups false).Yields s s.variableHere.1 s.variableHere.2
    rw [variableWithLookups, yields_kind_bind, hk]
    exact yields_bind.mpr ⟨_, _, yields_call.mpr (simpleVariable_alone hk), lookups_ends hend⟩
  have hoperand : operand.Yields s s.variableHere.1 s.variableHere.2 := by
    have hin : Category.variable.set.contains s.stream.current.kind = true := by
      rw [show s.stream.current.kind = .variable from hk]
      decide
    have hends := ofToken?_operandEnds s.variableHere.2.kind hend
    rw [operand, yields_kind_bind, hk]
    show simpleOperand.Yields s s.variableHere.1 s.variableHere.2
    rw [simpleOperand, isIn, yields_read_bind, hin, if_pos rfl, assignable]
    refine yields_bind.mpr ⟨_, _, hvariable, ?_⟩
    rw [yields_kind_bind, hends.2.1, hends.2.2]
    exact yields_pure.mpr ⟨rfl, rfl⟩
  have hexpression := expression_of_operand hoperand hend
  constructor
  · intro h
    exact h.det hexpression
  · rintro ⟨rfl, rfl⟩
    exact hexpression

/-! ## Loops -/

/-- An empty block is two braces. -/
theorem block_empty (hs : s.tolerates = false) (hsound : s.stream.Sound) (hk : s.kind = .lBrace)
    (h : block.Yields s n u) (hn : n.production = .block []) :
    u.stream.rest + 2 = s.stream.rest := by
  rw [block, yields_isAt_bind, decide_eq_true hk, if_pos rfl, yields_openNode_bind,
    yields_advance_bind] at h
  obtain ⟨ns, r, hns, h⟩ := yields_bind.mp h
  obtain ⟨_, w, hw, h⟩ := yields_bind.mp h
  obtain ⟨rfl, rfl⟩ := yields_finish.mp h
  obtain rfl : ns = [] := Production.block.inj hn
  have hns : (statements closeBrace).Yields s.openNode.2.advance [] r := yields_call.mp hns
  rcases yields_statements.mp hns with ⟨_, _, rfl⟩ | ⟨_, _, _, _, _, _, _, _, hcons⟩
  · have hs' : s.openNode.2.advance.tolerates = false := hs
    obtain ⟨hclose, rfl⟩ := (yields_require hs').mp hw
    have hne : s.kind ≠ .eof := hk ▸ by decide
    have hne' : s.advance.kind ≠ .eof := by
      rw [show s.advance.kind = .rBrace from hclose]
      decide
    have hopened : s.stream.advance.rest + 1 = s.stream.rest := Stream.rest_advance hsound hne
    have hclosed : s.stream.advance.advance.rest + 1 = s.stream.advance.rest :=
      Stream.rest_advance (Stream.advance_sound hsound) hne'
    show s.stream.advance.advance.rest + 2 = s.stream.rest
    omega
  · cases hcons

theorem loopVariables_onward : loopVariables.Onward :=
  KeepsPace.onward fun _ hs => ⟨_, _, loopVariables_sat (Stage.start hs) (by decide)⟩

/-- Where there is no key, a bracket behind the keyword opens the pattern. -/
theorem loopVariables_pattern {vs : LoopVariables} (has : s.kind = .kwAs)
    (hbracket : s.advance.kind = .lBracket) (h : loopVariables.Yields s vs u)
    (hkey : vs.key = none) : listPattern.Yields s.advance vs.value u := by
  rw [loopVariables] at h
  obtain ⟨_, p, hp, h⟩ := yields_bind.mp h
  obtain ⟨_, rfl, rfl⟩ := (yields_eat.mp hp).resolve_right fun hne => hne.1 has
  rw [if_pos rfl, anchorBehind, yields_read_bind] at h
  obtain ⟨first, q, hfirst, h⟩ := yields_bind.mp h
  rw [loopVariable, yields_kind_bind, hbracket] at hfirst
  obtain ⟨arrow, r, hr, hlast⟩ := yields_bind.mp h
  rcases yields_eat.mp hr with ⟨_, rfl, rfl⟩ | ⟨_, rfl, rfl⟩
  · obtain ⟨_, _, _, hlast⟩ := yields_bind.mp hlast
    obtain ⟨_, _, _, hlast⟩ := yields_bind.mp hlast
    obtain ⟨rfl, _⟩ := yields_pure.mp hlast
    cases hkey
  · obtain ⟨rfl, rfl⟩ := yields_pure.mp hlast
    exact hfirst

/-- The value of a loop over a variable, if it is a short pattern, stands in front of the
parenthesis that the body is behind. -/
theorem foreach_pattern {source value body : Node} (hs : s.tolerates = false)
    (hsound : s.stream.Sound) (hsource : s.advance.advance.kind = .variable)
    (has : s.advance.advance.advance.kind = .kwAs)
    (hbracket : s.patternStart.kind = .lBracket) (h : foreachStatement.Yields s n u)
    (hn : n.production = .foreach source none value body false) :
    source = s.openNode.2.advance.advance.variableHere.1 ∧ ∃ w c,
      listPattern.Yields s.patternStart value w ∧ w.stream.Sound ∧ w.tolerates = false ∧
        w.kind = .rParen ∧ statement.Yields w.advance body c ∧ u.stream = c.stream := by
  have hs' : s.openNode.2.advance.tolerates = false := hs
  rw [foreachStatement, yields_openNode_bind, yields_advance_bind] at h
  obtain ⟨_, a, ha, h⟩ := yields_bind.mp h
  obtain ⟨_, _, rfl⟩ := (anchored_yields hs').mp ha
  obtain ⟨e, b, he, h⟩ := yields_bind.mp h
  have hsource : s.openNode.2.advance.advance.kind = .variable := hsource
  have has : s.openNode.2.advance.advance.advance.kind = .kwAs := has
  obtain ⟨rfl, rfl⟩ := (expression_variable hsource (has ▸ by decide)).mp he
  obtain ⟨vs, w, hvs, h⟩ := yields_bind.mp h
  split at h
  · obtain ⟨_, hfatal⟩ := h
    cases hfatal
  obtain ⟨_, x, hx, h⟩ := yields_bind.mp h
  obtain ⟨⟨body', shortform⟩, c, hbody, h⟩ := yields_bind.mp h
  obtain ⟨_, _, hfinish, h⟩ := yields_bind.mp h
  obtain ⟨rfl, rfl⟩ := yields_finish.mp hfinish
  obtain ⟨rfl, rfl⟩ := yields_pure.mp h
  obtain ⟨rfl, hkey, rfl, rfl, rfl⟩ := Production.foreach.inj hn
  refine ⟨rfl, ?_⟩
  have hvs' : listPattern.Yields s.patternStart vs.value w :=
    loopVariables_pattern has hbracket hvs hkey
  have hgo := loopVariables_onward (s := s.openNode.2.advance.advance.variableHere.2) hs
    (Stream.advance_sound (Stream.advance_sound (Stream.advance_sound hsound))) hvs
  have hw : w.tolerates = false := hgo.strict hs
  obtain ⟨hparen, _, rfl⟩ := (anchored_yields hw).mp hx
  refine ⟨w, c, hvs', hgo.sound, hw, hparen, ?_, rfl⟩
  rw [loopBody, yields_isAt_bind] at hbody
  split at hbody
  · obtain ⟨_, _, _, hbody⟩ := yields_bind.mp hbody
    cases (yields_pure.mp hbody).1
  · obtain ⟨_, _, hstatement, hbody⟩ := yields_bind.mp hbody
    obtain ⟨he, rfl⟩ := yields_pure.mp hbody
    cases he
    exact yields_call.mp hstatement

/-! ## Assignments -/

/-- A variable behind an equals sign is what is assigned. -/
theorem assignment_variable (hleft : isConstantName m = false)
    (hsource : s.advance.kind = .variable) (hend : s.advance.advance.kind ∈ operandEnds) :
    ∃ right n u, (assignment m .assign).Yields s n u ∧
      n.production = .assign .assign m right ∧ right.production = s.advance.variableHere.1.production ∧
        u.stream = s.stream.advance.advance := by
  let o := (s.openAt m.span.start).1
  let b := (s.openAt m.span.start).2.advance
  have hsource : b.kind = .variable := hsource
  have hright : Parser.expression.Yields b b.variableHere.1 b.variableHere.2 :=
    (expression_variable hsource hend).mpr ⟨rfl, rfl⟩
  refine ⟨b.variableHere.1, ⟨(b.variableHere.2.finishNode o).1, .assign .assign m b.variableHere.1⟩,
    (b.variableHere.2.finishNode o).2, ?_, rfl, rfl, rfl⟩
  rw [assignment, hleft]
  refine yields_bind.mpr ⟨o, (s.openAt m.span.start).2, yields_update.mpr rfl, ?_⟩
  refine yields_advance_bind.mpr ?_
  have hamp : decide (b.kind = .amp) = false := by
    rw [hsource]
    decide
  rw [yields_isAt_bind, hamp, Bool.and_false, if_neg Bool.false_ne_true]
  exact yields_bind.mpr ⟨_, _, hright, yields_finish.mpr ⟨rfl, rfl⟩⟩

theorem isConstantName_asPattern {items : List Node} (hm : m.production = .array items true) :
    isConstantName m.asPattern = false := by
  obtain ⟨info, p⟩ := m
  obtain rfl : p = .array items true := hm
  rw [Node.asPattern, Production.asPattern]
  rfl

/-- A short array in front of an equals sign, a variable and the end of the statement is a
pattern that is assigned to. -/
theorem statement_assigns (hk : s.kind = .lBracket)
    (hm : arrayLiteral.Yields s.openNode.2 m v) (hv : v.tolerates = false)
    (hequal : v.kind = .equal) (hsource : v.advance.kind = .variable)
    (hend : v.advance.advance.kind = .semicolon) :
    ∃ right a n u, statement.Yields s n u ∧ n.production = .expressionStatement a ∧
      a.production = .assign .assign m.asPattern right ∧
        right.production = v.advance.variableHere.1.production ∧
          u.stream = v.stream.advance.advance.advance := by
  have hk' : s.openNode.2.kind = .lBracket := hk
  obtain ⟨items, w, _, hfinish⟩ := (yields_arrayLiteral hk').mp hm
  have harray : m.production = .array items true := by
    rw [(yields_finish.mp hfinish).1]
  obtain ⟨right, a, c, ha, hassign, hright, hc⟩ :=
    assignment_variable (isConstantName_asPattern harray) hsource (hend ▸ by decide)
  have hck : c.kind = .semicolon := (congrArg (fun s : Stream => s.current.kind) hc).trans hend
  have hliteral : literal.Yields s.openNode.2 a c := by
    refine (yields_literal hk').mpr ⟨m, v, hm, ?_⟩
    rw [if_pos hequal]
    exact ha
  have hexpression : Parser.expression.Yields s.openNode.2 a c :=
    expression_of_operand (operand_of_literal (hk' ▸ by decide) hliteral) (hck ▸ by decide)
  have hct : c.tolerates = false := by
    rw [ParseState.tolerates, hc]
    exact hv
  obtain ⟨n, u, hstatement, hn, hu⟩ := expressionStatement_of hexpression hct hck
  refine ⟨right, a, n, u, ?_, hn, hassign, hright, hu.trans (congrArg Stream.advance hc)⟩
  rw [statement, Parser.peek, yields_read_bind, yields_kind_bind, hk]
  exact hstatement

end Grammar

/-! ## Two texts -/

/-- A text whose tokens may be those of a loop over a variable, with a short pattern and an
empty body. -/
structure PatternLoop (o : Options) (text : String) where
  keyword : Token
  lParen : Token
  source : Token
  kwAs : Token
  lBracket : Token
  /-- The tokens of the pattern behind its first. -/
  pattern : List Token
  rParen : Token
  lBrace : Token
  rBrace : Token
  tokens : grammarTokens o text =
    keyword :: lParen :: source :: kwAs :: lBracket :: pattern ++ [rParen, lBrace, rBrace]
  keyword_kind : keyword.kind = .kwForeach
  lParen_kind : lParen.kind = .lParen
  source_kind : source.kind = .variable
  kwAs_kind : kwAs.kind = .kwAs
  lBracket_kind : lBracket.kind = .lBracket
  rParen_kind : rParen.kind = .rParen
  lBrace_kind : lBrace.kind = .lBrace
  rBrace_kind : rBrace.kind = .rBrace

namespace PatternLoop

variable {o : Options} {text : String} (l : PatternLoop o text)

def assignment (mark : String) : List (TokenKind × String) :=
  (l.lBracket :: l.pattern).map Token.face ++
    [(.equal, "="), (.variable, l.source.text), (.semicolon, mark)]

structure Raw (before pattern behind : List Token) : Prop where
  source : tokenize text = before ++ l.lBracket :: (pattern ++ l.rParen :: behind)
  pattern : Token.visible o.effective pattern = l.pattern
  behind : Token.visible o.effective behind = [l.lBrace, l.rBrace]

theorem raw : ∃ before pattern behind, l.Raw before pattern behind := by
  have hsource : Token.visible o.effective (tokenize text) =
      [l.keyword, l.lParen, l.source, l.kwAs] ++ l.lBracket :: (l.pattern ++ l.rParen ::
        [l.lBrace, l.rBrace]) := by
    refine Eq.trans l.tokens ?_
    simp
  obtain ⟨before, b, rest, hrest, hb, _, hvisible⟩ := Token.exists_of_visible hsource
  obtain ⟨pattern, c, behind, rfl, hc, hpattern, hbehind⟩ := Token.exists_of_visible hvisible
  have hb := Token.eq_of_forGrammar hb (l.lBracket_kind ▸ by decide) (l.lBracket_kind ▸ by decide)
  have hc := Token.eq_of_forGrammar hc (l.rParen_kind ▸ by decide) (l.rParen_kind ▸ by decide)
  subst hb hc
  exact ⟨before, pattern, behind, hrest, hpattern, hbehind⟩

theorem lBracket_seen : l.lBracket.IsSeen :=
  Token.isSeen_of l.lBracket_kind rfl (by decide) (by decide)

theorem rParen_seen : l.rParen.IsSeen :=
  Token.isSeen_of l.rParen_kind rfl (by decide) (by decide)

theorem equal_seen : (l.rParen.as .equal "=").IsSeen :=
  Token.isSeen_of (k := .equal) rfl rfl (by decide) (by decide)

def assigned (mark : String) : List Token :=
  [.beyond text 0 .variable l.source.text .origin, .beyond text 1 .semicolon mark .origin]

/-- The fork behind the pattern.  The loop has made a node of its variable. -/
def parting (behind : List Token) (mark : String) : Fork where
  first := l.rParen
  firstAhead := behind
  second := l.rParen.as .equal "="
  secondAhead := l.assigned mark
  surplus := 1
  first_seen := l.rParen_seen
  second_seen := l.equal_seen

theorem hides (behind : List Token) (mark : String) (k : TokenKind) :
    (l.parting behind mark).Hides k := by
  intro j hj
  have hne : j ≠ .rParen ∧ j ≠ .equal := by
    revert j
    unfold TokenKind.sought
    split <;> simp
  show TokenKind.equal = j ↔ l.rParen.kind = j
  rw [l.rParen_kind]
  exact iff_of_false hne.2.symm hne.1.symm

def relaid (pattern : List Token) (mark : String) : List Token :=
  l.lBracket :: (pattern ++ l.rParen.as .equal "=" :: l.assigned mark)

variable {before pattern behind : List Token} {l}

theorem assigned_visible (mark : String) :
    Token.visible o.effective (l.assigned mark) = l.assigned mark := by
  have hvariable : (Token.beyond text 0 .variable l.source.text .origin).IsSeen :=
    Token.isSeen_of (k := .variable) rfl rfl (by decide) (by decide)
  have hmark : (Token.beyond text 1 .semicolon mark .origin).IsSeen :=
    Token.isSeen_of (k := .semicolon) rfl rfl (by decide) (by decide)
  rw [assigned, hvariable.visible_cons, hmark.visible_cons]
  rfl

theorem Raw.visible (h : l.Raw before pattern behind) (mark : String) :
    Token.visible o.effective (l.relaid pattern mark) =
      l.lBracket :: l.pattern ++ l.rParen.as .equal "=" :: l.assigned mark := by
  rw [relaid, l.lBracket_seen.visible_cons, Token.visible_append, h.pattern,
    l.equal_seen.visible_cons, assigned_visible]
  rfl

/-- What is relaid for the assignment stands apart. -/
theorem offsets_nodup (l : PatternLoop o text) (mark : String) :
    (offsets (l.lBracket :: l.pattern ++ l.rParen.as .equal "=" :: l.assigned mark)
      (Position.origin.advance text).offset).Nodup := by
  have hstarts : ((l.lBracket :: l.pattern ++ [l.rParen.as .equal "="]).map
      fun t => t.start.offset).Sublist ((grammarTokens o text).map fun t => t.start.offset) := by
    have hinfix : l.lBracket :: l.pattern ++ [l.rParen] <:+: grammarTokens o text := by
      rw [l.tokens]
      exact ⟨[l.keyword, l.lParen, l.source, l.kwAs], [l.lBrace, l.rBrace], by simp⟩
    simpa [Token.as] using hinfix.sublist.map fun t => t.start.offset
  have hapart : (l.assigned mark).Pairwise fun t u => t.start.offset < u.start.offset := by
    simp [assigned, Token.beyond]
  have hbehind : ∀ u ∈ l.assigned mark,
      (Position.origin.advance text).offset < u.start.offset := by
    intro u hu
    rw [assigned, List.mem_pair] at hu
    rcases hu with rfl | rfl
    · exact Token.lt_beyond text 0
    · exact Token.lt_beyond text 1
  simpa using relaid_nodup hstarts hapart hbehind

structure Enters (l : PatternLoop o text) (s : ParseState) : Prop where
  keyword : s.stream.current = l.keyword
  lParen : s.advance.stream.current = l.lParen
  source : s.advance.advance.stream.current = l.source
  kwAs : s.advance.advance.advance.stream.current = l.kwAs
  lBracket : s.patternStart.stream.current = l.lBracket

theorem enters (l : PatternLoop o text) (fileName : Option String) :
    l.Enters (.first text fileName o) := by
  have honward : (Stream.ofSource text o.effective).onward = l.keyword :: l.lParen :: l.source ::
      l.kwAs :: l.lBracket :: l.pattern ++ [l.rParen, l.lBrace, l.rBrace] := l.tokens
  have hkeyword := Stream.advance_of_onward honward
  have hlParen := Stream.advance_of_onward hkeyword.2
  have hsource := Stream.advance_of_onward hlParen.2
  have hkwAs := Stream.advance_of_onward hsource.2
  have hlBracket := Stream.advance_of_onward hkwAs.2
  have hpattern : (ParseState.first text fileName o).patternStart.stream.current = l.lBracket := by
    rw [ParseState.patternStart_stream]
    exact hlBracket.1
  exact ⟨hkeyword.1, hlParen.1, hsource.1, hkwAs.1, hpattern⟩

theorem Raw.ahead (h : l.Raw before pattern behind) (fileName : Option String) :
    (ParseState.first text fileName o).patternStart.stream.ahead =
      pattern ++ l.rParen :: behind := by
  have hin := l.enters fileName
  have hkind {s : Stream} {t : Token} {k : TokenKind} (hs : s.current = t) (ht : t.kind = k)
      (hk : k ≠ .eof) : s.current.kind ≠ .eof := by
    rw [hs, ht]
    exact hk
  have hlBracket := hin.lBracket
  rw [ParseState.patternStart_stream] at hlBracket ⊢
  have hkeyword := (Stream.OnTokens.first text o.effective).advance
    (hkind hin.keyword l.keyword_kind (by decide))
  have hlParen := hkeyword.advance (hkind hin.lParen l.lParen_kind (by decide))
  have hsource := hlParen.advance (hkind hin.source l.source_kind (by decide))
  have hkwAs := hsource.advance (hkind hin.kwAs l.kwAs_kind (by decide))
  have hsound := Stream.advance_sound (Stream.advance_sound (Stream.advance_sound
    (Stream.advance_sound (Stream.first_sound text o.effective))))
  exact (hkwAs.at_token hsound h.source (hkind hlBracket l.lBracket_kind (by decide))
    (congrArg Token.start hlBracket)).2

def second (l : PatternLoop o text) (fileName : Option String) (pattern : List Token)
    (mark : String) : ParseState :=
  (ParseState.relaid text fileName o (l.relaid pattern mark)).openNode.2

theorem second_stream (l : PatternLoop o text) (fileName : Option String) (pattern : List Token)
    (mark : String) : (l.second fileName pattern mark).stream.current = l.lBracket ∧
      (l.second fileName pattern mark).stream.ahead =
        pattern ++ l.rParen.as .equal "=" :: l.assigned mark := by
  have hup : (Stream.relaid text o (l.relaid pattern mark)).upcoming = l.relaid pattern mark := by
    rw [Stream.upcoming]
    show (l.relaid pattern mark).dropWhile _ = _
    rw [relaid, List.dropWhile_cons_of_neg (by simp [l.lBracket_seen.kept])]
  show (Stream.relaid text o (l.relaid pattern mark)).advance.current = _ ∧
    (Stream.relaid text o (l.relaid pattern mark)).advance.ahead = _
  rw [Stream.advance, hup]
  exact ⟨l.lBracket_seen.same _, rfl⟩

theorem second_kept (l : PatternLoop o text) (fileName : Option String) (pattern : List Token)
    (mark : String) : (l.second fileName pattern mark).stream.options = o.effective ∧
      (l.second fileName pattern mark).stream.source = text ∧
      (l.second fileName pattern mark).stream.stop = Position.origin.advance text ∧
      (l.second fileName pattern mark).nextId = 0 ∧
      (l.second fileName pattern mark).namespaceDepth = 0 :=
  ⟨rfl, rfl, rfl, rfl, rfl⟩

/-- The bracket that both parses start from moves the boundary to the same place. -/
theorem advance_prev (l : PatternLoop o text) {s t : Stream} (hs : s.current = l.lBracket)
    (ht : t.current = l.lBracket) : t.advance.prev = s.advance.prev := by
  have htag {u : Stream} (hu : u.current = l.lBracket) : u.atTag = false := by
    rw [Stream.atTag, hu, l.lBracket_kind]
    rfl
  simp only [Stream.advance, htag hs, htag ht, hs, ht]
  rfl

/-- In front of the pattern both parses have the same ahead of them, up to the fork. -/
theorem Raw.inside (h : l.Raw before pattern behind) (fileName : Option String) (mark : String)
    (hstrict : o.suppressErrors = false) (hdoc : o.extractDoc = false) :
    (l.second fileName pattern mark).openNode.1 =
        (ParseState.first text fileName o).patternStart.openNode.1 ∧
      ((ParseState.first text fileName o).patternStart.openNode.2.advance.Inside
          (l.parting behind mark) (l.second fileName pattern mark).openNode.2.advance ∨
        (ParseState.first text fileName o).patternStart.openNode.2.advance.AtFork
          (l.parting behind mark) (l.second fileName pattern mark).openNode.2.advance) := by
  generalize hs : (ParseState.first text fileName o).patternStart = s
  generalize ht : l.second fileName pattern mark = t
  have hcurrent : s.stream.current = l.lBracket := hs ▸ (l.enters fileName).lBracket
  have hcurrent' : t.stream.current = l.lBracket := ht ▸ (l.second_stream _ _ _).1
  have hsilent : s.stream.comments = #[] ∧ s.trivia.deferred = #[] :=
    hs ▸ ParseState.patternStart_silent hdoc (Stream.advance_silent hdoc rfl) rfl
  have hsilent' : t.stream.comments = #[] ∧ t.trivia.deferred = #[] :=
    ht ▸ ⟨Stream.advance_silent hdoc rfl, rfl⟩
  have hk : s.openNode.2.kind ≠ .eof := by
    show s.stream.current.kind ≠ .eof
    rw [hcurrent, l.lBracket_kind]
    decide
  have hahead : (l.parting behind mark).Ahead s.stream t.stream :=
    .intro pattern (hs ▸ h.ahead fileName) (ht ▸ (l.second_stream _ _ _).2) (l.hides _ _ _)
  constructor
  · show Opened.mk t.stream.current.start (t.trivia.unread t.stream.comments) =
      ⟨s.stream.current.start, s.trivia.unread s.stream.comments⟩
    rw [hcurrent, hcurrent', hsilent.1, hsilent'.1, Trivia.unread_of_nothing,
      Trivia.unread_of_nothing]
  · have hsound : s.stream.Sound :=
      hs ▸ ParseState.patternStart_sound (Stream.first_sound text o.effective)
    obtain ⟨hoptions, hsource, hstop, hid, hdepth⟩ :=
      hs ▸ ParseState.patternStart_kept (.first text fileName o)
    obtain ⟨hoptions', hsource', hstop', hid', hdepth'⟩ := ht ▸ l.second_kept fileName pattern mark
    refine ParseState.forked_of_ahead (s := s.openNode.2) (t := t.openNode.2) hsound hk
      (hoptions'.trans hoptions.symm) ?_ ?_ (hsource'.trans hsource.symm)
      (hstop'.trans hstop.symm) (l.advance_prev hcurrent hcurrent') ⟨hsilent.1, hsilent'.1⟩
      ⟨hsilent.2, hsilent'.2⟩ ?_ (hdepth'.trans hdepth.symm) hahead
    · exact (congrArg Options.suppressErrors hoptions).trans hstrict
    · exact (congrArg Options.extractDoc hoptions).trans hdoc
    · show s.nextId = t.nextId + 1
      rw [hid, hid']
      rfl

theorem Raw.left (h : l.Raw before pattern behind) (mark : String) :
    (l.parting behind mark).left = 3 := by
  have hbehind := congrArg List.length h.behind
  rw [Token.visible, List.length_map] at hbehind
  show (behind.filter (!·.kind.isTrivia)).length + 1 = 3
  rw [hbehind]
  rfl

open Grammar in
/-- The parse of the loop is at the end of the pattern where three tokens are left. -/
theorem reads (l : PatternLoop o text) (fileName : Option String)
    {source value body n : Node} {u : ParseState} (hstrict : o.suppressErrors = false)
    (hloop : foreachStatement.Yields (.first text fileName o) n u) (hend : u.stream.rest = 0)
    (hn : n.production = .foreach source none value body false)
    (hbody : body.production = .block []) :
    source.production = .variable (.named (withoutDollar l.source.text)) ∧ ∃ w,
      listPattern.Yields (ParseState.first text fileName o).patternStart value w ∧
        w.stream.rest = 3 := by
  have hin := l.enters fileName
  have hkind {s : ParseState} {t : Token} {k : TokenKind} (hs : s.stream.current = t)
      (ht : t.kind = k) : s.kind = k := (congrArg Token.kind hs).trans ht
  obtain ⟨hsource, w, c, hpattern, hsound, hw, hparen, hstatement, hu⟩ :=
    foreach_pattern (s := .first text fileName o) hstrict (Stream.first_sound text o.effective)
      (hkind hin.source l.source_kind) (hkind hin.kwAs l.kwAs_kind)
      (hkind hin.lBracket l.lBracket_kind) hloop hn
  refine ⟨?_, w, hpattern, ?_⟩
  · rw [hsource, ← hin.source]
    rfl
  · obtain ⟨hbrace, hblock⟩ := statement_block hstatement hbody
    have hempty := block_empty (s := w.advance) hw (Stream.advance_sound hsound) hbrace hblock hbody
    have hadvance : w.advance.stream.rest + 1 = w.stream.rest :=
      Stream.rest_advance hsound (show w.kind ≠ .eof by rw [hparen]; decide)
    rw [hu] at hend
    omega

/-- What stands behind the equals sign, one token after the other. -/
theorem behind_equal {v : ParseState} {mark : String}
    (h : v.stream.onward = l.assigned mark) : v.advance.kind = .variable ∧
      v.advance.stream.current.text = l.source.text ∧ v.advance.advance.kind = .semicolon ∧
        v.advance.advance.advance.kind = .eof := by
  have hvariable := Stream.advance_of_onward h
  have hmark := Stream.advance_of_onward hvariable.2
  refine ⟨?_, ?_, ?_, ?_⟩
  · exact congrArg Token.kind hvariable.1
  · show v.stream.advance.current.text = l.source.text
    rw [hvariable.1]
    rfl
  · exact congrArg Token.kind hmark.1
  · show v.stream.advance.advance.advance.current.kind = .eof
    rw [Stream.advance_current, hmark.2]
    rfl

open Grammar in
/-- Where the loop reads a pattern without skipped places, the second parse reads an array that
becomes the pattern in front of the equals sign. -/
theorem Raw.assigns (h : l.Raw before pattern behind) (fileName : Option String) (mark : String)
    (hstrict : o.suppressErrors = false) (hdoc : o.extractDoc = false) {value : Node}
    {w : ParseState}
    (hpattern : listPattern.Yields (ParseState.first text fileName o).patternStart value w)
    (hrest : w.stream.rest = 3) (hplace : value.isPlace = true) :
    ∃ right a n u, topStatement.Yields (.relaid text fileName o (l.relaid pattern mark)) n u ∧
      u.kind = .eof ∧ n.production = .expressionStatement a ∧
        a.production = .assign .assign ((l.parting behind mark).image value) right ∧
          right.production = .variable (.named (withoutDollar l.source.text)) := by
  obtain ⟨hopen, hinside⟩ := h.inside fileName mark hstrict hdoc
  have hleft := h.left mark
  have hk : (ParseState.first text fileName o).patternStart.kind = .lBracket :=
    (congrArg Token.kind (l.enters fileName).lBracket).trans l.lBracket_kind
  have hk' : (l.second fileName pattern mark).kind = .lBracket :=
    (congrArg Token.kind (l.second_stream fileName pattern mark).1).trans l.lBracket_kind
  obtain ⟨m, v, harray, hm, hv⟩ := listPattern_rereads hk hk' hopen hinside hplace
    (fun c _ => (rereads c).2) hpattern (by omega)
  have hat : w.AtFork (l.parting behind mark) v := hv.resolve_left fun hin => by
    have hlt := hin.left_lt
    omega
  have honward : v.stream.onward = l.assigned mark := by
    rw [Stream.onward, hat.stream.secondAhead]
    exact assigned_visible mark
  obtain ⟨hvariable, htext, hmark, hend⟩ := behind_equal honward
  obtain ⟨right, a, n, u, hstatement, hn, ha, hright, hu⟩ :=
    statement_assigns (s := .relaid text fileName o (l.relaid pattern mark)) hk' harray hat.strict
      hat.kind hvariable hmark
  refine ⟨right, a, n, u, ?_, ?_, hn, hm ▸ ha, ?_⟩
  · have hk : (ParseState.relaid text fileName o (l.relaid pattern mark)).kind = .lBracket := hk'
    exact (topStatement_plain (hk ▸ by decide)).mpr hstatement
  · exact (congrArg (fun s : Stream => s.current.kind) hu).trans hend
  · rw [hright, ← htext]
    rfl

end PatternLoop

/-! ## The same statement in another layout -/

theorem Production.like_expressionStatement {p : Production Node} {a : Node}
    (h : p.Like (.expressionStatement a)) :
    ∃ b, p = .expressionStatement b ∧ b.erased = a.erased := by
  have h : (p.map Node.erased).erased = .expressionStatement a.erased := h
  cases p with
  | expressionStatement b => exact ⟨b, rfl, Production.expressionStatement.inj h⟩
  | «variable» ident => cases ident <;> cases h
  | _ => cases h

theorem Production.like_assign {p : Production Node} {op : AssignOp} {left right : Node}
    (h : p.Like (.assign op left right)) :
    ∃ left' right', p = .assign op left' right' ∧ left'.erased = left.erased ∧
      right'.erased = right.erased := by
  have h : (p.map Node.erased).erased = .assign op left.erased right.erased := h
  cases p with
  | assign op' left' right' =>
    obtain ⟨rfl, hleft, hright⟩ := Production.assign.inj h
    exact ⟨left', right', rfl, hleft, hright⟩
  | «variable» ident => cases ident <;> cases h
  | _ => cases h

theorem Production.like_variable {p : Production Node} {word : String}
    (h : p.Like (.variable (.named word))) : p = .variable (.named word) := by
  have h : (p.map Node.erased).erased = .variable (.named word) := h
  cases p with
  | «variable» ident =>
    cases ident with
    | named => exact h
    | dynamic => cases h
  | _ => cases h

/-- A statement that assigns the variable `word` to `left`, up to the layout. -/
def Node.Assigns (n left : Node) (word : String) : Prop :=
  ∃ a target source, n.production = .expressionStatement a ∧
    a.production = .assign .assign target source ∧ target.erased = left.erased ∧
      source.production = .variable (.named word)

theorem Node.Assigns.of_erased {m n left : Node} {word : String} (h : n.Assigns left word)
    (he : m.erased = n.erased) : m.Assigns left word := by
  obtain ⟨a, target, source, hn, ha, hleft, hsource⟩ := h
  have hm := (Node.erased_inj he).2
  rw [hn] at hm
  obtain ⟨b, hm, hb⟩ := Production.like_expressionStatement hm
  have hb := (Node.erased_inj hb).2
  rw [ha] at hb
  obtain ⟨target', source', hb, htarget, hsource'⟩ := Production.like_assign hb
  have hsource' := (Node.erased_inj hsource').2
  rw [hsource] at hsource'
  exact ⟨b, target', source', hm, hb, htarget.trans hleft, Production.like_variable hsource'⟩

open Grammar PatternLoop in
/-- Where no comments are kept, the second text assigns the variable of the loop to its
pattern. -/
theorem PatternLoop.parse_assignment {o : Options} {text text' : String}
    {fileName : Option String} {p : Program} {n source value body : Node} {mark : String}
    (l : PatternLoop o text) (fileName' : Option String)
    (hassign : (grammarTokens o text').map Token.face = l.assignment mark)
    (hstrict : o.suppressErrors = false) (hdoc : o.extractDoc = false)
    (hparse : parse text fileName o = .ok p) (hchildren : p.children = [n])
    (hn : n.production = .foreach source none value body false)
    (hbody : body.production = .block []) (hplace : value.isPlace = true) :
    ∃ p' n', parse text' fileName' o = .ok p' ∧ p'.children = [n'] ∧
      n'.Assigns (Node.mapInfo (.lower 1) value) (withoutDollar l.source.text) := by
  obtain ⟨before, pattern, behind, hraw⟩ := l.raw
  have hkind : (ParseState.first text fileName o).kind = .kwForeach :=
    (congrArg Token.kind (l.enters fileName).keyword).trans l.keyword_kind
  have hlong : 1 < (grammarTokens o text).length := by
    rw [l.tokens]
    simp only [List.length_cons, List.length_append]
    omega
  -- The first parse is that of one loop.
  obtain ⟨u, hu, hend⟩ := parse_one hdoc hstrict hlong hparse hchildren
  have hloop : foreachStatement.Yields (.first text fileName o) n u := by
    have hstatement := (topStatement_plain (hkind ▸ by decide)).mp hu
    rw [statement, Parser.peek, Parser.yields_read_bind, Parser.yields_kind_bind, hkind]
      at hstatement
    exact hstatement
  obtain ⟨_, c, hpattern, hrest⟩ := l.reads fileName hstrict hloop hend hn hbody
  -- In the same layout, the second is an assignment.
  obtain ⟨right, a, n', v, hn', hv, hstatement, hassigns, hright⟩ :=
    hraw.assigns fileName mark hstrict hdoc hpattern hrest hplace
  have hne : (ParseState.relaid text fileName o (l.relaid pattern mark)).kind ≠ .eof := by
    show (l.second fileName pattern mark).stream.current.kind ≠ .eof
    rw [(l.second_stream fileName pattern mark).1, l.lBracket_kind]
    decide
  have hone := topStatements_of_one hne hn' hv
  have hsame : n'.Assigns (Node.mapInfo (.lower 1) value) (withoutDollar l.source.text) :=
    ⟨a, _, right, hstatement, hassigns, Fork.erased_image_lower value, hright⟩
  -- The layout of the second text is another one.
  have hfaces : (l.lBracket :: l.pattern ++ l.rParen.as .equal "=" :: l.assigned mark).map
      Token.face = l.assignment mark := by
    simp [assignment, assigned, Token.face, Token.as, Token.beyond]
  have hvisible := hraw.visible mark
  obtain ⟨p', hp', hchildren'⟩ := parse_of_relaid fileName' hdoc
    (hvisible ▸ l.offsets_nodup mark) (hvisible ▸ hfaces.trans hassign.symm) hone
  obtain ⟨m, hm, herased⟩ := List.map_eq_singleton_iff.mp hchildren'
  exact ⟨p', m, hp', hm, hsame.of_erased herased⟩

open Grammar in
/-- A loop over a variable with a short pattern and an empty body, and the same pattern in an
assignment of the variable: if no place of the pattern is skipped, the second text assigns the
variable to the pattern that the loop has, in whatever layout and with whatever comments.  Its
nodes have the identities of those of the loop less one, for the variable comes first there. -/
theorem destructuring_agrees {o : Options} {text text' : String} {fileName fileName' : Option String}
    {p : Program} {n source value body : Node} {mark : String} (l : PatternLoop o text)
    (hassign : (grammarTokens o text').map Token.face = l.assignment mark)
    (hstrict : o.suppressErrors = false) (hparse : parse text fileName o = .ok p)
    (hchildren : p.undocumented.children = [n])
    (hn : n.production = .foreach source none value body false)
    (hbody : body.production = .block []) (hplace : value.isPlace = true) :
    ∃ p' n', parse text' fileName' o = .ok p' ∧ p'.undocumented.children = [n'] ∧
      n'.Assigns (Node.mapInfo (.lower 1) value) (withoutDollar l.source.text) := by
  have hsilent : parse text fileName { o with extractDoc := false } = .ok p.undocumented := by
    rw [parse_undocumented, hparse]
    rfl
  let silent : PatternLoop { o with extractDoc := false } text := { l with }
  obtain ⟨p', n', hp', hn', hsame⟩ :=
    silent.parse_assignment fileName' hassign hstrict rfl hsilent hchildren hn hbody hplace
  obtain ⟨q, hq, n', hchild, hassigns⟩ := exists_parse_of_silent
    (P := fun p => ∃ n', p.children = [n'] ∧
      n'.Assigns (Node.mapInfo (.lower 1) value) (withoutDollar l.source.text))
    ⟨p', hp', n', hn', hsame⟩
  exact ⟨q, n', hq, hchild, hassigns⟩

def nestedLoop : PatternLoop {} "<?php foreach ($e as [$k => [&$a]]) \x7b\x7d" where
  keyword := ⟨.kwForeach, "foreach", ⟨1, 6, 6⟩, ⟨1, 13, 13⟩⟩
  lParen := ⟨.lParen, "(", ⟨1, 14, 14⟩, ⟨1, 15, 15⟩⟩
  source := ⟨.variable, "$e", ⟨1, 15, 15⟩, ⟨1, 17, 17⟩⟩
  kwAs := ⟨.kwAs, "as", ⟨1, 18, 18⟩, ⟨1, 20, 20⟩⟩
  lBracket := ⟨.lBracket, "[", ⟨1, 21, 21⟩, ⟨1, 22, 22⟩⟩
  pattern := [⟨.variable, "$k", ⟨1, 22, 22⟩, ⟨1, 24, 24⟩⟩,
    ⟨.doubleArrow, "=>", ⟨1, 25, 25⟩, ⟨1, 27, 27⟩⟩, ⟨.lBracket, "[", ⟨1, 28, 28⟩, ⟨1, 29, 29⟩⟩,
    ⟨.amp, "&", ⟨1, 29, 29⟩, ⟨1, 30, 30⟩⟩, ⟨.variable, "$a", ⟨1, 30, 30⟩, ⟨1, 32, 32⟩⟩,
    ⟨.rBracket, "]", ⟨1, 32, 32⟩, ⟨1, 33, 33⟩⟩, ⟨.rBracket, "]", ⟨1, 33, 33⟩, ⟨1, 34, 34⟩⟩]
  rParen := ⟨.rParen, ")", ⟨1, 34, 34⟩, ⟨1, 35, 35⟩⟩
  lBrace := ⟨.lBrace, "\x7b", ⟨1, 36, 36⟩, ⟨1, 37, 37⟩⟩
  rBrace := ⟨.rBrace, "\x7d", ⟨1, 37, 37⟩, ⟨1, 38, 38⟩⟩
  tokens := by decide +kernel
  keyword_kind := rfl
  lParen_kind := rfl
  source_kind := rfl
  kwAs_kind := rfl
  lBracket_kind := rfl
  rParen_kind := rfl
  lBrace_kind := rfl
  rBrace_kind := rfl

def Node.loopParts? (n : Node) : Option (Node × Node × Node) :=
  match n.production with
  | .foreach source none value body false => some (source, value, body)
  | _ => none

theorem Node.loopParts?_eq {n source value body : Node}
    (h : n.loopParts? = some (source, value, body)) :
    n.production = .foreach source none value body false := by
  rw [loopParts?] at h
  split at h
  · next hn =>
    cases h
    exact hn
  · cases h

theorem destructuring_agrees_nested :
    ∃ p n source value body, parse "<?php foreach ($e as [$k => [&$a]]) \x7b\x7d" none {} = .ok p ∧
      p.undocumented.children = [n] ∧ n.production = .foreach source none value body false ∧
        body.production = .block [] ∧ value.isPlace = true ∧
          ∃ p' n', parse "<?php [$k => [&$a]] = $e ?>" none {} = .ok p' ∧
            p'.undocumented.children = [n'] ∧ n'.Assigns (Node.mapInfo (.lower 1) value) "e" := by
  have hrun : ((parse "<?php foreach ($e as [$k => [&$a]]) \x7b\x7d" none {}).toOption.any fun p =>
      decide (p.undocumented.children.map (fun n => n.loopParts?.map fun parts =>
        (parts.2.2.production.isSingular && !parts.2.2.production.isBodyless &&
          parts.2.2.production.statements.isEmpty, parts.2.1.isPlace)) = [some (true, true)])) =
        true := by
    rw [parse_eq, statementsFrom_eq]
    decide +kernel
  obtain ⟨p, hp, hany⟩ := parse_of_any hrun
  obtain ⟨n, hchildren, hparts⟩ := List.map_eq_singleton_iff.mp (of_decide_eq_true hany)
  obtain ⟨⟨source, value, body⟩, hn, hparts⟩ := Option.map_eq_some_iff.mp hparts
  simp only [Prod.mk.injEq, Bool.and_eq_true, Bool.not_eq_true', List.isEmpty_iff] at hparts
  obtain ⟨⟨⟨hsingular, hbodyless⟩, hempty⟩, hplace⟩ := hparts
  have hbody : body.production = .block [] := by
    rw [Production.eq_block hsingular hbodyless, hempty]
  have hface : (grammarTokens {} "<?php [$k => [&$a]] = $e ?>").map Token.face =
      nestedLoop.assignment "?>" := by
    decide +kernel
  exact ⟨p, n, source, value, body, hp, hchildren, Node.loopParts?_eq hn, hbody, hplace,
    destructuring_agrees nestedLoop hface rfl hp hchildren (Node.loopParts?_eq hn) hbody hplace⟩

end PhpSyntax
