/-
Loops in braces and in the short form mean the same.

The tokens of a loop in braces are those of the same loop in the short form, but for the brace
and the colon in front of the body and for what ends it.  To compare the two texts, the second
is laid out as the first is (`ParseState.relaid`): a parse does not depend on that.

No short form ends a declare statement without a body, so the body may not have one at its end
(`loop_forms_agree`).
-/
import PhpSyntax.Proofs.Fork.Loop
import PhpSyntax.Proofs.Fork.Relaid
import PhpSyntax.Proofs.Observation.Independence

namespace PhpSyntax

/-! ## Statements and loops by their first tokens -/

namespace Grammar

/-- Tokens at which a scope does not ask for a statement, or not always. -/
def declarationKinds : List TokenKind :=
  [.kwNamespace, .kwUse, .kwConst, .kwHaltCompiler, .kwFunction, .kwAbstract, .kwFinal, .kwClass,
   .kwInterface, .kwTrait]

/-- At any other token the outermost scope asks for a statement. -/
theorem topStatement_plain {s u : ParseState} {n : Node} (hk : s.kind ∉ declarationKinds) :
    topStatement.Yields s n u ↔ statement.Yields s n u := by
  have hnot {k : TokenKind} (h : s.kind = k) (hin : k ∈ declarationKinds) : False :=
    hk (h.symm ▸ hin)
  have hinner : innerStatement.Yields s n u ↔ statement.Yields s n u := by
    rw [innerStatement, Parser.peek, Parser.yields_read_bind, Parser.yields_kind_bind]
    split
    case h_8 => exact Parser.yields_call (r := .statement)
    all_goals
      next h => exact (hnot h (by decide)).elim
  have hplain (c : Bool) (t : ParseState) : atNamespace.Yields s c t ↔ c = false ∧ t = s := by
    rw [atNamespace_yields, decide_eq_false fun h => hnot h (by decide), Bool.false_and]
  rw [topStatement, Parser.yields_bind]
  simp only [hplain, and_assoc, exists_and_left, exists_eq_left, Bool.false_eq_true, if_false]
  rw [Parser.yields_kind_bind]
  split
  case h_4 => exact hinner
  all_goals
    next h => exact (hnot h (by decide)).elim

/-- What stands behind the keyword of a loop. -/
theorem loopRule {keyword close : TokenKind} (h : (keyword, close) ∈ loopForms) :
    ∃ l : LoopRule, l.close = close ∧ (∀ F : Fork, F.surplus = 0 → ∃ ψ, l.Closes F ψ) ∧
      ∀ {s u : ParseState} {n : Node}, s.kind = keyword →
        (topStatement.Yields s n u ↔ l.statement.Yields s n u) := by
  simp only [loopForms, List.mem_cons, List.not_mem_nil, or_false, Prod.mk.injEq] at h
  rcases h with ⟨rfl, rfl⟩ | ⟨rfl, rfl⟩ | ⟨rfl, rfl⟩
  · refine ⟨whileLoop, rfl, fun F hF => ⟨_, whileLoop_closes hF⟩, fun {s u n} hk => ?_⟩
    rw [topStatement_plain (hk ▸ by decide), ← whileStatement_eq, statement, Parser.peek,
      Parser.yields_read_bind, Parser.yields_kind_bind, hk]
  · refine ⟨forLoop, rfl, fun F hF => ⟨_, forLoop_closes hF⟩, fun {s u n} hk => ?_⟩
    rw [topStatement_plain (hk ▸ by decide), ← forStatement_eq, statement, Parser.peek,
      Parser.yields_read_bind, Parser.yields_kind_bind, hk]
  · refine ⟨foreachLoop, rfl, fun F hF => ⟨_, foreachLoop_closes hF⟩, fun {s u n} hk => ?_⟩
    rw [topStatement_plain (hk ▸ by decide), ← foreachStatement_eq, statement, Parser.peek,
      Parser.yields_read_bind, Parser.yields_kind_bind, hk]

theorem topStatement_onward : topStatement.Onward :=
  Parser.KeepsPace.onward fun _ hs => ⟨_, _, topStatement_sat (Stage.start hs) (by decide)⟩

/-- The outermost scope of a text that is one statement of some tokens. -/
theorem topStatements_one {s w : ParseState} {n : Node} (hs : s.tolerates = false)
    (hsound : s.stream.Sound) (hfilled : s.stream.Filled) (hlong : 1 < s.stream.rest)
    (h : (topStatements .empty).Yields s [n] w) :
    ∃ u, topStatement.Yields s n u ∧ u.stream.rest = 0 := by
  rw [topStatements, stopsAt] at h
  rcases Parser.yields_statementList.mp h with ⟨_, h, _⟩ | ⟨_, m, ns, u, v, hm, hv, hns, h⟩
  · cases h
  obtain ⟨rfl, rfl⟩ := List.cons.inj h
  have hgo := topStatement_onward hs hsound hm
  have hend : v.kind = .eof := by
    have hns : (topStatements .empty).Yields v [] w := Parser.yields_call.mp hns
    rw [topStatements, stopsAt] at hns
    rcases Parser.yields_statementList.mp hns with ⟨hend, _, _⟩ | ⟨_, _, _, _, _, _, _, _, h⟩
    · exact hend.resolve_right (TokenSet.not_mem_empty _)
    · cases h
  refine ⟨u, hm, ?_⟩
  rcases Parser.yields_forceProgress.mp hv with ⟨hne, hstuck, rfl⟩ | ⟨_, rfl⟩
  · -- Where nothing has been consumed, one token would be all there is.
    exfalso
    have hadvance : u.advance.stream.rest + 1 = u.stream.rest := Stream.rest_advance hgo.sound hne
    have hrest : u.advance.stream.rest = 0 :=
      (Stream.rest_eq_zero (Stream.advance_sound hgo.sound)).mpr hend
    have hleads := hgo.leads.resolve_right fun hrest =>
        hne ((Stream.rest_eq_zero hgo.sound).mp hrest)
    rcases hleads.forward hsound hfilled with hsame | ⟨_, hlt⟩
    · rw [hsame] at hadvance
      omega
    · exact absurd hstuck (Nat.ne_of_gt hlt)
  · exact (Stream.rest_eq_zero hgo.sound).mpr hend

/-- A statement of the outermost scope with nothing behind it. -/
theorem topStatements_of_one {s u : ParseState} {n : Node} (hs : s.kind ≠ .eof)
    (h : topStatement.Yields s n u) (hu : u.kind = .eof) :
    (topStatements .empty).Yields s [n] u := by
  have hempty (k : TokenKind) : TokenSet.empty.contains k = false :=
    Bool.eq_false_iff.mpr (TokenSet.not_mem_empty k)
  have hnil : (topStatements .empty).Yields u [] u :=
    Parser.yields_statementList.mpr (Or.inl ⟨Or.inl hu, rfl, rfl⟩)
  refine Parser.yields_statementList.mpr (Or.inr ⟨?_, n, [], u, u, h, ?_, ?_, rfl⟩)
  · rw [hempty]
    simp [hs]
  · exact Parser.yields_forceProgress.mpr (Or.inr ⟨fun hstuck => hstuck.1 hu, rfl⟩)
  · exact Parser.yields_call.mpr hnil

end Grammar

/-! ## Two texts -/

/-- What a parse without comments comes to is what is left of the parse with them. -/
theorem exists_parse_of_silent {o : Options} {text : String} {fileName : Option String}
    {P : Program → Prop}
    (h : ∃ p, parse text fileName { o with extractDoc := false } = .ok p ∧ P p) :
    ∃ p, parse text fileName o = .ok p ∧ P p.undocumented := by
  obtain ⟨p, hp, hP⟩ := h
  rw [parse_undocumented] at hp
  cases hout : parse text fileName o with
  | error f =>
    rw [hout] at hp
    cases hp
  | ok q =>
    rw [hout] at hp
    cases hp
    exact ⟨q, rfl, hP⟩

/-- Where no comments are kept, a text that is one statement of some tokens. -/
theorem parse_one {o : Options} {text : String} {fileName : Option String} {p : Program} {n : Node}
    (hdoc : o.extractDoc = false) (hstrict : o.suppressErrors = false)
    (hlong : 1 < (grammarTokens o text).length) (hparse : parse text fileName o = .ok p)
    (hchildren : p.children = [n]) :
    ∃ u, Grammar.topStatement.Yields (.first text fileName o) n u ∧ u.stream.rest = 0 := by
  obtain ⟨w, hw⟩ := (parse_children_iff hdoc).mp ⟨p, hparse, hchildren⟩
  exact Grammar.topStatements_one (s := .first text fileName o) hstrict
    (Stream.first_sound text o.effective) (Stream.first_filled text o.effective)
    (Nat.lt_of_lt_of_eq hlong (Stream.first_rest text o).symm) hw

/-- What the outermost scope yields of tokens that have been relaid is, but for the layout, what
there is in a text with the same tokens. -/
theorem parse_of_relaid {o : Options} {text text' : String} {fileName : Option String}
    (fileName' : Option String) {ts : List Token} {ns : List Node} {w : ParseState}
    (hdoc : o.extractDoc = false)
    (hmarks : (offsets (Token.visible o.effective ts) (Position.origin.advance text).offset).Nodup)
    (hfaces : (Token.visible o.effective ts).map Token.face =
      (grammarTokens o text').map Token.face)
    (h : (Grammar.topStatements .empty).Yields (.relaid text fileName o ts) ns w) :
    ∃ p, parse text' fileName' o = .ok p ∧ p.children.map Node.erased = ns.map Node.erased := by
  have haligned := ParseState.relaid_aligned text text' hdoc hmarks hfaces fileName fileName'
  obtain ⟨ms, t, ht, hsame, _⟩ :=
    h.alike (Rule.body_alike (.same (.topStatements .empty))) haligned
  obtain ⟨p, hp, rfl⟩ := (parse_children_iff hdoc).mpr ⟨t, ht⟩
  have hsame : ns.map Node.erased = p.children.map Node.erased := hsame
  exact ⟨p, hp, hsame.symm⟩

theorem Production.eq_block {α : Type} {p : Production α} (h : p.isSingular = true)
    (h' : p.isBodyless = false) : p = .block p.statements := by
  cases p with
  | block => rfl
  | «declare» _ _ mode =>
    cases mode with
    | none => cases h'
    | _ => cases h
  | _ => cases h

theorem Node.not_dangles {n : Node} (h : n.production.isBodyless = false)
    (hlasts : n.production.lasts = []) : ¬n.Dangles := by
  intro hdangles
  cases hdangles with
  | own hown => exact Bool.false_ne_true (h.symm.trans hown)
  | last hc => exact absurd hc (hlasts ▸ List.not_mem_nil)

/-- A text whose tokens may be those of a loop in braces: what stands in front of a body, and
the body between its braces. -/
structure BracedLoop (o : Options) (text : String) where
  keyword : Token
  header : List Token
  rParen : Token
  lBrace : Token
  body : List Token
  rBrace : Token
  tokens : grammarTokens o text = keyword :: header ++ rParen :: lBrace :: body ++ [rBrace]
  rParen_kind : rParen.kind = .rParen
  lBrace_kind : lBrace.kind = .lBrace
  rBrace_kind : rBrace.kind = .rBrace

namespace BracedLoop

variable {o : Options} {text : String} (l : BracedLoop o text)

def shortForm (close : TokenKind) (word mark : String) : List (TokenKind × String) :=
  (l.keyword :: l.header ++ [l.rParen]).map Token.face ++ (.colon, ":") :: l.body.map Token.face ++
    [(close, word), (.semicolon, mark)]

structure Raw (before body behind : List Token) : Prop where
  source : tokenize text = before ++ l.lBrace :: (body ++ l.rBrace :: behind)
  before : Token.visible o.effective before = l.keyword :: l.header ++ [l.rParen]
  body : Token.visible o.effective body = l.body
  behind : Token.visible o.effective behind = []

theorem raw : ∃ before body behind, l.Raw before body behind := by
  have hsource : Token.visible o.effective (tokenize text) =
      (l.keyword :: l.header ++ [l.rParen]) ++ l.lBrace :: (l.body ++ [l.rBrace]) := by
    refine Eq.trans l.tokens ?_
    simp
  obtain ⟨before, b, rest, hrest, hb, hbefore, hvisible⟩ := Token.exists_of_visible hsource
  obtain ⟨body, c, behind, rfl, hc, hbody, hbehind⟩ := Token.exists_of_visible hvisible
  have hb := Token.eq_of_forGrammar hb (l.lBrace_kind ▸ by decide) (l.lBrace_kind ▸ by decide)
  have hc := Token.eq_of_forGrammar hc (l.rBrace_kind ▸ by decide) (l.rBrace_kind ▸ by decide)
  subst hb hc
  exact ⟨before, body, behind, hrest, hbefore, hbody, hbehind⟩

theorem lBrace_seen : l.lBrace.IsSeen :=
  Token.isSeen_of l.lBrace_kind rfl (by decide) (by decide)

theorem rBrace_seen : l.rBrace.IsSeen :=
  Token.isSeen_of l.rBrace_kind rfl (by decide) (by decide)

theorem closer_seen {close : TokenKind} (h : close ∈ loopEnds) (word : String) :
    (l.rBrace.as close word).IsSeen := by
  have hkind : close.isTrivia = false ∧ close ≠ .eof ∧ close ∉ Token.masks := by
    simp only [loopEnds, List.mem_cons, List.not_mem_nil, or_false] at h
    rcases h with rfl | rfl | rfl
    all_goals decide
  exact Token.isSeen_of rfl hkind.1 hkind.2.1 hkind.2.2

def opening (body behind tail : List Token) : Fork where
  first := l.lBrace
  firstAhead := body ++ l.rBrace :: behind
  second := l.lBrace.as .colon ":"
  secondAhead := body ++ tail
  surplus := 0
  first_seen := l.lBrace_seen
  second_seen := Token.isSeen_of (k := .colon) rfl rfl (by decide) (by decide)

def closing {close : TokenKind} (h : close ∈ loopEnds) (behind : List Token) (word : String)
    (mark : Token) : Fork where
  first := l.rBrace
  firstAhead := behind
  second := l.rBrace.as close word
  secondAhead := [mark]
  surplus := 0
  first_seen := l.rBrace_seen
  second_seen := l.closer_seen h word

variable {before body behind : List Token} {close : TokenKind} {word : String} {mark : Token} {l}

theorem Raw.around (h : l.Raw before body behind) (hclose : close ∈ loopEnds) (word : String)
    (hmark : mark.kind = .semicolon) (hstop : mark.stop = l.rBrace.stop) :
    (l.opening body behind [l.rBrace.as close word, mark]).Around
      (l.closing hclose behind word mark) body where
  first := l.lBrace_kind
  second := rfl
  start := rfl
  stop := rfl
  firstAhead := rfl
  secondAhead := rfl
  shuts := ⟨l.rBrace_kind, hclose, rfl⟩
  shutsStop := rfl
  firstEnd := List.map_eq_nil_iff.mp h.behind
  secondEnd := ⟨mark, rfl, hmark, hstop⟩
  surplus := ⟨rfl, rfl⟩

theorem first_current (l : BracedLoop o text) (fileName : Option String) :
    (ParseState.first text fileName o).stream.current = l.keyword := by
  have hcurrent := (Stream.ofSource text o.effective).advance_current
  refine hcurrent.trans ?_
  show (grammarTokens o text).head?.getD _ = _
  rw [l.tokens]
  rfl

theorem Raw.inside (h : l.Raw before body behind) (fileName : Option String) (tail : List Token)
    (hstrict : o.suppressErrors = false) (hdoc : o.extractDoc = false)
    (hkeyword : l.keyword.kind ≠ .lBrace ∧ l.keyword.kind ≠ .eof) :
    (ParseState.first text fileName o).Inside (l.opening body behind tail)
      (.relaid text fileName o (before ++ l.lBrace.as .colon ":" :: (body ++ tail))) := by
  let F := l.opening body behind tail
  let S := Stream.ofSource text o.effective
  have hcurrent : S.advance.current = l.keyword := l.first_current fileName
  have hahead : F.Ahead S (.relaid text o (before ++ F.second :: F.secondAhead)) := by
    refine .intro before h.source rfl ?_
    have hlast : Fork.last S.options S.current before = l.rParen := by
      show (S.current :: Token.visible o.effective before).getLast _ = _
      simp [h.before]
    rw [hlast, l.rParen_kind]
    exact fun _ hj => absurd hj List.not_mem_nil
  let R := Stream.relaid text o (before ++ F.second :: F.secondAhead)
  have hforked := (Stream.forked_of_ahead (u := S) (v := R) rfl hstrict hdoc rfl rfl rfl
    ⟨rfl, rfl⟩ hahead).resolve_right fun hat => hkeyword.1 ?_
  · refine ⟨⟨hforked, ⟨rfl, rfl⟩, rfl, rfl⟩, Stream.first_sound text o.effective, ?_⟩
    exact fun hk => hkeyword.2 ((congrArg Token.kind hcurrent).symm.trans hk)
  · rw [← hcurrent, hat.first]
    exact l.lBrace_kind

theorem Raw.visible (h : l.Raw before body behind) (hclose : close ∈ loopEnds) (word : String)
    (hmark : mark.kind = .semicolon) :
    Token.visible o.effective
        (before ++ l.lBrace.as .colon ":" :: (body ++ [l.rBrace.as close word, mark])) =
      (l.keyword :: l.header ++ [l.rParen]) ++
        l.lBrace.as .colon ":" :: (l.body ++ [l.rBrace.as close word, mark]) := by
  have hcolon : (l.lBrace.as .colon ":").IsSeen :=
    Token.isSeen_of (k := .colon) rfl rfl (by decide) (by decide)
  have hmark : mark.IsSeen := Token.isSeen_of hmark rfl (by decide) (by decide)
  rw [Token.visible_append, h.before, hcolon.visible_cons, Token.visible_append, h.body,
    (l.closer_seen hclose word).visible_cons, hmark.visible_cons]
  rfl

/-- What is relaid for the short form stands apart. -/
theorem offsets_nodup (l : BracedLoop o text) (close : TokenKind) (word word' : String)
    (stop : Position) :
    (offsets ((l.keyword :: l.header ++ [l.rParen]) ++ l.lBrace.as .colon ":" ::
        (l.body ++ [l.rBrace.as close word, .beyond text 0 .semicolon word' stop]))
      (Position.origin.advance text).offset).Nodup := by
  have hstarts : (((l.keyword :: l.header ++ [l.rParen]) ++ l.lBrace.as .colon ":" ::
      (l.body ++ [l.rBrace.as close word])).map fun t => t.start.offset).Sublist
        ((grammarTokens o text).map fun t => t.start.offset) := by
    simp [l.tokens, Token.as]
  have hnodup := relaid_nodup hstarts
    (List.pairwise_singleton _ (Token.beyond text 0 .semicolon word' stop))
    (List.forall_mem_singleton.mpr (Token.lt_beyond text 0))
  simpa using hnodup

end BracedLoop

open Grammar BracedLoop in
/-- Where no comments are kept, the second text is the same loop in the short form. -/
theorem BracedLoop.parse_shortForm {o : Options} {text text' : String} {fileName : Option String}
    {p : Program} {n block : Node} {children : List Node} {close : TokenKind} {word word' : String}
    (l : BracedLoop o text) (fileName' : Option String)
    (hform : (l.keyword.kind, close) ∈ loopForms)
    (hshort : (grammarTokens o text').map Token.face = l.shortForm close word word')
    (hstrict : o.suppressErrors = false) (hdoc : o.extractDoc = false)
    (hparse : parse text fileName o = .ok p) (hchildren : p.children = [n])
    (hbody : n.production.loopBody? = some block) (hblock : block.production = .block children)
    (hstart : block.span.start = l.lBrace.start) (hlast : ∀ c ∈ children.getLast?, ¬c.Dangles) :
    ∃ p', parse text' fileName' o = .ok p' ∧
      p'.children.map Node.erased = [n.inShortForm.erased] := by
  have hclose : close ∈ loopEnds := by
    simp only [loopForms, List.mem_cons, List.not_mem_nil, or_false, Prod.mk.injEq] at hform
    rcases hform with ⟨_, rfl⟩ | ⟨_, rfl⟩ | ⟨_, rfl⟩
    all_goals decide
  have hkeyword : l.keyword.kind ≠ .lBrace ∧ l.keyword.kind ≠ .eof := by
    simp only [loopForms, List.mem_cons, List.not_mem_nil, or_false, Prod.mk.injEq] at hform
    rcases hform with ⟨hk, _⟩ | ⟨hk, _⟩ | ⟨hk, _⟩
    all_goals
      rw [hk]
      decide
  obtain ⟨before, body, behind, hraw⟩ := l.raw
  obtain ⟨rule, rfl, hcloses, hrule⟩ := loopRule hform
  let mark := Token.beyond text 0 .semicolon word' l.rBrace.stop
  have haround := hraw.around hclose word (rfl : mark.kind = .semicolon) rfl
  obtain ⟨ψ, hcloses⟩ := hcloses _ haround.surplus.1
  have hin := hraw.inside fileName [l.rBrace.as rule.close word, mark] hstrict hdoc hkeyword
  have hkind : (ParseState.first text fileName o).kind = l.keyword.kind :=
    congrArg Token.kind (l.first_current fileName)
  have hlong : 1 < (grammarTokens o text).length := by
    rw [l.tokens]
    simp only [List.length_cons, List.length_append]
    omega
  -- The first parse is that of one loop.
  obtain ⟨u, hu, hend⟩ := parse_one hdoc hstrict hlong hparse hchildren
  have hloop := (hrule hkind).mp hu
  -- The same loop in the short form is the second, in the same layout.
  obtain ⟨n', v, hn', herased, hthrough⟩ := hcloses.yields_short haround rfl hin
    (Stream.OnTokens.first text o.effective) hraw.source hloop hbody hstart hblock hlast hend
  have hone := topStatements_of_one (hin.kind ▸ hin.ne_eof)
    ((hrule (hin.kind.trans hkind)).mpr hn') hthrough.ended
  -- The layout of the second text is another one.
  have hvisible := hraw.visible hclose word (rfl : mark.kind = .semicolon)
  have hfaces : ((l.keyword :: l.header ++ [l.rParen]) ++ l.lBrace.as .colon ":" ::
      (l.body ++ [l.rBrace.as rule.close word, mark])).map Token.face =
        l.shortForm rule.close word word' := by
    simp [shortForm, Token.face, Token.as, mark, Token.beyond]
  have hsame := parse_of_relaid fileName' hdoc
    (hvisible ▸ l.offsets_nodup rule.close word word' l.rBrace.stop)
    (hvisible ▸ hfaces.trans hshort.symm) hone
  rwa [List.map_singleton, herased] at hsame

/-- A loop in braces that is all of a text, and the same tokens in the short form: if the body
has no declare statement without a body at its end, the second text is a loop with the same
header and the same statements, in whatever layout and with whatever comments. -/
theorem loop_forms_agree {o : Options} {text text' : String} {fileName fileName' : Option String}
    {p : Program} {n block : Node} {children : List Node} {close : TokenKind} {word word' : String}
    (l : BracedLoop o text) (hform : (l.keyword.kind, close) ∈ loopForms)
    (hshort : (grammarTokens o text').map Token.face = l.shortForm close word word')
    (hstrict : o.suppressErrors = false) (hparse : parse text fileName o = .ok p)
    (hchildren : p.undocumented.children = [n]) (hbody : n.production.loopBody? = some block)
    (hblock : block.production = .block children) (hstart : block.span.start = l.lBrace.start)
    (hlast : ∀ c ∈ children.getLast?, ¬c.Dangles) :
    ∃ p', parse text' fileName' o = .ok p' ∧
      p'.undocumented.children.map Node.erased = [n.inShortForm.erased] := by
  let silent : Options := { o with extractDoc := false }
  have hparse' : parse text fileName silent = .ok p.undocumented := by
    rw [parse_undocumented, hparse]
    rfl
  let l' : BracedLoop silent text :=
    { l with }
  exact exists_parse_of_silent (P := fun p => p.children.map Node.erased = [n.inShortForm.erased])
    (l'.parse_shortForm fileName' hform hshort hstrict rfl hparse' hchildren hbody hblock hstart
      hlast)

def bracedWhile : BracedLoop {} "<?php while ($c) { f(); }" where
  keyword := ⟨.kwWhile, "while", ⟨1, 6, 6⟩, ⟨1, 11, 11⟩⟩
  header := [⟨.lParen, "(", ⟨1, 12, 12⟩, ⟨1, 13, 13⟩⟩, ⟨.variable, "$c", ⟨1, 13, 13⟩, ⟨1, 15, 15⟩⟩]
  rParen := ⟨.rParen, ")", ⟨1, 15, 15⟩, ⟨1, 16, 16⟩⟩
  lBrace := ⟨.lBrace, "\x7b", ⟨1, 17, 17⟩, ⟨1, 18, 18⟩⟩
  body := [⟨.identifier, "f", ⟨1, 19, 19⟩, ⟨1, 20, 20⟩⟩, ⟨.lParen, "(", ⟨1, 20, 20⟩, ⟨1, 21, 21⟩⟩,
    ⟨.rParen, ")", ⟨1, 21, 21⟩, ⟨1, 22, 22⟩⟩, ⟨.semicolon, ";", ⟨1, 22, 22⟩, ⟨1, 23, 23⟩⟩]
  rBrace := ⟨.rBrace, "\x7d", ⟨1, 24, 24⟩, ⟨1, 25, 25⟩⟩
  tokens := by decide +kernel
  rParen_kind := rfl
  lBrace_kind := rfl
  rBrace_kind := rfl

/-- The tag at the end of the code takes the part of the last semicolon. -/
theorem loop_forms_agree_tag :
    ∃ p n, parse "<?php while ($c) \x7b f(); \x7d" none {} = .ok p ∧ p.undocumented.children = [n] ∧
      n.name = "while" ∧ ∃ p', parse "<?php while ($c): f(); endwhile ?>" none {} = .ok p' ∧
        p'.undocumented.children.map Node.erased = [n.inShortForm.erased] := by
  have hrun : ((parse "<?php while ($c) \x7b f(); \x7d" none {}).toOption.any fun p =>
      decide (p.undocumented.children.map (·.name) = ["while"] ∧
        p.undocumented.children.flatMap (fun n => n.production.loopBody?.toList.map fun b =>
          (b.production.isSingular && !b.production.isBodyless, b.span.start,
            b.production.statements.map fun c =>
              !c.production.isBodyless && c.production.lasts.isEmpty)) =
          [(true, ⟨1, 17, 17⟩, [true])])) = true := by
    rw [parse_eq, statementsFrom_eq]
    decide +kernel
  obtain ⟨p, hp, hany⟩ := parse_of_any hrun
  obtain ⟨hname, hbodies⟩ := of_decide_eq_true hany
  obtain ⟨n, hchildren, hname⟩ := List.map_eq_singleton_iff.mp hname
  rw [hchildren, List.flatMap_singleton] at hbodies
  obtain ⟨b, hbody, hb⟩ := List.map_eq_singleton_iff.mp hbodies
  have hbody : n.production.loopBody? = some b := by
    cases hloop : n.production.loopBody? with
    | none =>
      rw [hloop] at hbody
      cases hbody
    | some c =>
      rw [hloop] at hbody
      rw [(List.cons.inj hbody).1]
  simp only [Prod.mk.injEq, Bool.and_eq_true, Bool.not_eq_true'] at hb
  obtain ⟨⟨hsingular, hbodyless⟩, hstart, hstatements⟩ := hb
  obtain ⟨c, hc, hover⟩ := List.map_eq_singleton_iff.mp hstatements
  simp only [Bool.and_eq_true, Bool.not_eq_true', List.isEmpty_iff] at hover
  have hface : (grammarTokens {} "<?php while ($c): f(); endwhile ?>").map Token.face =
      bracedWhile.shortForm .kwEndWhile "endwhile" "?>" := by
    decide +kernel
  have hlast : ∀ m ∈ b.production.statements.getLast?, ¬m.Dangles := by
    rw [hc]
    intro m hm
    cases hm
    exact Node.not_dangles hover.1 hover.2
  exact ⟨p, n, hp, hchildren, hname, loop_forms_agree bracedWhile (by decide) hface rfl hp hchildren
    hbody (Production.eq_block hsingular hbodyless) hstart hlast⟩

end PhpSyntax
