import PhpSyntax.Proofs.Formula.Lexing
import PhpSyntax.Proofs.Fork.Forms
import PhpSyntax.Proofs.Fork.Pattern
import PhpSyntax.Proofs.Fork.Relaid

namespace PhpSyntax

namespace Literal

def program (raw : String) : String := "<?php " ++ raw ++ ";"

def programTokens (k : TokenKind) (raw : String) : List (TokenKind × String) :=
  [(.openTag, "<?php "), (k, raw), (.semicolon, ";")]

def tokenKinds : List TokenKind := [.constantString, .heredoc]

end Literal

variable {k : TokenKind} {raw : String}

/-! ## Tokens -/

open Scanner in
/-- A literal that is found in front of a semicolon is a token of its own. -/
theorem Literal.tokenize_program (hk : k ∈ tokenKinds)
    (hcode : Lexeme.code (raw.toList ++ [';']) = ⟨k, raw.length⟩) :
    (tokenize (program raw)).map Token.face = programTokens k raw := by
  have hplain : ∀ j ∈ tokenKinds, Mode.code.after j = .code := by decide
  have hahead : (ofSource (program raw)).ahead = "<?php ".toList ++ (raw.toList ++ [';']) := by
    show (program raw).toList = _
    rw [program, String.toList_append, String.toList_append, List.append_assoc]
    rfl
  have hopen : Lexeme.ofMode .html (ofSource (program raw)).ahead = ⟨.openTag, 6⟩ := by
    rw [hahead]
    cases raw.toList <;> rfl
  have hraw : raw.toList ≠ [] := by
    have hpos := (Lexeme.code_proper (raw.toList ++ [';'])).1
    rw [hcode] at hpos
    exact List.ne_nil_of_length_pos (by rwa [String.length_toList])
  obtain ⟨u, tag, htag, htagkind, htagtext, humode, huahead⟩ :=
    tokens_of_lexeme _ hahead hopen rfl (List.cons_ne_nil _ _)
  have hliteral : Lexeme.ofMode u.mode u.ahead = ⟨k, raw.length⟩ := by
    rw [humode, huahead]
    exact hcode
  obtain ⟨v, t, ht, htkind, httext, hvmode, hvahead⟩ :=
    tokens_of_lexeme _ huahead hliteral String.length_toList.symm hraw
  have hmark : Lexeme.ofMode v.mode v.ahead = ⟨.semicolon, 1⟩ := by
    have hmode : v.mode = .code := by rw [hvmode, humode, ← hplain k hk]; rfl
    rw [hmode, hvahead]
    rfl
  have hvahead : v.ahead = [';'] ++ [] := hvahead
  obtain ⟨w, m, hm, hmkind, hmtext, _, hwahead⟩ :=
    tokens_of_lexeme _ hvahead hmark rfl (List.cons_ne_nil _ _)
  show ((ofSource (program raw)).tokens).map Token.face = _
  rw [htag, ht, hm, tokens_of_none (next_nil hwahead)]
  simp only [List.map_cons, List.map_nil, Token.face, htagkind, htagtext, htkind, httext, hmkind,
    hmtext, String.ofList_toList, Literal.programTokens]

/-- The grammar sees the literal and the semicolon. -/
theorem Literal.grammarTokens_program (o : Options) (hk : k ∈ tokenKinds)
    (htokens : (tokenize (program raw)).map Token.face = programTokens k raw) :
    (grammarTokens o (program raw)).map Token.face = [(k, raw), (.semicolon, ";")] := by
  have hplain : ∀ j ∈ tokenKinds, j.isPlain = true := by decide
  obtain ⟨tag, ts, htokenize, htag, hts⟩ := List.map_eq_cons_iff.mp htokens
  obtain ⟨t, us, rfl, ht, hus⟩ := List.map_eq_cons_iff.mp hts
  obtain ⟨m, vs, rfl, hm, hvs⟩ := List.map_eq_cons_iff.mp hus
  obtain rfl := List.map_eq_nil_iff.mp hvs
  have htagkind : tag.kind = .openTag := congrArg Prod.fst htag
  have htkind : t.kind.isPlain = true := by
    rw [show t.kind = k from congrArg Prod.fst ht]
    exact hplain k hk
  have hmkind : m.kind.isPlain = true := by
    rw [show m.kind = .semicolon from congrArg Prod.fst hm]
    rfl
  have hkeep {j : TokenKind} (hj : j.isPlain = true) : (!j.isTrivia) = true :=
    (Bool.and_eq_true_iff.mp hj).1
  have hdrop : (!tag.kind.isTrivia) = false := by
    rw [htagkind]
    rfl
  have hfilter : (tokenize (program raw)).filter (!·.kind.isTrivia) = [t, m] := by
    rw [htokenize]
    simp only [List.filter_cons, List.filter_nil, hdrop, hkeep htkind, hkeep hmkind, if_true,
      Bool.false_eq_true, if_false]
  rw [grammarTokens, hfilter]
  simp only [List.map_cons, List.map_nil, t.face_forGrammar htkind, m.face_forGrammar hmkind, ht, hm]

/-! ## The statement -/

namespace Grammar
open PhpSyntax.Parser

variable {s : ParseState} {p : Production Node}

/-- A literal of one token in front of a semicolon is an operand. -/
theorem operand_of_token (hk : s.kind ∈ Literal.tokenKinds)
    (hp : literal? s.kind s.stream.current.text = some p) (hend : s.advance.kind = .semicolon) :
    ∃ n u, operand.Yields s n u ∧ n.production = p ∧ u.stream = s.stream.advance := by
  let u := s.openNode.2.advance.finishNode s.openNode.1
  have hscalar : scalar.Yields s ⟨u.1, p⟩ u.2 := by
    have hgo : (do let o ← openNode; advance; finish o p : Parser Node).Yields s ⟨u.1, p⟩ u.2 := by
      rw [yields_openNode_bind, yields_advance_bind]
      exact yields_finish.mpr ⟨rfl, rfl⟩
    rw [scalar, yields_kind_bind]
    simp only [Literal.tokenKinds, List.mem_cons, List.not_mem_nil, or_false] at hk
    rcases hk with hk | hk
    all_goals
      rw [hk] at hp ⊢
      simp only [Parser.text, yields_read_bind, hp]
      exact hgo
  have huend : u.2.kind ∈ operandEnds := by
    rw [show u.2.kind = .semicolon from hend]
    decide
  have hliteral : literal.Yields s ⟨u.1, p⟩ u.2 := by
    have hbracket : s.kind ≠ .lBracket := fun h => by
      rw [h] at hk
      exact absurd hk (by decide)
    rw [literal, yields_isAt_bind, decide_eq_false hbracket]
    refine yields_bind.mpr ⟨_, _, hscalar, ?_⟩
    rw [yields_isAt_bind, Bool.false_and, if_neg Bool.false_ne_true]
    split
    · exact lookups_ends huend
    · exact lookups_ends huend
    · exact yields_pure.mpr ⟨rfl, rfl⟩
  exact ⟨⟨u.1, p⟩, u.2, operand_of_literal (List.mem_cons_of_mem _ hk) hliteral, rfl, rfl⟩

/-- A literal of one token in front of a semicolon is a statement of the outermost scope. -/
theorem topStatement_of_token (hstrict : s.tolerates = false) (hk : s.kind ∈ Literal.tokenKinds)
    (hp : literal? s.kind s.stream.current.text = some p) (hend : s.advance.kind = .semicolon) :
    ∃ n e u, topStatement.Yields s n u ∧ n.production = .expressionStatement e ∧
      e.production = p ∧ u.stream = s.stream.advance.advance := by
  obtain ⟨e, v, he, hep, hv⟩ := operand_of_token (s := s.openNode.2) hk hp hend
  have hvk : v.kind = .semicolon := (congrArg (fun s : Stream => s.current.kind) hv).trans hend
  have hvstrict : v.tolerates = false := by
    rw [ParseState.tolerates, hv]
    exact hstrict
  have hexpression : Parser.expression.Yields s.openNode.2 e v :=
    expression_of_operand he (by rw [hvk]; decide)
  obtain ⟨n, u, hn, hstatement, hu⟩ := expressionStatement_of hexpression hvstrict hvk
  refine ⟨n, e, u, ?_, hstatement, hep, hu.trans (congrArg Stream.advance hv)⟩
  have hplain : ∀ k ∈ Literal.tokenKinds, k ∉ declarationKinds := by decide
  refine (topStatement_plain (hplain _ hk)).mpr ?_
  rw [statement, Parser.peek, yields_read_bind, yields_kind_bind]
  simp only [Literal.tokenKinds, List.mem_cons, List.not_mem_nil, or_false] at hk
  rcases hk with hk | hk
  all_goals
    rw [hk]
    exact hn

end Grammar

/-! ## The program -/

open ParseState in
/-- The program is made of the statements of the outermost scope, with comments delivered. -/
theorem parse_of_topStatements {text : String} {fileName : Option String} {o : Options}
    {ns : List Node} {t : ParseState}
    (h : (Grammar.topStatements .empty).Yields (first text fileName o) ns t) :
    ∃ p g, parse text fileName o = .ok p ∧ p.children = ns.map (Node.mapInfo g) := by
  refine ⟨t.completed (root text fileName o) ns, _, ?_, Trivia.settle_children _ _⟩
  rw [parse_eq, statementsFrom_eq_ok.mpr h]

/-- The statement of a literal that is one token is parsed as that. -/
theorem Literal.parse_alone (fileName : Option String) {o : Options} {q : Production Node}
    (hstrict : o.suppressErrors = false) (hk : k ∈ tokenKinds)
    (htokens : (tokenize (program raw)).map Token.face = programTokens k raw)
    (hq : Grammar.literal? k raw = some q) (hleaf : ∀ f : Node → Node, q.map f = q) :
    ∃ p n e, parse (program raw) fileName o = .ok p ∧ p.children = [n] ∧
      n.production = .expressionStatement e ∧ e.production = q := by
  obtain ⟨t, us, honward, ht, hus⟩ :=
    List.map_eq_cons_iff.mp (grammarTokens_program o hk htokens)
  obtain ⟨m, vs, rfl, hm, hvs⟩ := List.map_eq_cons_iff.mp hus
  obtain rfl := List.map_eq_nil_iff.mp hvs
  have hfirst := Stream.advance_of_onward (s := .ofSource (program raw) o.effective) honward
  have hmark := Stream.advance_of_onward hfirst.2
  have htk : t.kind = k := congrArg Prod.fst ht
  have hkind : (ParseState.first (program raw) fileName o).kind = k :=
    (congrArg Token.kind hfirst.1).trans htk
  have htext : (ParseState.first (program raw) fileName o).stream.current.text = raw :=
    (congrArg Token.text hfirst.1).trans (congrArg Prod.snd ht)
  have hend : (ParseState.first (program raw) fileName o).advance.kind = .semicolon :=
    (congrArg Token.kind hmark.1).trans (congrArg Prod.fst hm)
  obtain ⟨n, e, u, hn, hstatement, he, hu⟩ := Grammar.topStatement_of_token (p := q)
    (s := .first (program raw) fileName o) hstrict (hkind ▸ hk) (by rw [hkind, htext, hq]) hend
  have hne : (ParseState.first (program raw) fileName o).kind ≠ .eof := by
    rw [hkind]
    intro h
    rw [h] at hk
    exact absurd hk (by decide)
  have huend : u.kind = .eof := by
    show u.stream.current.kind = .eof
    rw [hu, Stream.advance_current]
    show ((ParseState.first (program raw) fileName o).stream.advance.onward.head?.getD _).kind = _
    rw [show (ParseState.first (program raw) fileName o).stream.advance.onward = [] from hmark.2]
    rfl
  obtain ⟨p, g, hp, hchildren⟩ := parse_of_topStatements (Grammar.topStatements_of_one hne hn huend)
  refine ⟨p, Node.mapInfo g n, Node.mapInfo g e, hp, hchildren, ?_, ?_⟩
  · rw [Node.mapInfo_eq, hstatement]
    rfl
  · rw [Node.mapInfo_eq, he]
    exact hleaf _

end PhpSyntax
