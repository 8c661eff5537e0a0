import PhpSyntax.Proofs.Formula.Parsing
import PhpSyntax.Proofs.Progress.Termination

namespace PhpSyntax
namespace Grammar
open PhpSyntax.Parser

variable {f : Formula} {e : TokenKind × String} {fs gs : List (TokenKind × String)}
  {V : Node → Prop}

/-! ## The one statement -/

theorem expressionStatement_reads (hf : f.isGrouped = true) :
    Reads expressionStatement (f.tokens ++ [(.semicolon, ";")])
      (fun n => n.unplaced = ⟨default, .expressionStatement f.node⟩) [endOfText] := by
  have hexpression := (f.readable hf).whole (k := .semicolon) rfl rfl ";" []
  have hend : Reads endStatement [(.semicolon, ";")] (fun _ => True) [endOfText] :=
    .kind .advance_last
  refine .openNode fun o ho => .bind hexpression fun n hn => .bind hend fun _ _ => ?_
  exact .finish ho (congrArg Production.expressionStatement hn)

/-- A statement that begins as a formula does is an expression. -/
theorem topStatement_reads (he : Opens e) (h : Reads expressionStatement (e :: fs) V gs) :
    Reads topStatement (e :: fs) V gs := by
  obtain ⟨k, w⟩ := e
  have hk : k = .variable ∨ k = .lNumber ∨ k = .lParen := by simpa using he.kind
  have hnamespace : Reads atNamespace ((k, w) :: fs) (· = false) ((k, w) :: fs) := by
    refine .isAt (.read fun next => .pure ?_)
    rcases hk with rfl | rfl | rfl <;> rfl
  refine .bind hnamespace fun b hb => ?_
  subst hb
  rcases hk with rfl | rfl | rfl
  all_goals exact .kind (.read fun _ => .kind (.call (.read fun _ => .kind h)))

/-- At the end of the text there are no statements. -/
theorem topStatements_end :
    Reads (call (.topStatements .empty)) [endOfText] (· = []) [endOfText] := by
  refine .call (.atEnd (.read fun stop => ?_))
  exact .pure rfl

/-- A statement that the text ends behind is the only one. -/
theorem topStatements_reads (he : e.1 ≠ .eof) (h : Reads topStatement (e :: fs) V [endOfText]) :
    Reads (topStatements .empty) (e :: fs) (fun ns => ∃ n, ns = [n] ∧ V n) [endOfText] := by
  obtain ⟨k, w⟩ := e
  have hforce (p : Position) :
      Reads (forceProgress p) [endOfText] (fun _ => True) [endOfText] := by
    refine .read_eq (b := false) (fun s hs => ?_) (.pure trivial)
    have hend : s.stream.current.isEof = true := decide_eq_true hs.kind
    rw [hend]
    rfl
  refine .atEnd (.read_eq (b := false) (fun s hs => ?_) ?_)
  · exact Bool.eq_false_iff.mpr (TokenSet.not_mem_empty _)
  · rw [decide_eq_false he]
    refine .read fun start => .bind h fun n hn => .bind (hforce start) fun _ _ => ?_
    exact .bind topStatements_end fun ns hns => .pure ⟨n, congrArg _ hns, hn⟩

end Grammar

/-! ## The program -/

/-- In front of the first statement come the tokens that the grammar sees. -/
theorem ParseState.first_before {source : String} (fileName : Option String)
    {e : TokenKind × String} {fs : List (TokenKind × String)}
    (h : (grammarTokens {} source).map Token.face = e :: fs) :
    (first source fileName {}).Before (e :: fs) := by
  have hstart : (start source (fileName.getD defaultFileName) {}).Before (endOfText :: e :: fs) :=
    ⟨rfl, rfl, rfl, congrArg (List.cons endOfText) h⟩
  exact hstart.openNode.2.advance

/-- A program made of what is read keeps it. -/
theorem ParseState.Before.completed_children {s : ParseState} {fs : List (TokenKind × String)}
    (h : s.Before fs) (root : Opened) (children : List Node) :
    (s.completed root children).children = children := by
  have hdeferred : (s.sealed root).2.trivia.deferred = #[] := by
    have htrail := (Trivia.trail_of_nothing h.deferred s.nextId s.stream.finish.prev
      s.stream.finish.current.isEof).2
    rw [← h.comments] at htrail
    exact htrail
  rw [completed, Trivia.settle_of_nothing hdeferred]
  rfl

open ParseState in
/-- A formula whose operators may stand where they do is written, parsed and found again. -/
theorem Formula.parse_program (f : Formula) (hf : f.isGrouped = true)
    (fileName : Option String) :
    ∃ p, parse f.program fileName {} = .ok p ∧
      p.children.map Node.unplaced = [⟨default, .expressionStatement f.node⟩] := by
  obtain ⟨e, fs, htokens, he⟩ := f.tokens_head
  have hstatement := Grammar.expressionStatement_reads hf
  have hface := f.grammarTokens_program
  rw [htokens, List.cons_append] at hstatement hface
  have hkind : e.1 ≠ .eof := fun heof => by
    have hkind := he.kind
    rw [heof] at hkind
    exact absurd hkind (by decide)
  obtain ⟨children, s, ⟨es, hruns⟩, ⟨n, rfl, hn⟩, hs⟩ :=
    Grammar.topStatements_reads hkind (Grammar.topStatement_reads he hstatement) _
      (first_before fileName hface)
  obtain ⟨es', hruns', -⟩ := statementsFrom_runs f.program fileName {}
  have hstatements : statementsFrom (first f.program fileName {}) = .ok ([n], s) :=
    (hruns'.det hruns).2
  refine ⟨s.completed (root f.program fileName {}) [n], by rw [parse_eq, hstatements], ?_⟩
  rw [hs.completed_children, List.map_singleton, hn]

/-- Operators that group to the left and to the right, both forms of the conditional operator,
and in the middle of one an operator that binds less than it. -/
def Formula.mixed : Formula :=
  .choice
    (.operation .coalesce (.variable ⟨"a", by decide⟩)
      (.operation (.binary .sub)
        (.operation (.binary .sub) (.integer ⟨"10", by decide⟩) (.integer ⟨"2", by decide⟩))
        (.operation (.binary .pow) (.integer ⟨"3", by decide⟩)
          (.operation (.binary .pow) (.variable ⟨"b", by decide⟩) (.integer ⟨"4", by decide⟩)))))
    (.operation (.binary .logicalXor) (.integer ⟨"5", by decide⟩) (.variable ⟨"c", by decide⟩))
    (.parenthesis
      (.operation .ternary (.variable ⟨"d", by decide⟩) (.integer ⟨"1_000", by decide⟩)))

theorem Formula.parse_program_mixed :
    mixed.program = "<?php $a ?? 10 - 2 - 3 ** $b ** 4 ? 5 xor $c : ( $d ? : 1_000 );" ∧
      mixed.isGrouped = true ∧
      ∃ p, parse mixed.program none {} = .ok p ∧
        p.children.map Node.unplaced = [⟨default, .expressionStatement mixed.node⟩] :=
  ⟨by decide +kernel, by decide, Formula.parse_program mixed (by decide) none⟩

end PhpSyntax
