import PhpSyntax.Grammar.Scope
import PhpSyntax.Proofs.Bracket.Expression

namespace PhpSyntax

/-! ## Parts that open a mark or none -/

namespace Balances

variable {α : Type} {s : ParseState} {awaited : List TokenKind} {k : TokenKind} {width : Nat}
  {owed moved : Prop} {Q : α → Prop}

/-- A token whose anchor is recorded. -/
theorem anchored {f : Option Position → Parser α}
    (h : s.kind = k → ∀ a, Balances (Parser.advance >>= fun _ => f a) s awaited owed moved Q) :
    Balances (Grammar.anchored k width >>= f) s awaited owed moved Q := by
  rw [Grammar.anchored, Parser.bind_bind]
  exact expectThen fun hk => h hk (Option.some (s.advance.stream.prev.back width))

end Balances

namespace Grammar

attribute [local simp] Production.children Production.fields Field.children

variable {s : ParseState}

/-! ## Statements of one expression or none -/

theorem expressionStatement_balances :
    Balances expressionStatement s [] True False fun _ => False :=
  .openNode fun _ => .bind .expression fun _ _ => .endStatement fun _ => .finishLoud trivial

theorem withOptionalExpression_balances {p : Option Node → Production Node}
    (hk : s.kind.isFlat = true) :
    Balances (withOptionalExpression p) s [] True False fun _ => False := by
  refine .begin hk fun o => .some fun _ => .bindStill (.optionally .expression) fun n t => ?_
  exact .endStatement fun u => .finishLoud trivial

theorem withItems_balances {item : Rule .node} {p : List Node → Production Node}
    (hk : s.kind.isFlat = true) (h : item.isPlain = true) :
    Balances (withItems item p) s [] True False fun _ => False := by
  refine .begin hk fun o => .bind (separated_balances ⟨Or.inr rfl, h⟩) fun ns t => ?_
  exact .endStatement fun u => .finishLoud trivial

theorem staticVariable_balances : Balances staticVariable s [] True False Node.NamesClasses := by
  refine .openNode fun o => .bind (.node rfl) fun target t => ?_
  exact .bindStill initialValue_balances fun default u => .finish trivial fun _ h => by simp_all

theorem echoStatement_balances (hk : s.kind.isFlat = true) :
    Balances echoStatement s [] True False fun _ => False :=
  .some fun _ => withItems_balances hk rfl

theorem inlineHtml_balances (hk : s.kind.isFlat = true) :
    Balances inlineHtml s [] True False fun _ => False :=
  .openNode fun _ => .some fun _ => .flat hk (.finishLoud trivial)

theorem unsetStatement_balances (hk : s.kind.isFlat = true) :
    Balances unsetStatement s [] True False fun _ => False := by
  refine .begin hk fun o => .ifExpect fun hk => .opens hk (by decide) ?_
  refine .within (delimited_balances ⟨by decide, rfl⟩) fun vs t => ?_
  exact .endStatement fun u => .finishLoud trivial

theorem throwStatement_balances (hk : s.kind.isFlat = true) :
    Balances throwStatement s [] True False fun _ => False :=
  .begin hk fun _ => .bind .expression fun _ _ => .endStatement fun _ => .finishLoud trivial

theorem gotoStatement_balances (hk : s.kind.isFlat = true) :
    Balances gotoStatement s [] True False fun _ => False :=
  .begin hk fun _ => .bind identifier_balances fun _ _ => .endStatement fun _ => .finishLoud trivial

theorem label_balances : Balances label s [] True False fun _ => False :=
  .openNode fun _ => .bind identifier_balances fun _ _ => .demand rfl fun _ => .finishLoud trivial

theorem emptyStatement_balances (hk : s.kind = .semicolon) :
    Balances emptyStatement s [] True False fun _ => False :=
  .openNode fun _ => .stopLoud (List.mem_cons_of_mem _ (hk ▸ List.mem_cons_self)) (.finishLoud trivial)

/-! ## Conditionals -/

theorem shortElse_balances (hk : s.kind.isFlat = true) :
    Balances shortElse s [] True False fun _ => False := by
  refine .flat hk (.demand rfl fun t => .openNode fun o => ?_)
  exact .bindStill .statements fun ns u => .finishLoud trivial

theorem shortBranch_balances : Balances shortBranch s [] True True fun _ => False := by
  refine .openNode fun o => .bindStill .statements fun ns t => .still rfl fun body => .kind ?_
  split
  · next hk =>
    exact .bind (.shortElseIf (hk ▸ rfl)) fun n u => .pure trivial False.elim
  · next hk => exact .bind (shortElse_balances (hk ▸ rfl)) fun n u => .pure trivial False.elim
  · exact .pure trivial False.elim

theorem shortElseIf_balances (hk : s.kind.isFlat = true) :
    Balances shortElseIf s [] True False fun _ => False := by
  refine .begin hk fun o => .bind condition_balances fun test t => .demand rfl fun u => ?_
  exact .bindStill shortBranch_balances fun r v => .finishLoud trivial

theorem ifStatement_balances (hk : s.kind.isFlat = true) :
    Balances ifStatement s [] True False fun _ => False := by
  refine .begin hk fun o => .bind condition_balances fun test t => .ifEat (fun hk => ?_) fun _ => ?_
  · refine .flat (hk ▸ rfl) (.bindStill shortBranch_balances fun r u => .demand rfl fun v => ?_)
    exact .endStatement fun w => .finishLoud trivial
  · refine .bind .statement fun body u => .kind ?_
    split
    · next hk => exact .bind (.ifStatement (hk ▸ rfl)) fun alternate v => .finishLoud trivial
    · next hk =>
      exact .flat (hk ▸ rfl) (.bind .statement fun alternate v => .finishLoud trivial)
    · exact .finishLoud trivial

/-! ## Choices -/

theorem caseTest_balances : Balances caseTest s [] True False fun _ => False := by
  refine .kind ?_
  split
  · next hk => exact .flat (hk ▸ rfl) (.bind .expression fun n t => .pure trivial False.elim)
  · next hk => exact .flat (hk ▸ rfl) (.pure trivial False.elim)
  · exact .missing

theorem caseClause_balances {close : TokenKind} :
    Balances (caseClause close) s [] True False fun _ => False := by
  refine .openNode fun o => .bind caseTest_balances fun test t => .kind ?_
  have hbody {u : ParseState} {owed : Prop} :
      Balances (Parser.call (.statements (.ofList [.kwCase, .kwDefault, close])) >>= fun body =>
        Parser.finish o (.case test body)) u [] owed True fun _ => False :=
    .bindStill .statements fun ns v => .finishLoud trivial
  split
  · next hk => exact .flat (hk ▸ rfl) hbody
  · next hk => exact .stopLoud (hk ▸ by decide) hbody
  · exact .missing

theorem cases_balances {close : TokenKind} : Balances (cases close) s [] True True fun _ => False := by
  refine .some fun _ => .some fun _ => .ite (fun _ => .pure trivial False.elim) fun _ => ?_
  refine .bind caseClause_balances fun n t => ?_
  exact .bindStill (.call (r := .cases close) trivial rfl) fun ns u => .pure trivial False.elim

theorem commentsAlone_balances : Balances commentsAlone s [] True True fun _ => True := by
  refine .some fun _ => .ite (fun _ => .openNode fun o => ?_) fun _ => .pure trivial fun _ => trivial
  exact .bindStill (.finishQuiet (Q := fun _ => True) trivial trivial)
    fun n t => .pure trivial fun _ => ⟨trivial, trivial⟩

/-- Cases stand in braces, or behind a colon. -/
theorem openCases_balances {α : Type} {f : TokenKind → Parser α} {owed moved : Prop} {Q : α → Prop}
    (hcolon : ∀ t, Balances (f .kwEndSwitch) t [] owed True Q)
    (hbrace : ∀ t, Balances (f .rBrace) t [.rBrace] owed True Q) :
    Balances (openCases >>= f) s [] owed moved Q := by
  rw [openCases, Parser.bind_bind]
  refine .kind ?_
  split
  · next hk => exact .flat (hk ▸ rfl) (hcolon _)
  · next hk => exact .opens hk (by decide) (hbrace _)
  · rw [Parser.bind_bind]
    exact .missing

theorem caseList_balances : Balances caseList s [] True False fun _ => False := by
  refine .openNode fun o => openCases_balances (fun t => .skip fun u => ?_) fun t =>
    .skipInside fun u => ?_
  · have hend {children : List Node} {v : ParseState} {owed : Prop} :
        Balances (Parser.require .kwEndSwitch >>= fun _ => Parser.endStatement >>= fun _ =>
          Parser.finish o (.block children)) v [] owed True fun _ => False :=
      .demand rfl fun w => .endStatement fun x => .finishLoud trivial
    refine .bindStill (.call (r := .cases _) trivial rfl) fun children v => ?_
    exact .ite (fun _ => .bindStill commentsAlone_balances fun children w => hend) fun _ => hend
  · have hend {children : List Node} {v : ParseState} {owed : Prop} :
        Balances (Parser.require .rBrace >>= fun _ => Parser.finish o (.block children)) v [.rBrace]
          owed True fun _ => False :=
      .require fun hk => .shuts hk (by decide) (.finishLoud trivial)
    refine .inside (.call (r := .cases _) trivial rfl) fun children v => ?_
    exact .ite (fun _ => .inside commentsAlone_balances fun children w => hend) fun _ => hend

theorem switchStatement_balances (hk : s.kind.isFlat = true) :
    Balances switchStatement s [] True False fun _ => False := by
  refine .begin hk fun o => .bind condition_balances fun test t => .some fun shortform => ?_
  exact .bind caseList_balances fun body u => .finishLoud trivial

/-! ## Handlers -/

theorem handler_balances (hk : s.kind.isFlat = true) :
    Balances handler s [] True False fun _ => False := by
  refine .begin hk fun o => .require fun hk => .opens hk (by decide) ?_
  refine .inside (separated_balances ⟨Or.inl rfl, rfl⟩) fun types t => ?_
  refine .inside (.node rfl) fun var u => .require fun hk => .shuts hk (by decide) ?_
  exact .bind block_balances fun body v => .finishLoud trivial

theorem handlers_balances : Balances handlers s [] True True fun _ => False := by
  refine .isAt (fun hk => ?_) fun _ => .pure trivial False.elim
  refine .bind (handler_balances (hk ▸ rfl)) fun n t => ?_
  exact .bindStill (.call (r := .handlers) trivial rfl) fun ns u => .pure trivial False.elim

theorem tryStatement_balances (hk : s.kind.isFlat = true) :
    Balances tryStatement s [] True False fun _ => False := by
  refine .begin hk fun o => .bind block_balances fun body t => ?_
  refine .bindStill (.call (r := .handlers) trivial rfl) fun catches u => ?_
  exact .bindStill (.after rfl fun v => block_balances) fun always v => .finishLoud trivial

/-! ## Loops -/

theorem loopBody_balances {close : TokenKind} (h : close.isFlat = true) :
    Balances (loopBody close) s [] True False fun _ => False := by
  refine .isAt (fun _ => ?_) fun _ => ?_
  · exact .bind (shortBlock_balances h) fun n t => .pure trivial False.elim
  · exact .bind .statement fun n t => .pure trivial False.elim

theorem whileStatement_balances (hk : s.kind.isFlat = true) :
    Balances whileStatement s [] True False fun _ => False := by
  refine .begin hk fun o => .bind condition_balances fun test t => ?_
  exact .bind (loopBody_balances rfl) fun r u => .finishLoud trivial

theorem doStatement_balances (hk : s.kind.isFlat = true) :
    Balances doStatement s [] True False fun _ => False := by
  refine .begin hk fun o => .bind .statement fun body t => .ifEat (fun hk => ?_) fun _ => .missing
  refine .flat (hk ▸ rfl) (.bind condition_balances fun test u => ?_)
  exact .endStatement fun v => .finishLoud trivial

/-- A part of the header of a counted loop goes up to the token behind it. -/
theorem forPart_balances {α : Type} {f : List Node × Option Position → Parser α} {close : TokenKind}
    {owed moved : Prop} {Q : α → Prop}
    (h : ∀ r t, t.kind = close → Balances (Parser.advance >>= fun _ => f r) t [.rParen] owed moved Q) :
    Balances (forPart close >>= f) s [.rParen] owed moved Q := by
  have hanchor {exprs : List Node} {t : ParseState} :
      Balances ((anchored close 1 >>= fun a => pure (exprs, a)) >>= f) t [.rParen] owed moved Q := by
    rw [Parser.bind_bind]
    exact .anchored fun hk a => h (exprs, a) t hk
  rw [forPart, Parser.bind_bind]
  refine .read ?_
  rw [Parser.ite_bind]
  refine .ite (fun _ => hanchor) fun _ => ?_
  rw [Parser.bind_bind]
  exact .inside (separated_balances ⟨Or.inr rfl, rfl⟩) fun exprs t => hanchor

theorem forStatement_balances (hk : s.kind.isFlat = true) :
    Balances forStatement s [] True False fun _ => False := by
  refine .begin hk fun o => .anchored fun hk leftParen => .opens hk (by decide) ?_
  refine forPart_balances fun init t hk => .stopInside (hk ▸ by decide) ?_
  refine forPart_balances fun test u hk => .stopInside (hk ▸ by decide) ?_
  refine forPart_balances fun increment v hk => .shuts hk (by decide) ?_
  refine .bind (loopBody_balances rfl) fun r w => .bindStill (.finishLoud trivial) fun n x => ?_
  exact .pure trivial False.elim

theorem loopVariable_balances : Balances loopVariable s [] True False Node.NamesClasses := by
  refine .kind ?_
  split
  · next hk => exact listPattern_balances (by simp [hk])
  · next hk => exact listPattern_balances (by simp [hk])
  · exact .node rfl

theorem loopVariables_balances : Balances loopVariables s [] True False fun _ => False := by
  refine .ifEat (fun hk => .flat (hk ▸ rfl) (.some fun anchor => ?_)) fun _ => .missing
  refine .bind loopVariable_balances fun first t => .ifEat (fun hk => ?_) fun _ =>
    .pure trivial False.elim
  refine .flat (hk ▸ rfl) (.some fun arrow => .bind loopVariable_balances fun value u => ?_)
  exact .pure trivial False.elim

theorem foreachStatement_balances (hk : s.kind.isFlat = true) :
    Balances foreachStatement s [] True False fun _ => False := by
  refine .begin hk fun o => .anchored fun hk leftParen => .opens hk (by decide) ?_
  refine .inside .expression fun source t => .inside loopVariables_balances fun vs u => ?_
  refine .ite (fun _ => .fatal) fun _ => .anchored fun hk rightParen => .shuts hk (by decide) ?_
  refine .bind (loopBody_balances rfl) fun r v => .bindStill (.finishLoud trivial) fun n w => ?_
  exact .pure trivial False.elim

/-! ## Imports -/

theorem useKind_balances : Balances useKind s [] True True fun _ => True := by
  refine .kind ?_
  split
  · next hk => exact .flat (hk ▸ rfl) (.pure trivial fun _ => trivial)
  · next hk => exact .flat (hk ▸ rfl) (.pure trivial fun _ => trivial)
  · exact .pure trivial fun _ => trivial

theorem useItemNamed_balances {o : Opened} {n : Node} {kind : UseKind} :
    Balances (useItemNamed o n kind) s [] n.NamesClasses True Node.NamesClasses := by
  refine .bindStill (.after rfl fun t => identifier_balances) fun localName t => ?_
  exact .finish trivial fun _ h => by simp_all

theorem useItem_balances {kind : UseKind} {mixed : Bool} :
    Balances (useItem kind mixed) s [] True False Node.NamesClasses := by
  have hrest {o : Opened} {k : UseKind} {t : ParseState} {moved : Prop} :
      Balances (Parser.call .name >>= fun n => useItemNamed o n k) t [] True moved
        Node.NamesClasses :=
    .chain (Balances.node rfl).moving fun n u => useItemNamed_balances
  refine .openNode fun o => .ite (fun _ => ?_) fun _ => hrest
  exact .bindStill useKind_balances fun declared t =>
    hrest.mono (fun _ => ⟨trivial, trivial⟩) id fun _ => id

theorem useStatement_balances (hk : s.kind.isFlat = true) :
    Balances useStatement s [] True False fun _ => False := by
  refine .begin hk fun o => .bindStill useKind_balances fun declared t => .openNode fun first => ?_
  refine .bind (.node rfl) fun n u => .read (.read (.ite (fun hgroup => ?_) fun _ => ?_))
  · obtain ⟨hseparator, hbrace⟩ := Bool.and_eq_true_iff.mp hgroup
    have hhere : u.kind = .nsSeparator := of_decide_eq_true hseparator
    have hnext : u.advance.kind = .lBrace :=
      (Stream.advance_kind _).trans (of_decide_eq_true hbrace)
    refine .still rfl fun n => .requireOption (.flat (hhere ▸ rfl) (.opens hnext (by decide) ?_))
    refine .within (delimited_balances ⟨by decide, rfl⟩) fun items v => ?_
    exact .endStatement fun w => .finishLoud trivial
  · have hrest {items : List Node} {v : ParseState} {owed : Prop} :
        Balances (Parser.endStatement >>= fun _ =>
          Parser.finish o (.useGroup none (declared.getD .class) items)) v [] owed True
          fun _ => False :=
      .endStatement fun w => .finishLoud trivial
    refine .bindStill (useItemNamed_balances.mono (fun _ => trivial) id fun _ => id) fun item v => ?_
    refine .ifEat (fun hk => .stopLoud (hk ▸ by decide) ?_) fun _ => hrest
    exact .bind (separated_balances ⟨Or.inr rfl, rfl⟩) fun items w => hrest

/-! ## Namespaces and declare statements -/

theorem namespaceBody_balances {anonymous : Bool} :
    Balances (namespaceBody anonymous) s [] True True fun _ => False := by
  refine .ifEat (fun hk => .opens hk (by decide) ?_) fun _ => .ite (fun _ => .missing) fun _ => ?_
  · refine .inside .topStatements fun ns t => .require fun hk => ?_
    exact .shuts hk (by decide) (.pure trivial False.elim)
  · refine .endStatement fun t => ?_
    refine .bindStill (.call (r := .namespaceStatements) trivial rfl) fun ns u => ?_
    exact .pure trivial False.elim

theorem namespaceDeclaration_balances (hk : s.kind.isFlat = true) :
    Balances namespaceDeclaration s [] True False fun _ => False := by
  refine .openNode fun o => .read (.ite (fun _ => .objection) fun _ => .flat hk (.some fun _ => ?_))
  refine .bindStill (.optionally (.node rfl)) fun name t => .modify rfl ?_
  exact .bindStill namespaceBody_balances fun r u => .modify rfl (.finishLoud trivial)

theorem directive_balances : Balances directive s [] True False Node.NamesClasses := by
  refine .openNode fun o => .bind identifier_balances fun key t => .demand rfl fun u => ?_
  exact .bind .expression fun value v => .finish trivial fun _ h => by simp_all

theorem declareBody_balances : Balances declareBody s [] True True fun _ => False := by
  refine .kind ?_
  split
  · next hk =>
    refine .flat (hk ▸ rfl) (.bindStill .statements fun ns t => .demand rfl fun u => ?_)
    exact .endStatement fun v => .pure trivial False.elim
  · next hk =>
    refine .opens hk (by decide) (.inside .topStatements fun ns t => .require fun hk => ?_)
    exact .shuts hk (by decide) (.pure trivial False.elim)
  · exact .endStatement fun t => .bindStill .topStatements fun ns u => .pure trivial False.elim

theorem declareStatement_balances (hk : s.kind.isFlat = true) :
    Balances declareStatement s [] True False fun _ => False := by
  refine .begin hk fun o => .ifExpect fun hk => .opens hk (by decide) ?_
  refine .within (delimited_balances ⟨by decide, rfl⟩) fun directives t => ?_
  exact .bindStill declareBody_balances fun r u => .finishLoud trivial

/-! ## The end of the code -/

/-- Behind the end of the code nothing is read. -/
theorem halt_balances {awaited : List TokenKind} {owed moved : Prop} {o : Opened}
    {p : String → Production Node} :
    Balances (halt >>= fun after => Parser.finish o (p after)) s awaited owed moved
      fun _ => False :=
  fun _ => ⟨.halt, False.elim⟩

theorem haltCompiler_balances {outermost : Bool} (hk : s.kind.isFlat = true) :
    Balances (haltCompiler outermost) s [] True False fun _ => False := by
  refine .ite (fun _ => .objection) fun _ => .begin hk fun o => .require fun hk => ?_
  refine .opens hk (by decide) (.require fun hk => .shuts hk (by decide) ?_)
  refine .ite (fun _ => .read (.ite (fun _ => .missing) fun _ => halt_balances)) fun _ => ?_
  exact .endStatement fun t => .finishLoud trivial

/-! ## Statements by their first token -/

theorem statement_balances : Balances statement s [] True False fun _ => False := by
  refine .some fun next => .kind ?_
  split
  case h_1 => exact block_balances.loud
  case h_2 hk => exact .ifStatement (hk ▸ rfl)
  case h_3 hk => exact switchStatement_balances (hk ▸ rfl)
  case h_4 hk => exact forStatement_balances (hk ▸ rfl)
  case h_5 hk => exact foreachStatement_balances (hk ▸ rfl)
  case h_6 hk => exact whileStatement_balances (hk ▸ rfl)
  case h_7 hk => exact doStatement_balances (hk ▸ rfl)
  case h_8 hk | h_9 hk | h_10 hk => exact withOptionalExpression_balances (hk ▸ rfl)
  case h_11 hk => exact withItems_balances (hk ▸ rfl) rfl
  case h_12 hk =>
    exact .ite (fun _ => withItems_balances (hk ▸ rfl) rfl) fun _ => expressionStatement_balances
  case h_13 hk => exact echoStatement_balances (hk ▸ rfl)
  case h_14 hk => exact inlineHtml_balances (hk ▸ rfl)
  case h_15 hk => exact unsetStatement_balances (hk ▸ rfl)
  case h_16 hk => exact declareStatement_balances (hk ▸ rfl)
  case h_17 hk => exact tryStatement_balances (hk ▸ rfl)
  case h_18 hk => exact throwStatement_balances (hk ▸ rfl)
  case h_19 hk => exact gotoStatement_balances (hk ▸ rfl)
  case h_20 => exact .ite (fun _ => label_balances) fun _ => expressionStatement_balances
  case h_21 hk => exact emptyStatement_balances hk
  case h_22 => exact expressionStatement_balances

theorem innerStatement_balances : Balances innerStatement s [] True False fun _ => False := by
  refine .some fun next => .kind ?_
  split
  case h_1 hk => exact .ite (fun _ => .statement) fun _ => functionDeclaration_balances (hk ▸ rfl)
  case h_2 | h_3 | h_4 => exact classDeclaration_balances
  case h_5 hk => exact interfaceDeclaration_balances (hk ▸ rfl)
  case h_6 hk => exact traitDeclaration_balances (hk ▸ rfl)
  case h_7 hk => exact haltCompiler_balances (hk ▸ rfl)
  case h_8 => exact .statement

theorem topStatement_balances : Balances topStatement s [] True False fun _ => False := by
  refine .read (.ite (fun hnamespace => ?_) fun _ => .kind ?_)
  · have hk : s.kind = .kwNamespace := of_decide_eq_true (Bool.and_eq_true_iff.mp hnamespace).1
    exact namespaceDeclaration_balances (hk ▸ rfl)
  · split
    · next hk => exact useStatement_balances (hk ▸ rfl)
    · next hk => exact withItems_balances (hk ▸ rfl) rfl
    · next hk => exact haltCompiler_balances (hk ▸ rfl)
    · exact innerStatement_balances

theorem statements_balances {stop : TokenSet} :
    Balances (statements stop) s [] True True fun _ => False :=
  statementList_balances innerStatement_balances fun _ => .statements

theorem topStatements_balances {stop : TokenSet} :
    Balances (topStatements stop) s [] True True fun _ => False :=
  statementList_balances topStatement_balances fun _ => .topStatements

theorem namespaceStatements_balances : Balances namespaceStatements s [] True True fun _ => False :=
  statementList_balances topStatement_balances fun _ => .call (r := .namespaceStatements) trivial rfl

end Grammar
end PhpSyntax
