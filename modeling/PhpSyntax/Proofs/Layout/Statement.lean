import PhpSyntax.Grammar.Scope
import PhpSyntax.Proofs.Layout.Expression

namespace PhpSyntax.Grammar
open Alike

variable {A : Alignment}

/-! ## Conditionals -/

theorem shortElse_steady : Steady A Node.erased shortElse := by
  refine .skip advance (.skip require (.openNode fun o o' ho => .bind (nodes _) fun ms ns hs => ?_))
  exact .finish ho (congrArg Production.block hs)

theorem shortBranch_steady :
    Steady A (Prod.map Node.erased (Option.map Node.erased)) shortBranch := by
  refine .openNode fun o o' ho => .bind (nodes _) fun ms ns hs => ?_
  refine .bind (.finish ho (congrArg Production.block hs)) fun body body' hbody =>
    .see kind fun k => ?_
  have hsome {m n : Node} (h : m.erased = n.erased) :
      Same (Prod.map Node.erased (Option.map Node.erased)) (body, some m) (body', some n) :=
    congrArg₂ Prod.mk hbody (congrArg some h)
  split
  · exact .bind (node _) fun m n h => .pure (hsome h)
  · exact .bind shortElse_steady fun m n h => .pure (hsome h)
  · exact .pure (congrArg (·, none) hbody)

theorem shortElseIf_steady : Steady A Node.erased shortElseIf := by
  refine .begin fun o o' ho => .bind condition_steady fun test test' htest => .skip require ?_
  refine .pair shortBranch_steady fun body body' alternate alternate' hbody halternate => ?_
  refine .finish ho ?_
  simp only [Production.Like, Production.map, htest, hbody, halternate]

theorem ifStatement_steady : Steady A Node.erased ifStatement := by
  refine .begin fun o o' ho => .bind condition_steady fun test test' htest => .test eat ?_ ?_
  · refine .pair shortBranch_steady fun body body' alternate alternate' hbody halternate => ?_
    refine .skip require (.skip endStatement (.finish ho ?_))
    simp only [Production.Like, Production.map, htest, hbody, halternate]
  · refine .bind (node _) fun body body' hbody => .see kind fun k => ?_
    have hfinish {alternate alternate' : Option Node}
        (h : alternate.map Node.erased = alternate'.map Node.erased) :
        Alike A (Same Node.erased) (Parser.finish o (.if test body alternate false))
          (Parser.finish o' (.if test' body' alternate' false)) := by
      refine .finish ho ?_
      simp only [Production.Like, Production.map, htest, hbody, h]
    split
    · exact .bind (node _) fun m n h => hfinish (congrArg some h)
    · exact .skip advance (.bind (node _) fun m n h => hfinish (congrArg some h))
    · exact hfinish rfl

/-! ## Choices -/

theorem caseTest_steady : Steady A (Option.map Node.erased) caseTest := by
  refine .see kind fun k => ?_
  split
  · exact .skip advance (.bind expression fun m n h => .pure (congrArg some h))
  · exact .skip advance (.pure rfl)
  · exact .bind missing fun m n h => .pure (congrArg some h)

theorem caseClause_steady (close : TokenKind) : Steady A Node.erased (caseClause close) := by
  refine .openNode fun o o' ho => .bind caseTest_steady fun test test' htest => .see kind fun k => ?_
  have hrest : Alike A (Same Node.erased)
      (Parser.call (.statements (.ofList [.kwCase, .kwDefault, close])) >>= fun body =>
        Parser.finish o (.case test body))
      (Parser.call (.statements (.ofList [.kwCase, .kwDefault, close])) >>= fun body =>
        Parser.finish o' (.case test' body)) :=
    .bind (nodes _) fun ms ns hs => .finish ho (congrArg₂ Production.case htest hs)
  split
  · exact .skip advance hrest
  · exact .skip advance hrest
  · exact .skip missing hrest

theorem cases_steady (close : TokenKind) : Steady A (List.map Node.erased) (cases close) := by
  refine .see atEnd fun _ => .see isAt fun _ => .ite (.pure rfl) ?_
  refine .bind (caseClause_steady close) fun m n h => ?_
  exact .bind (nodes _) fun ms ns hs => .pure (cons_same h hs)

theorem openCases_alike : Alike A Eq openCases openCases := by
  refine .see kind fun k => ?_
  split
  · exact .skip advance (.pure rfl)
  · exact .skip advance (.pure rfl)
  · exact .skip missing (.pure rfl)

/-- There are no comments to lead a node of their own. -/
theorem commentsAlone_steady : Steady A (List.map Node.erased) commentsAlone := by
  have hunread : Alike A Eq
      (Parser.read fun s => !(s.trivia.unread s.stream.comments).isEmpty)
      (Parser.read fun s => !(s.trivia.unread s.stream.comments).isEmpty) := by
    refine read fun s t hs => ?_
    rw [hs.stream.comments.1, hs.stream.comments.2, Trivia.unread_of_nothing,
      Trivia.unread_of_nothing]
  refine .test hunread (.openNode fun o o' ho => ?_) (.pure rfl)
  exact .bind (.finish ho rfl) fun m n h => .pure (cons_same h rfl)

theorem caseList_steady : Steady A Node.erased caseList := by
  refine .openNode fun o o' ho => .see openCases_alike fun close => .skip eat ?_
  refine .bind (nodes _) fun children children' hchildren => ?_
  have hempty : children.isEmpty = children'.isEmpty := by
    rw [← List.isEmpty_map (f := Node.erased), hchildren, List.isEmpty_map]
  rw [hempty]
  refine .join commentsAlone_steady (.pure hchildren) fun ms ns hs => .skip require ?_
  exact .possibly endStatement (.finish ho (congrArg Production.block hs))

theorem switchStatement_steady : Steady A Node.erased switchStatement := by
  refine .begin fun o o' ho => .bind condition_steady fun test test' htest => ?_
  refine .see isAt fun shortform => .bind caseList_steady fun body body' hbody => ?_
  exact .finish ho (congrArg₂ (Production.switch · · shortform) htest hbody)

/-! ## Handlers -/

theorem handler_steady : Steady A Node.erased handler := by
  refine .begin fun o o' ho => .skip require ?_
  refine .bind (separated_steady _ _) fun types types' htypes => ?_
  refine .bind (node _) fun var var' hvar => .skip require ?_
  refine .bind block_steady fun body body' hbody => .finish ho ?_
  simp only [Production.Like, Production.map, htypes, hvar, hbody]

theorem handlers_steady : Steady A (List.map Node.erased) handlers := by
  refine .test isAt (.bind handler_steady fun m n h => ?_) (.pure rfl)
  exact .bind (nodes _) fun ms ns hs => .pure (cons_same h hs)

theorem tryStatement_steady : Steady A Node.erased tryStatement := by
  refine .begin fun o o' ho => .bind block_steady fun body body' hbody => ?_
  refine .bind (nodes _) fun ms ns hs => .bind (after block_steady) fun last last' hlast => ?_
  refine .finish ho ?_
  simp only [Production.Like, Production.map, hbody, hs, hlast]

/-! ## Loops -/

theorem anchorBehind_alike (width : Nat) :
    Alike A (fun _ _ => True) (anchorBehind width) (anchorBehind width) :=
  read fun _ _ _ => trivial

/-- Whether a token has an anchor is not a matter of layout. -/
theorem anchored_steady (k : TokenKind) (width : Nat) :
    Steady A Option.isSome (anchored k width) :=
  .see expect fun _ =>
    .ite (.bind (anchorBehind_alike width) fun _ _ _ => .pure rfl) (.pure rfl)

theorem erased_withAnchors {m n : Node} {ps qs : List (Anchor × Option Position)}
    (h : m.erased = n.erased)
    (hanchors : ps.map (fun e => (e.1, e.2.isSome)) = qs.map fun e => (e.1, e.2.isSome)) :
    (withAnchors m ps).erased = (withAnchors n qs).erased := by
  let record (ps : List (Anchor × Option Position)) (i : NodeInfo) : NodeInfo :=
    { i with span := i.span.setAnchors ps }
  refine Node.erased_withInfo (f := record ps) (g := record qs) (fun i j hij => ?_) h
  obtain ⟨hid, hspan, hleading, htrailing⟩ := NodeInfo.mk.inj hij
  simp only [record, NodeInfo.erased, Span.erased_setAnchors hspan hanchors, hid, hleading,
    htrailing]

theorem loopBody_steady (close : TokenKind) :
    Steady A (Prod.map Node.erased id) (loopBody close) := by
  refine .test isAt ?_ ?_
  · exact .bind (shortBlock_steady close) fun m n h => .pure (congrArg (·, true) h)
  · exact .bind (node _) fun m n h => .pure (congrArg (·, false) h)

theorem whileStatement_steady : Steady A Node.erased whileStatement := by
  refine .begin fun o o' ho => .bind condition_steady fun test test' htest => ?_
  refine .pair (loopBody_steady _) fun body body' shortform _ hbody hshortform => ?_
  cases hshortform
  exact .finish ho (congrArg₂ (Production.while · · shortform) htest hbody)

theorem doStatement_steady : Steady A Node.erased doStatement := by
  refine .begin fun o o' ho => .bind (node _) fun body body' hbody => .test eat ?_ ?_
  · refine .bind condition_steady fun test test' htest => .skip endStatement ?_
    exact .finish ho (congrArg₂ Production.do htest hbody)
  · exact .bind missing fun test test' htest => .finish ho (congrArg₂ Production.do htest hbody)

theorem forPart_steady (close : TokenKind) :
    Steady A (Prod.map (List.map Node.erased) Option.isSome) (forPart close) := by
  have hnone : Steady A (List.map Node.erased) (pure [] : Parser (List Node)) := .pure rfl
  refine .see isAt fun c => .join hnone (separated_steady _ _) fun ms ns hs => ?_
  exact .bind (anchored_steady close 1) fun p q hpq => .pure (congrArg₂ Prod.mk hs hpq)

theorem forStatement_steady : Steady A Node.erased forStatement := by
  refine .begin fun o o' ho => .bind (anchored_steady _ _) fun p₁ q₁ h₁ => ?_
  refine .pair (forPart_steady _) fun init init' p₂ q₂ hinit h₂ => ?_
  refine .pair (forPart_steady _) fun test test' p₃ q₃ htest h₃ => ?_
  refine .pair (forPart_steady _) fun increment increment' p₄ q₄ hincrement h₄ => ?_
  refine .pair (loopBody_steady _) fun body body' shortform _ hbody hshortform => ?_
  cases hshortform
  refine .bind (.finish ho ?_) fun m n h => .pure (erased_withAnchors h ?_)
  · simp only [Production.Like, Production.map, hinit, htest, hincrement, hbody]
  · simp only [List.map_cons, List.map_nil, h₁, h₂, h₃, h₄]

theorem loopVariable_steady : Steady A Node.erased loopVariable := by
  refine .see kind fun k => ?_
  split
  · exact listPattern_steady
  · exact listPattern_steady
  · exact node _

def LoopVariables.erased (vs : LoopVariables) : Option Node × Node × Bool × Bool :=
  (vs.key.map Node.erased, vs.value.erased, vs.asAnchor.isSome, vs.arrowAnchor.isSome)

theorem loopVariables_steady : Steady A LoopVariables.erased loopVariables := by
  refine .test eat ?_ ?_
  · refine .bind (anchorBehind_alike 2) fun p q _ => ?_
    refine .bind loopVariable_steady fun first first' hfirst => .test eat ?_ ?_
    · refine .bind (anchorBehind_alike 2) fun r r' _ => ?_
      refine .bind loopVariable_steady fun value value' hvalue => .pure ?_
      simp only [Same, LoopVariables.erased, Option.map_some, hfirst, hvalue, Option.isSome_some]
    · refine .pure ?_
      simp only [Same, LoopVariables.erased, hfirst, Option.isSome_some]
  · refine .bind missing fun m n h => .pure ?_
    simp only [Same, LoopVariables.erased, h]

theorem isList_erased (n : Node) : isList n.erased = isList n := by
  obtain ⟨info, p⟩ := n
  rw [Node.erased_mk]
  cases p <;> rfl

theorem any_isList {key key' : Option Node} (h : key.map Node.erased = key'.map Node.erased) :
    key.any isList = key'.any isList := by
  have hany (key : Option Node) : (key.map Node.erased).any isList = key.any isList := by
    cases key with
    | none => rfl
    | some n => exact isList_erased n
  rw [← hany key, h, hany]

theorem foreachStatement_steady : Steady A Node.erased foreachStatement := by
  refine .begin fun o o' ho => .bind (anchored_steady _ _) fun p₁ q₁ h₁ => ?_
  refine .bind expression fun source source' hsource => ?_
  refine .bind loopVariables_steady fun vs ws hvars => ?_
  obtain ⟨hkey, hvars⟩ := Prod.mk.inj hvars
  obtain ⟨hvalue, hvars⟩ := Prod.mk.inj hvars
  obtain ⟨has, harrow⟩ := Prod.mk.inj hvars
  rw [any_isList hkey]
  refine .ite fatal (.bind (anchored_steady _ _) fun p₂ q₂ h₂ => ?_)
  refine .pair (loopBody_steady _) fun body body' shortform _ hbody hshortform => ?_
  cases hshortform
  refine .bind (.finish ho ?_) fun m n h => .pure (erased_withAnchors h ?_)
  · simp only [Production.Like, Production.map, hsource, hkey, hvalue, hbody]
  · simp only [List.map_cons, List.map_nil, h₁, h₂, has, harrow]

/-! ## Other statements -/

theorem expressionStatement_steady : Steady A Node.erased expressionStatement := by
  refine .openNode fun o o' ho => .bind expression fun m n h => .skip endStatement ?_
  exact .finish ho (congrArg Production.expressionStatement h)

theorem withOptionalExpression_steady {p : Option Node → Production Node}
    (hp : ∀ m n, m.map Node.erased = n.map Node.erased → (p m).Like (p n)) :
    Steady A Node.erased (withOptionalExpression p) := by
  refine .begin fun o o' ho => .see isIn fun c => ?_
  exact .bind (optionally expression) fun m n h => .skip endStatement (.finish ho (hp m n h))

theorem withItems_steady (item : Rule .node) {p : List Node → Production Node}
    (hp : ∀ ms ns, ms.map Node.erased = ns.map Node.erased → (p ms).Like (p ns)) :
    Steady A Node.erased (withItems item p) := by
  refine .begin fun o o' ho => .bind (separated_steady _ _) fun ms ns hs => ?_
  exact .skip endStatement (.finish ho (hp ms ns hs))

theorem staticVariable_steady : Steady A Node.erased staticVariable := by
  refine .openNode fun o o' ho => .bind (node _) fun m n h => ?_
  refine .bind initialValue_steady fun value value' hvalue => ?_
  exact .finish ho (congrArg₂ Production.staticVariable h hvalue)

theorem echoStatement_steady : Steady A Node.erased echoStatement :=
  .see text fun _ => withItems_steady _ fun _ _ hs => congrArg (Production.echo · _) hs

theorem inlineHtml_steady : Steady A Node.erased inlineHtml :=
  .openNode fun _ _ ho => .see text fun _ => .skip advance (.finish ho rfl)

theorem unsetStatement_steady : Steady A Node.erased unsetStatement := by
  refine .begin fun o o' ho => .see expect fun c => ?_
  refine .join (delimited_steady _ _) (.pure rfl) fun ms ns hs => .skip endStatement ?_
  exact .finish ho (congrArg Production.unset hs)

theorem throwStatement_steady : Steady A Node.erased throwStatement := by
  refine .begin fun o o' ho => .bind expression fun m n h => .skip endStatement ?_
  exact .finish ho (congrArg Production.throw h)

theorem gotoStatement_steady : Steady A Node.erased gotoStatement := by
  refine .begin fun o o' ho => .bind identifier_steady fun m n h => .skip endStatement ?_
  exact .finish ho (congrArg Production.goto h)

theorem label_steady : Steady A Node.erased label := by
  refine .openNode fun o o' ho => .bind identifier_steady fun m n h => .skip require ?_
  exact .finish ho (congrArg Production.label h)

theorem emptyStatement_steady : Steady A Node.erased emptyStatement :=
  .begin fun _ _ ho => .finish ho rfl

/-! ## Imports -/

theorem useKind_alike : Alike A Eq useKind useKind := by
  refine .see kind fun k => ?_
  split
  · exact .skip advance (.pure rfl)
  · exact .skip advance (.pure rfl)
  · exact .pure rfl

theorem useItemNamed_alike {o o' : Opened} (ho : o.leading = o'.leading) {m n : Node}
    (h : m.erased = n.erased) (k : UseKind) :
    Alike A (Same Node.erased) (useItemNamed o m k) (useItemNamed o' n k) := by
  refine .bind (after identifier_steady) fun localName localName' hname => ?_
  exact .finish ho (congrArg₂ (Production.useItem · · k) h hname)

theorem useItem_steady (k : UseKind) (mixed : Bool) : Steady A Node.erased (useItem k mixed) := by
  have hrest (o o' : Opened) (ho : o.leading = o'.leading) (k : UseKind) :
      Alike A (Same Node.erased) (Parser.call .name >>= fun n => useItemNamed o n k)
        (Parser.call .name >>= fun n => useItemNamed o' n k) :=
    .bind (node _) fun m n h => useItemNamed_alike ho h k
  refine .openNode fun o o' ho => .ite ?_ (hrest o o' ho k)
  exact .see useKind_alike fun declared => hrest o o' ho _

theorem useStatement_steady : Steady A Node.erased useStatement := by
  refine .begin fun o o' ho => .see useKind_alike fun declared => ?_
  refine .openNode fun first first' hfirst => .bind (node _) fun m n h => ?_
  refine .see isAt fun _ => .see peek fun _ => .ite ?_ ?_
  · refine .bind (abandon hfirst h) fun m n h => .skip requireOption (.skip advance ?_)
    refine .skip advance (.bind (delimited_steady _ _) fun ms ns hs => .skip endStatement ?_)
    refine .finish ho ?_
    simp only [Production.Like, Production.map, Option.map_some, h, hs]
  · refine .bind (useItemNamed_alike hfirst h _) fun item item' hitem => .see eat fun c => ?_
    refine .join (separated_steady _ _) (.pure rfl) fun ms ns hs => .skip endStatement ?_
    exact .finish ho (congrArg (Production.useGroup none _) (cons_same hitem hs))

/-! ## Scopes -/

theorem atNamespace_alike : Alike A Eq atNamespace atNamespace :=
  .see isAt fun _ => .see peek fun _ => .pure rfl

theorem namespaceBody_steady (anonymous : Bool) :
    Steady A (Prod.map (List.map Node.erased) id) (namespaceBody anonymous) := by
  refine .test eat ?_ (.ite (.skip missing (.pure rfl)) ?_)
  · exact .bind (nodes _) fun ms ns hs => .skip require (.pure (congrArg (·, true) hs))
  · exact .skip endStatement (.bind (nodes _) fun ms ns hs => .pure (congrArg (·, false) hs))

theorem nest_alike (f : Nat → Nat) :
    Alike A Eq (Parser.modify fun s => { s with namespaceDepth := f s.namespaceDepth })
      (Parser.modify fun s => { s with namespaceDepth := f s.namespaceDepth }) :=
  fun _ _ hs => .done rfl (hs.nest f)

theorem namespaceDeclaration_steady : Steady A Node.erased namespaceDeclaration := by
  have hnested : Alike A Eq (Parser.read fun s => decide (0 < s.namespaceDepth))
      (Parser.read fun s => decide (0 < s.namespaceDepth)) :=
    read fun _ _ hs => congrArg (fun depth => decide (0 < depth)) hs.namespaceDepth
  refine .openNode fun o o' ho => .see hnested fun nested => .possibly objection ?_
  refine .skip advance (.see isAt fun c => ?_)
  refine .bind (optionally (node _)) fun name name' hname => .skip (nest_alike (· + 1)) ?_
  have hanonymous : name.isNone = name'.isNone := by
    rw [← Option.isNone_map (f := Node.erased), hname, Option.isNone_map]
  rw [hanonymous]
  refine .pair (namespaceBody_steady _) fun ms ns withBraces _ hs hbraces => ?_
  cases hbraces
  refine .skip (nest_alike (· - 1)) (.finish ho ?_)
  exact congrArg₂ (Production.namespace · · withBraces) hname hs

theorem directive_steady : Steady A Node.erased directive := by
  refine .openNode fun o o' ho => .bind identifier_steady fun key key' hkey => .skip require ?_
  refine .bind expression fun value value' hvalue => ?_
  exact .finish ho (congrArg₂ Production.declareDirective hkey hvalue)

theorem declareBody_steady : Steady A (Prod.map (List.map Node.erased) id) declareBody := by
  refine .see kind fun k => ?_
  split
  · refine .skip advance (.bind (nodes _) fun ms ns hs => .skip require (.skip endStatement ?_))
    exact .pure (congrArg (·, _) hs)
  · exact .skip advance (.bind (nodes _) fun ms ns hs => .skip require (.pure (congrArg (·, _) hs)))
  · exact .skip endStatement (.bind (nodes _) fun ms ns hs => .pure (congrArg (·, _) hs))

theorem declareStatement_steady : Steady A Node.erased declareStatement := by
  refine .begin fun o o' ho => .see expect fun c => ?_
  refine .join (delimited_steady _ _) (.pure rfl) fun directives directives' hdirectives => ?_
  refine .pair declareBody_steady fun ms ns mode _ hs hmode => ?_
  cases hmode
  exact .finish ho (congrArg₂ (Production.declare · · mode) hdirectives hs)

theorem halt_alike : Alike A (fun _ _ => True) halt halt :=
  fun _ _ hs => .done trivial hs.halt

theorem haltCompiler_steady (outermost : Bool) : Steady A Node.erased (haltCompiler outermost) := by
  refine .possibly objection (.begin fun o o' ho => .skip require (.skip require (.ite ?_ ?_)))
  · refine .see isAt fun c => .possibly missing ?_
    exact .bind halt_alike fun text text' _ => .finish ho rfl
  · exact .skip endStatement (.finish ho rfl)

/-! ## Statements by their first token -/

theorem statement_steady : Steady A Node.erased statement := by
  refine .see peek fun next => .see kind fun k => ?_
  split
  case h_1 => exact block_steady
  case h_2 => exact node _
  case h_3 => exact switchStatement_steady
  case h_4 => exact forStatement_steady
  case h_5 => exact foreachStatement_steady
  case h_6 => exact whileStatement_steady
  case h_7 => exact doStatement_steady
  case h_8 => exact withOptionalExpression_steady fun _ _ h => congrArg Production.break h
  case h_9 => exact withOptionalExpression_steady fun _ _ h => congrArg Production.continue h
  case h_10 => exact withOptionalExpression_steady fun _ _ h => congrArg Production.return h
  case h_11 => exact withItems_steady _ fun _ _ hs => congrArg Production.global hs
  case h_12 =>
    refine .ite (withItems_steady _ fun _ _ hs => ?_) expressionStatement_steady
    exact congrArg Production.static hs
  case h_13 => exact echoStatement_steady
  case h_14 => exact inlineHtml_steady
  case h_15 => exact unsetStatement_steady
  case h_16 => exact declareStatement_steady
  case h_17 => exact tryStatement_steady
  case h_18 => exact throwStatement_steady
  case h_19 => exact gotoStatement_steady
  case h_20 => exact .ite label_steady expressionStatement_steady
  case h_21 => exact emptyStatement_steady
  case h_22 => exact expressionStatement_steady

theorem innerStatement_steady : Steady A Node.erased innerStatement := by
  refine .see peek fun next => .see kind fun k => ?_
  split
  case h_1 => exact .ite (node _) functionDeclaration_steady
  case h_2 | h_3 | h_4 => exact classDeclaration_steady
  case h_5 => exact interfaceDeclaration_steady
  case h_6 => exact traitDeclaration_steady
  case h_7 => exact haltCompiler_steady false
  case h_8 => exact node _

theorem topStatement_steady : Steady A Node.erased topStatement := by
  refine .test atNamespace_alike namespaceDeclaration_steady (.see kind fun k => ?_)
  split
  case h_1 => exact useStatement_steady
  case h_2 => exact withItems_steady _ fun _ _ hs => congrArg Production.constantStatement hs
  case h_3 => exact haltCompiler_steady true
  case h_4 => exact innerStatement_steady

theorem stopsAt_alike (stop : TokenSet) : Alike A Eq (stopsAt stop) (stopsAt stop) :=
  ofKind (f := stop.contains)

theorem statements_steady (stop : TokenSet) : Steady A (List.map Node.erased) (statements stop) :=
  statementList_steady (stopsAt_alike stop) innerStatement_steady

theorem topStatements_steady (stop : TokenSet) :
    Steady A (List.map Node.erased) (topStatements stop) :=
  statementList_steady (stopsAt_alike stop) topStatement_steady

theorem namespaceStatements_steady : Steady A (List.map Node.erased) namespaceStatements :=
  statementList_steady atNamespace_alike topStatement_steady

end PhpSyntax.Grammar
