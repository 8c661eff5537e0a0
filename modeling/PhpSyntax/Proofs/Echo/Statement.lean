import PhpSyntax.Grammar.Scope
import PhpSyntax.Proofs.Echo.Expression

namespace PhpSyntax.Grammar
open Echoes Echo

variable {E : Echo} [E.Lawful] {A : E.Index → Prop}

/-! ## Conditionals -/

theorem shortElse_echoes : Echoes E A E.One shortElse shortElse := by
  refine .skip advance (.skip require (.openNode fun o => .bind (nodes fun _ => rfl) fun ms ns => ?_))
  exact .finish fun i h => congrArg Production.block h.2

theorem shortBranch_echoes : Echoes E A (Both E.One E.Maybe) shortBranch shortBranch := by
  refine .openNode fun o => .bind (nodes fun _ => rfl) fun ms ns => ?_
  refine .bind (.finish fun i h => congrArg Production.block h.2) fun body body' => ?_
  refine .see kind fun k => ?_
  split
  · exact .bind (node fun _ => rfl) fun m n => .pure fun i h => ⟨h.1.2, congrArg some h.2⟩
  · exact .bind shortElse_echoes fun m n => .pure fun i h => ⟨h.1.2, congrArg some h.2⟩
  · exact .pure fun i h => ⟨h.2, rfl⟩

theorem shortElseIf_echoes : Echoes E A E.One shortElseIf shortElseIf := by
  refine .begin fun o => .bind condition_echoes fun test test' => .skip require ?_
  refine .pair shortBranch_echoes fun body body' alternate alternate' => .finish ?_
  rintro i ⟨⟨_, rfl⟩, rfl, rfl⟩
  rfl

theorem ifStatement_echoes : Echoes E A E.One ifStatement ifStatement := by
  refine .begin fun o => .bind condition_echoes fun test test' => .test eat ?_ ?_
  · refine .pair shortBranch_echoes fun body body' alternate alternate' => ?_
    refine .skip require (.skip endStatement (.finish ?_))
    rintro i ⟨⟨_, rfl⟩, rfl, rfl⟩
    rfl
  · refine .bind (node fun _ => rfl) fun body body' => .see kind fun k => ?_
    have helse : Echoes E (fun i => (A i ∧ E.One i test test') ∧ E.One i body body') E.One
        (Parser.call .statement >>= fun alternate =>
          Parser.finish o (.if test body (some alternate) false))
        (Parser.call .statement >>= fun alternate =>
          Parser.finish (E.opened o) (.if test' body' (some alternate) false)) := by
      refine .bind (node fun _ => rfl) fun m n => .finish ?_
      rintro i ⟨⟨⟨_, rfl⟩, rfl⟩, rfl⟩
      rfl
    split
    · refine .bind (node fun _ => rfl) fun m n => .finish ?_
      rintro i ⟨⟨⟨_, rfl⟩, rfl⟩, rfl⟩
      rfl
    · exact .skip advance helse
    · apply Echoes.finish
      rintro i ⟨⟨_, rfl⟩, rfl⟩
      rfl

/-! ## Choices -/

theorem caseTest_echoes : Echoes E A E.Maybe caseTest caseTest := by
  refine .see kind fun k => ?_
  split
  · exact .skip advance (.bind expression fun m n => .pure fun i h => congrArg some h.2)
  · exact .skip advance (.pure fun _ _ => rfl)
  · exact .bind missing fun m n => .pure fun i h => congrArg some h.2

/-- A case and its image. -/
theorem caseClause_echoes (close : TokenKind) :
    Echoes E A (fun i m n => E.One i m n ∧ m.production.isCase = true) (caseClause close)
      (caseClause close) := by
  refine .openNode fun o => .bind caseTest_echoes fun test test' => .see kind fun k => ?_
  have hrest : Echoes E (fun i => A i ∧ E.Maybe i test test')
      (fun i m n => E.One i m n ∧ m.production.isCase = true)
      (Parser.call (.statements (.ofList [.kwCase, .kwDefault, close])) >>= fun body =>
        Parser.finish o (.case test body))
      (Parser.call (.statements (.ofList [.kwCase, .kwDefault, close])) >>= fun body =>
        Parser.finish (E.opened o) (.case test' body)) := by
    refine .bind (nodes fun _ => rfl) fun ms ns => .finishOf ?_
    rintro i info ⟨⟨_, rfl⟩, rfl⟩
    exact ⟨image_mk E i info _, rfl⟩
  split
  · exact .skip advance hrest
  · exact .skip advance hrest
  · exact .skip missing hrest

theorem cases_echoes (close : TokenKind) :
    Echoes E A ((Rule.cases close).Echoed E) (cases close) (cases close) := by
  refine .see atEnd fun _ => .see isAt fun _ => .ite (.pure fun i _ => ⟨rfl, nofun⟩) ?_
  apply Echoes.bind (caseClause_echoes close)
  intro m n
  apply Echoes.bind (call (r := .cases close) fun _ _ => rfl)
  intro ms ns
  refine .pure fun i h => ⟨congrArg₂ List.cons h.1.2.1 h.2.1, ?_⟩
  exact List.forall_mem_cons.mpr ⟨h.1.2.2, h.2.2⟩

theorem openCases_echoes : Echoes E A Equal openCases openCases := by
  refine .see kind fun k => ?_
  split
  · exact .skip advance (.pure fun _ _ => rfl)
  · exact .skip advance (.pure fun _ _ => rfl)
  · exact .skip missing (.pure fun _ _ => rfl)

def Fills (E : Echo) (i : E.Index) (ms ns : List Node) : Prop :=
  ∀ info, E.trim ⟨info, .block (ms.map (E.image i))⟩ = ⟨info, .block ns⟩

theorem fills_of_isCase {i : E.Index} {ms ns : List Node} (h : E.All i ms ns)
    (hcases : ∀ m ∈ ms, m.production.isCase = true) : Fills E i ms ns := by
  intro info
  rw [← h]
  apply Lawful.trim_of_isCase
  intro n hn
  obtain ⟨m, hm, rfl⟩ := List.mem_map.mp hn
  have hcase := hcases m hm
  obtain ⟨info', p⟩ := m
  rw [image_mk]
  cases p with
  | case => rfl
  | _ => cases hcase

/-- The node that the comments lead is missing in the echo if the comments are. -/
theorem commentsAlone_echoes : Echoes E A (Fills E) commentsAlone commentsAlone := by
  intro w s t hA hs
  have hempty (i : E.Index) : Fills E i [] [] := fills_of_isCase rfl nofun
  let made : Parser (List Node) := Parser.openNode >>= fun o =>
    Parser.finish o .noop >>= fun n => pure [n]
  have hcond (u : ParseState) :
      commentsAlone u = if u.hasUnread = true then made u else .done [] u := by
    by_cases hu : u.hasUnread = true
    · rw [if_pos hu]
      exact congrFun (if_pos hu) u
    · rw [if_neg hu]
      exact congrFun (if_neg hu) u
  rw [hcond s, hcond t]
  rcases Lawful.alone hs with ⟨hu, hv⟩ | ⟨hu, hv, htrim⟩ | ⟨hu, hv, x, hw, hstate, hlast⟩
  · rw [hu, hv]
    exact .done le_rfl (fun i _ => hempty i) hs
  · rw [hu, hv]
    have hmade : Echoes E A (Fills E) made made := by
      refine .openNode fun o => .bind (.finish fun _ _ => rfl) fun m n => .pure fun i h info => ?_
      rw [htrim, List.map_singleton, h.2]
    exact hmade w s t hA hs
  · rw [hu, hv]
    exact .done hw (fun i hi info => hlast i hi info) hstate

theorem caseList_echoes : Echoes E A E.Body caseList caseList := by
  refine .openNode fun o => .see openCases_echoes fun close => .skip eat ?_
  refine .bind (call (r := .cases close) fun _ _ => rfl) fun children children' => ?_
  refine .given (P := children'.isEmpty = children.isEmpty) (fun i h => ?_) fun hempty => ?_
  · have hall : children.map (E.image i) = children' := h.2.1
    rw [← hall, List.isEmpty_map]
  · rw [hempty]
    refine .join commentsAlone_echoes (.pure fun i h => fills_of_isCase h.2.1 h.2.2) fun ms ns => ?_
    refine .skip require (.possibly endStatement (.finishOf fun i info h => ?_))
    rw [Body, image_mk]
    exact h.2 (E.info i info)

theorem switchStatement_echoes : Echoes E A E.One switchStatement switchStatement := by
  refine .begin fun o => .bind condition_echoes fun test test' => ?_
  refine .see isAt fun shortform => .bind caseList_echoes fun body body' => .finish fun i h => ?_
  exact congrArg₂ (Production.switch · · shortform) h.1.2 h.2

/-! ## Handlers -/

theorem handler_echoes : Echoes E A E.One handler handler := by
  refine .begin fun o => .skip require (.bind (separated_echoes rfl) fun types types' => ?_)
  refine .bind (node fun _ => rfl) fun var var' => .skip require ?_
  refine .bind block_echoes fun body body' => .finish ?_
  rintro i ⟨⟨⟨_, rfl⟩, rfl⟩, rfl⟩
  rfl

theorem handlers_echoes : Echoes E A E.All handlers handlers := by
  refine .test isAt (.bind handler_echoes fun m n => ?_) (.pure fun _ _ => rfl)
  refine .bind (nodes fun _ => rfl) fun ms ns => .pure fun i h => ?_
  exact congrArg₂ List.cons h.1.2 h.2

theorem tryStatement_echoes : Echoes E A E.One tryStatement tryStatement := by
  refine .begin fun o => .bind block_echoes fun body body' => ?_
  refine .bind (nodes fun _ => rfl) fun ms ns => .bind (after block_echoes) fun last last' => ?_
  apply Echoes.finish
  rintro i ⟨⟨⟨_, rfl⟩, rfl⟩, rfl⟩
  rfl

/-! ## Loops -/

/-- Anchors are counted from the boundary. -/
theorem anchorBehind_echoes (width : Nat) :
    Echoes E A Equal (anchorBehind width) (anchorBehind width) :=
  read fun _ _ _ _ hs _ => congrArg (Position.back · width) (Lawful.prev hs).symm

theorem anchored_echoes (k : TokenKind) (width : Nat) :
    Echoes E A Equal (anchored k width) (anchored k width) := by
  refine .see expect fun c => .ite ?_ (.pure fun _ _ => rfl)
  exact .see (anchorBehind_echoes width) fun p => .pure fun _ _ => rfl

theorem loopBody_echoes (close : TokenKind) :
    Echoes E A (Both E.One Equal) (loopBody close) (loopBody close) := by
  refine .test isAt ?_ ?_
  · exact .bind (shortBlock_echoes close) fun m n => .pure fun i h => ⟨h.2, rfl⟩
  · exact .bind (node fun _ => rfl) fun m n => .pure fun i h => ⟨h.2, rfl⟩

theorem whileStatement_echoes : Echoes E A E.One whileStatement whileStatement := by
  refine .begin fun o => .bind condition_echoes fun test test' => ?_
  refine .pair (loopBody_echoes _) fun body body' shortform shortform' => .finish ?_
  rintro i ⟨⟨_, rfl⟩, rfl, rfl⟩
  rfl

theorem doStatement_echoes : Echoes E A E.One doStatement doStatement := by
  refine .begin fun o => .bind (node fun _ => rfl) fun body body' => .test eat ?_ ?_
  · refine .bind condition_echoes fun test test' => .skip endStatement (.finish fun i h => ?_)
    exact congrArg₂ Production.do h.2 h.1.2
  · refine .bind missing fun test test' => .finish fun i h => ?_
    exact congrArg₂ Production.do h.2 h.1.2

theorem forPart_echoes (close : TokenKind) :
    Echoes E A (Both E.All Equal) (forPart close) (forPart close) := by
  have hnone : Echoes E A E.All (pure [] : Parser (List Node)) (pure []) := .pure fun _ _ => rfl
  refine .see isAt fun c => .join hnone (separated_echoes rfl) fun ms ns => ?_
  exact .see (anchored_echoes close 1) fun p => .pure fun i h => ⟨h.2, rfl⟩

/-- A loop is given its anchors when it is finished. -/
theorem finishAnchored_echoes {o : Opened} {p q : Production Node}
    {anchors anchors' : List (Anchor × Option Position)}
    (h : ∀ i, A i → E.Makes i p q ∧ anchors = anchors') :
    Echoes E A E.One (Parser.finish o p >>= fun n => pure (withAnchors n anchors))
      (Parser.finish (E.opened o) q >>= fun n => pure (withAnchors n anchors')) := by
  refine .bind (.finish fun i hi => (h i hi).1) fun m n => .pure fun i hi => ?_
  show E.image i (withAnchors m anchors) = withAnchors n anchors'
  have hn : E.image i m = n := hi.2
  rw [image_withAnchors, hn, (h i hi.1).2]

theorem forStatement_echoes : Echoes E A E.One forStatement forStatement := by
  refine .begin fun o => .see (anchored_echoes _ _) fun leftParen => ?_
  refine .pair (forPart_echoes _) fun init init' first first' => ?_
  refine .pair (forPart_echoes _) fun test test' second second' => ?_
  refine .pair (forPart_echoes _) fun increment increment' rightParen rightParen' => ?_
  refine .pair (loopBody_echoes _) fun body body' shortform shortform' => finishAnchored_echoes ?_
  rintro i ⟨⟨⟨⟨_, rfl, rfl⟩, rfl, rfl⟩, rfl, rfl⟩, rfl, rfl⟩
  exact ⟨rfl, rfl⟩

theorem loopVariable_echoes : Echoes E A E.One loopVariable loopVariable := by
  refine .see kind fun k => ?_
  split
  · exact listPattern_echoes
  · exact listPattern_echoes
  · exact node fun _ => rfl

structure LoopVariables.Echoed (E : Echo) (i : E.Index) (vs ws : LoopVariables) : Prop where
  key : E.Maybe i vs.key ws.key
  value : E.One i vs.value ws.value
  asAnchor : vs.asAnchor = ws.asAnchor
  arrowAnchor : vs.arrowAnchor = ws.arrowAnchor

theorem loopVariables_echoes :
    Echoes E A (LoopVariables.Echoed E) loopVariables loopVariables := by
  refine .test eat ?_ ?_
  · refine .see (anchorBehind_echoes 2) fun asAnchor => ?_
    refine .bind loopVariable_echoes fun first first' => .test eat ?_ ?_
    · refine .see (anchorBehind_echoes 2) fun arrowAnchor => ?_
      refine .bind loopVariable_echoes fun value value' => .pure fun i h => ?_
      exact ⟨congrArg some h.1.2, h.2, rfl, rfl⟩
    · exact .pure fun i h => ⟨rfl, h.2, rfl, rfl⟩
  · exact .bind missing fun m n => .pure fun i h => ⟨rfl, h.2, rfl, rfl⟩

theorem foreachStatement_echoes : Echoes E A E.One foreachStatement foreachStatement := by
  refine .begin fun o => .see (anchored_echoes _ _) fun leftParen => ?_
  refine .bind expression fun source source' => .bind loopVariables_echoes fun vs ws => ?_
  refine .given (P := ws.key.any isList = vs.key.any isList) (fun i h => ?_) fun hlist => ?_
  · have hkey : vs.key.map (E.image i) = ws.key := h.2.key
    rw [← hkey, any_isList_image]
  · rw [hlist]
    refine .ite fatal (.see (anchored_echoes _ _) fun rightParen => ?_)
    refine .pair (loopBody_echoes _) fun body body' shortform shortform' => finishAnchored_echoes ?_
    rintro i ⟨⟨⟨_, rfl⟩, hkey, hvalue, has, harrow⟩, rfl, rfl⟩
    rw [← hkey, ← hvalue, has, harrow]
    exact ⟨rfl, rfl⟩

/-! ## Other statements -/

theorem expressionStatement_echoes :
    Echoes E A E.One expressionStatement expressionStatement := by
  refine .openNode fun o => .bind expression fun m n => .skip endStatement ?_
  exact .finish fun i h => congrArg Production.expressionStatement h.2

theorem withOptionalExpression_echoes {p : Option Node → Production Node}
    (hp : ∀ i n, E.Makes i (p n) (p (n.map (E.image i)))) :
    Echoes E A E.One (withOptionalExpression p) (withOptionalExpression p) := by
  refine .begin fun o => .see isIn fun c => .bind (optionally expression) fun m n => ?_
  apply Echoes.skip endStatement
  apply Echoes.finish
  rintro i ⟨_, rfl⟩
  exact hp i m

theorem withItems_echoes {item : Rule .node} (h : item.isPlain = true)
    {p : List Node → Production Node} (hp : ∀ i ns, E.Makes i (p ns) (p (ns.map (E.image i)))) :
    Echoes E A E.One (withItems item p) (withItems item p) := by
  refine .begin fun o => .bind (separated_echoes h) fun ms ns => .skip endStatement ?_
  apply Echoes.finish
  rintro i ⟨_, rfl⟩
  exact hp i ms

theorem staticVariable_echoes : Echoes E A E.One staticVariable staticVariable := by
  refine .openNode fun o => .bind (node fun _ => rfl) fun m n => ?_
  refine .bind initialValue_echoes fun value value' => ?_
  exact .finish fun i h => congrArg₂ Production.staticVariable h.1.2 h.2

theorem echoStatement_echoes : Echoes E A E.One echoStatement echoStatement :=
  .see text fun _ => withItems_echoes rfl fun _ _ => rfl

theorem inlineHtml_echoes : Echoes E A E.One inlineHtml inlineHtml :=
  .openNode fun _ => .see text fun _ => .skip advance (.finish fun _ _ => rfl)

theorem unsetStatement_echoes : Echoes E A E.One unsetStatement unsetStatement := by
  refine .begin fun o => .see expect fun c => ?_
  refine .join (delimited_echoes rfl) (.pure fun _ _ => rfl) fun ms ns => .skip endStatement ?_
  exact .finish fun i h => congrArg Production.unset h.2

theorem throwStatement_echoes : Echoes E A E.One throwStatement throwStatement := by
  refine .begin fun o => .bind expression fun m n => .skip endStatement ?_
  exact .finish fun i h => congrArg Production.throw h.2

theorem gotoStatement_echoes : Echoes E A E.One gotoStatement gotoStatement := by
  refine .begin fun o => .bind identifier_echoes fun m n => .skip endStatement ?_
  exact .finish fun i h => congrArg Production.goto h.2

theorem label_echoes : Echoes E A E.One label label := by
  refine .openNode fun o => .bind identifier_echoes fun m n => .skip require ?_
  exact .finish fun i h => congrArg Production.label h.2

theorem emptyStatement_echoes : Echoes E A E.One emptyStatement emptyStatement :=
  .begin fun _ => .finish fun _ _ => rfl

/-! ## Imports -/

theorem useKind_echoes : Echoes E A Equal useKind useKind := by
  refine .see kind fun k => ?_
  split
  · exact .skip advance (.pure fun _ _ => rfl)
  · exact .skip advance (.pure fun _ _ => rfl)
  · exact .pure fun _ _ => rfl

theorem useItemNamed_echoes {o : Opened} {m n : Node} (h : ∀ i, A i → E.image i m = n)
    (k : UseKind) :
    Echoes E A E.One (useItemNamed o m k) (useItemNamed (E.opened o) n k) := by
  refine .bind (after identifier_echoes) fun localName localName' => .finish fun i hi => ?_
  exact congrArg₂ (Production.useItem · · k) (h i hi.1) hi.2

theorem useItem_echoes (k : UseKind) (mixed : Bool) :
    Echoes E A E.One (useItem k mixed) (useItem k mixed) := by
  have hrest (o : Opened) (k : UseKind) :
      Echoes E A E.One (Parser.call .name >>= fun n => useItemNamed o n k)
        (Parser.call .name >>= fun n => useItemNamed (E.opened o) n k) :=
    .bind (node fun _ => rfl) fun m n => useItemNamed_echoes (fun i h => h.2) k
  refine .openNode fun o => .ite ?_ (hrest o k)
  exact .see useKind_echoes fun declared => hrest o _

theorem useStatement_echoes : Echoes E A E.One useStatement useStatement := by
  refine .begin fun o => .see useKind_echoes fun declared => .openNode fun first => ?_
  refine .bind (node fun _ => rfl) fun m n =>
    .testAhead (fun next next' h => decide_eq_decide.mpr (h _ (by decide))) ?_ ?_
  · refine .bind (.abandon fun i h => h.2) fun m n => .skip requirePhp7 (.skip advance ?_)
    refine .skip advance (.bind (delimited_echoes rfl) fun ms ns => .skip endStatement ?_)
    apply Echoes.finish
    rintro i ⟨⟨_, rfl⟩, rfl⟩
    rfl
  · refine .bind (useItemNamed_echoes (fun i h => h.2) _) fun item item' => .see eat fun c => ?_
    refine .join (separated_echoes rfl) (.pure fun _ _ => rfl) fun ms ns => .skip endStatement ?_
    apply Echoes.finish
    rintro i ⟨⟨_, rfl⟩, rfl⟩
    rfl

/-! ## Scopes -/

theorem atNamespace_echoes : Echoes E A Equal atNamespace atNamespace :=
  ahead (φ := fun next => decide (next ≠ .nsSeparator)) (f := pure) (g := pure)
    (fun next next' h => decide_eq_decide.mpr (not_congr (h _ (by decide)))) fun _ =>
    .pure fun _ _ => rfl

theorem namespaceBody_echoes (anonymous : Bool) :
    Echoes E A (Both E.All Equal) (namespaceBody anonymous) (namespaceBody anonymous) := by
  refine .test eat ?_ (.ite (.skip missing (.pure fun _ _ => ⟨rfl, rfl⟩)) ?_)
  · refine .bind (nodes fun _ => rfl) fun ms ns => .skip require (.pure fun i h => ?_)
    exact ⟨h.2, rfl⟩
  · apply Echoes.skip endStatement
    exact .bind (nodes fun _ => rfl) fun ms ns => .pure fun i h => ⟨h.2, rfl⟩

theorem nest_echoes (f : Nat → Nat) :
    Echoes E A Equal (Parser.modify fun s => { s with namespaceDepth := f s.namespaceDepth })
      (Parser.modify fun s => { s with namespaceDepth := f s.namespaceDepth }) :=
  fun _ _ _ _ hs => .done le_rfl (fun _ _ => rfl) (Lawful.nest hs f)

theorem namespaceDeclaration_echoes :
    Echoes E A E.One namespaceDeclaration namespaceDeclaration := by
  have hnested : Echoes E A Equal (Parser.read fun s => decide (0 < s.namespaceDepth))
      (Parser.read fun s => decide (0 < s.namespaceDepth)) :=
    read fun _ _ _ _ hs _ =>
      congrArg (fun depth => decide (0 < depth)) (Lawful.namespaceDepth hs).symm
  refine .openNode fun o => .see hnested fun nested => .possibly objection ?_
  refine .skip advance (.see isAt fun c => ?_)
  refine .bind (optionally (node fun _ => rfl)) fun name name' => .skip (nest_echoes (· + 1)) ?_
  refine .given (P := name'.isNone = name.isNone) (fun i h => ?_) fun hanonymous => ?_
  · have hname : name.map (E.image i) = name' := h.2
    rw [← hname, Option.isNone_map]
  · rw [hanonymous]
    refine .pair (namespaceBody_echoes _) fun ms ns withBraces withBraces' => ?_
    apply Echoes.skip (nest_echoes (· - 1))
    apply Echoes.finish
    rintro i ⟨⟨_, rfl⟩, rfl, rfl⟩
    rfl

theorem directive_echoes : Echoes E A E.One directive directive := by
  refine .openNode fun o => .bind identifier_echoes fun key key' => .skip require ?_
  refine .bind expression fun value value' => .finish fun i h => ?_
  exact congrArg₂ Production.declareDirective h.1.2 h.2

theorem declareBody_echoes : Echoes E A (Both E.All Equal) declareBody declareBody := by
  refine .see kind fun k => ?_
  split
  · refine .skip advance (.bind (nodes fun _ => rfl) fun ms ns => .skip require ?_)
    exact .skip endStatement (.pure fun i h => ⟨h.2, rfl⟩)
  · refine .skip advance (.bind (nodes fun _ => rfl) fun ms ns => .skip require ?_)
    exact .pure fun i h => ⟨h.2, rfl⟩
  · apply Echoes.skip endStatement
    exact .bind (nodes fun _ => rfl) fun ms ns => .pure fun i h => ⟨h.2, rfl⟩

theorem declareStatement_echoes : Echoes E A E.One declareStatement declareStatement := by
  refine .begin fun o => .see expect fun c => ?_
  refine .join (delimited_echoes rfl) (.pure fun _ _ => rfl) fun directives directives' => ?_
  refine .pair declareBody_echoes fun ms ns mode mode' => .finish ?_
  rintro i ⟨⟨_, rfl⟩, rfl, rfl⟩
  rfl

/-- The text behind the end of the code, where a semicolon is its last token. -/
theorem halt_echoes {w : E.Index} {s t : ParseState} (hs : E.States w s t)
    (hk : s.kind = .semicolon ∨ E.tail "" = "") :
    (halt s).Echoes E (fun _ text text' => E.tail text = text') w (halt t) :=
  .done le_rfl (fun _ _ => (Lawful.halt hs hk).1.symm) (Lawful.halt hs hk).2

/-- Only a parse that goes on behind errors finds the end of the code elsewhere. -/
theorem haltCompiler_echoes (outermost : Bool) :
    Echoes E A E.One (haltCompiler outermost) (haltCompiler outermost) := by
  cases outermost with
  | true =>
    refine .begin fun o => .skip require (.skip require (.behind fun w s t _ hs hk => ?_))
    have hfinish (text text' : String) : Echoes E (fun _ => E.tail text = text') E.One
        (Parser.finish o (.haltCompiler text)) (Parser.finish (E.opened o) (.haltCompiler text')) :=
      .finish fun i h => congrArg Production.haltCompiler h
    exact (halt_echoes hs hk).bind fun x text text' u u' _ htext hu =>
      hfinish text text' x u u' htext hu
  | false =>
    refine .bind objection fun m n => .begin fun o => .skip require (.skip require ?_)
    exact .skip endStatement (.finish fun i h => congrArg Production.haltCompiler h.2.2)

/-! ## Statements by their first token -/

theorem startsStaticList_of_blurs {next next' : TokenKind}
    (h : TokenKind.Blurs .kwStatic next next') : startsStaticList next' = startsStaticList next := by
  rw [startsStaticList, startsStaticList, decide_eq_decide.mpr (h .doubleColon (by decide)),
    decide_eq_decide.mpr (h .kwFunction (by decide)), decide_eq_decide.mpr (h .kwFn (by decide))]

theorem statement_echoes : Echoes E A E.One statement statement := by
  refine .glance fun k next next' hnext => ?_
  split
  case h_1 => exact block_echoes
  case h_2 => exact node fun _ => rfl
  case h_3 => exact switchStatement_echoes
  case h_4 => exact forStatement_echoes
  case h_5 => exact foreachStatement_echoes
  case h_6 => exact whileStatement_echoes
  case h_7 => exact doStatement_echoes
  case h_8 | h_9 | h_10 => exact withOptionalExpression_echoes fun _ _ => rfl
  case h_11 => exact withItems_echoes rfl fun _ _ => rfl
  case h_12 =>
    rw [startsStaticList_of_blurs hnext]
    exact .ite (withItems_echoes rfl fun _ _ => rfl) expressionStatement_echoes
  case h_13 => exact echoStatement_echoes
  case h_14 => exact inlineHtml_echoes
  case h_15 => exact unsetStatement_echoes
  case h_16 => exact declareStatement_echoes
  case h_17 => exact tryStatement_echoes
  case h_18 => exact throwStatement_echoes
  case h_19 => exact gotoStatement_echoes
  case h_20 =>
    simp only [hnext .colon (by decide)]
    exact .ite label_echoes expressionStatement_echoes
  case h_21 => exact emptyStatement_echoes
  case h_22 => exact expressionStatement_echoes

theorem innerStatement_echoes : Echoes E A E.One innerStatement innerStatement := by
  refine .glance fun k next next' hnext => ?_
  split
  case h_1 =>
    simp only [hnext .lParen (by decide)]
    exact .ite (node fun _ => rfl) functionDeclaration_echoes
  case h_2 | h_3 | h_4 => exact classDeclaration_echoes
  case h_5 => exact interfaceDeclaration_echoes
  case h_6 => exact traitDeclaration_echoes
  case h_7 => exact haltCompiler_echoes false
  case h_8 => exact node fun _ => rfl

theorem topStatement_echoes : Echoes E A E.One topStatement topStatement := by
  refine .test atNamespace_echoes namespaceDeclaration_echoes (.see kind fun k => ?_)
  split
  case h_1 => exact useStatement_echoes
  case h_2 => exact withItems_echoes rfl fun _ _ => rfl
  case h_3 => exact haltCompiler_echoes true
  case h_4 => exact innerStatement_echoes

theorem stopsAt_echoes (stop : TokenSet) : Echoes E A Equal (stopsAt stop) (stopsAt stop) :=
  ofKind (f := stop.contains)

theorem statements_echoes (stop : TokenSet) :
    Echoes E A E.All (statements stop) (statements stop) :=
  statementList_echoes (fun _ => rfl) (stopsAt_echoes stop) innerStatement_echoes

theorem topStatements_echoes (stop : TokenSet) :
    Echoes E A E.All (topStatements stop) (topStatements stop) :=
  statementList_echoes (fun _ => rfl) (stopsAt_echoes stop) topStatement_echoes

theorem namespaceStatements_echoes :
    Echoes E A E.All namespaceStatements namespaceStatements :=
  statementList_echoes (fun _ => rfl) atNamespace_echoes topStatement_echoes

end PhpSyntax.Grammar
