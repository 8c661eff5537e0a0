/-
Statements that end at a fork.

Where one text goes on with a closing brace and the other with a keyword that ends a loop, no
statement in front of it takes notice, unless its last token is not its own: a declare
statement without a body takes the statements behind it, up to a closing brace but not up to
the keyword.  `Over G` says that a statement is no such statement and that `G` holds of the
statements in it that end where it ends.
-/
import PhpSyntax.Proofs.Fork.Parts
import PhpSyntax.Proofs.Grammar.ClassLike
import PhpSyntax.Proofs.Typing.Declare

namespace PhpSyntax

def loopEnds : List TokenKind := [.kwEndWhile, .kwEndFor, .kwEndForeach]

/-- One text goes on with a closing brace, the other with the end of the short form of a loop,
at the same place. -/
structure Fork.Shuts (F : Fork) : Prop where
  first : F.first.kind = .rBrace
  second : F.second.kind ∈ loopEnds
  start : F.second.start = F.first.start

/-- The statements that end where a statement ends, because it has no mark of its own there. -/
def Production.lasts {α : Type} : Production α → List α
  | .if _ body alternate false => [alternate.getD body]
  | .while _ body false | .for _ _ _ body false | .foreach _ _ _ body false => [body]
  | _ => []

/-- Neither a declare statement without a body, nor one that ends with others than those of
which `G` holds. -/
structure Over (G : Node → Prop) (n : Node) : Prop where
  own : n.production.isBodyless = false
  lasts : ∀ c ∈ n.production.lasts, G c

variable {F : Fork} {G : Node → Prop}

namespace Fork.Shuts

theorem first_ne (h : F.Shuts) {k : TokenKind} (hk : k ≠ .rBrace) : F.first.kind ≠ k :=
  fun he => hk (he.symm.trans h.first)

theorem second_eq (h : F.Shuts) :
    F.second.kind = .kwEndWhile ∨ F.second.kind = .kwEndFor ∨ F.second.kind = .kwEndForeach := by
  have hmem := h.second
  simpa [loopEnds] using hmem

theorem second_ne (h : F.Shuts) {k : TokenKind} (hk : k ∉ loopEnds) : F.second.kind ≠ k :=
  fun he => hk (he ▸ h.second)

end Fork.Shuts

namespace Grammar

/-! ## What stands in front of the last token -/

theorem identifier_follows : Follows F F.image identifier identifier :=
  .of_echoes (fun _ hs => ⟨_, _, identifier_sat (Stage.start hs)⟩) identifier_echoes

theorem separated_follows {mark : TokenKind} (hmark : mark.IsSolid) {item : Rule .node}
    (hitem : item.isPlain = true) :
    Follows F (List.map F.image) (separated mark item) (separated mark item) :=
  .of_echoes (fun _ hs => ⟨_, _, separated_sat ⟨hmark, hitem⟩ (Stage.start hs) item.rank_lt⟩)
    (separated_echoes hitem)

theorem delimited_follows {close : TokenKind} (hclose : close.IsSolid) {item : Rule .node}
    (hitem : item.isPlain = true) :
    Follows F (List.map F.image) (delimited close item) (delimited close item) :=
  .of_echoes (fun _ hs => ⟨_, _, delimited_sat ⟨hclose, hitem⟩ (Stage.start hs) item.rank_lt⟩)
    (delimited_echoes hitem)

theorem optionally_follows (c : Bool) :
    Follows F (Option.map F.image) (Parser.optionally c Parser.expression)
      (Parser.optionally c Parser.expression) := by
  refine .of_echoes (fun _ hs => ?_) (.optionally .expression)
  have hstage := Stage.start hs
  exact ⟨_, _, Sat.optionally hstage fun _ => .forget (.expression hstage (by decide))⟩

theorem condition_follows : Follows F F.image condition condition :=
  .of_echoes (fun _ hs => ⟨_, _, condition_sat (Stage.start hs) (by decide)⟩) condition_echoes

theorem block_follows : Follows F F.image block block :=
  .of_echoes (fun _ hs => ⟨_, _, block_sat (Stage.start hs)⟩) block_echoes

/-! ## Blocks -/

theorem block_closes : Closes F G F.image block block := by
  refine .isAt (.begin fun o => .before (.statements _) fun ns => .require rfl) ?_
  exact .never fun hs => Parser.not_yields_missing hs

/-- A statement that ends with a mark of its own. -/
theorem endStatement_closes (hF : F.Shuts) {o : Opened} {p q : Production Node}
    (h : F.Makes p q) :
    Closes F G F.image (Parser.endStatement >>= fun _ => Parser.finish o p)
      (Parser.endStatement >>= fun _ => Parser.finish o q) := by
  have hmark : ¬(F.first.kind = .inlineHtml ∨ F.first.kind = .eof) :=
    not_or.mpr ⟨hF.first_ne (by decide), hF.first_ne (by decide)⟩
  exact .finish (P := fun _ => p) (Q := fun _ => q) (K := fun _ => True)
    (takes_endStatement.closes hmark) (fun _ _ _ => trivial) fun _ => h

theorem shortBlock_closes (hF : F.Shuts) (close : TokenKind) :
    Closes F G F.image (shortBlock close) (shortBlock close) := by
  refine .openNode fun o => .skip (takes_require .colon).follows
    (.before (.statements _) fun ns => ?_)
  exact .skip (takes_require close).follows (endStatement_closes hF rfl)

/-! ## Loops -/

theorem anchored_follows {k : TokenKind} (hk : k ≠ .eof) (width : Nat) :
    Follows F id (anchored k width) (anchored k width) :=
  .of_echoes (fun _ hs => ⟨_, _, anchored_sat (Stage.start hs) hk⟩) (anchored_echoes k width)

theorem forPart_follows {close : TokenKind} (hclose : close ≠ .eof) :
    Follows F (Prod.map (List.map F.image) id) (forPart close) (forPart close) := by
  refine .of_echoes (fun _ hs => ⟨_, _, forPart_sat hclose (Stage.start hs) (by decide)⟩) ?_
  exact (forPart_echoes close).mono fun _ _ _ _ h => Prod.ext h.1 h.2

def LoopVariables.image (F : Fork) (vs : LoopVariables) : LoopVariables :=
  { vs with key := vs.key.map F.image, value := F.image vs.value }

theorem loopVariables_follows :
    Follows F (LoopVariables.image F) loopVariables loopVariables := by
  refine .of_echoes (fun _ hs => ⟨_, _, loopVariables_sat (Stage.start hs) (by decide)⟩) ?_
  refine loopVariables_echoes.mono fun _ vs ws _ h => ?_
  obtain ⟨key, value, asAnchor, arrowAnchor⟩ := ws
  obtain ⟨rfl, rfl, rfl, rfl⟩ := h
  rfl

/-- A body in the short form ends with a mark of its own. -/
theorem loopBody_closes (hF : F.Shuts)
    (hstatement : Closes F G F.image (Parser.call .statement) (Parser.call .statement))
    (close : TokenKind) :
    Closes F (fun v : Node × Bool => v.2 = false → G v.1) (Prod.map F.image id) (loopBody close)
      (loopBody close) := by
  refine .isAt ?_ ?_
  · exact .pure (K := fun _ => True) (shortBlock_closes hF close) (fun _ _ => trivial) fun _ => rfl
  · exact .pure hstatement (fun _ h => h rfl) fun _ => rfl

/-- A loop is given its anchors behind the part that closes. -/
theorem finishAnchored_closes {β : Type} {ψ : β → β} {K : β → Prop} {p q : Parser β}
    {o : Opened} {P Q : β → Production Node} {anchors : List (Anchor × Option Position)}
    (hc : Closes F K ψ p q) (hG : ∀ info b, G ⟨info, P b⟩ → K b)
    (h : ∀ b, F.Makes (P b) (Q (ψ b))) :
    Closes F G F.image
      (p >>= fun b => Parser.finish o (P b) >>= fun n => pure (withAnchors n anchors))
      (q >>= fun b => Parser.finish o (Q b) >>= fun n => pure (withAnchors n anchors)) := by
  have hstill (b : β) : Parser.Still
      (Parser.finish o (P b) >>= fun n => pure (withAnchors n anchors)) :=
    Parser.Still.bind Parser.still_finish fun _ => Parser.still_pure
  refine .settle hc hstill ?_ fun b => ?_
  · intro m u b n hy hn
    obtain ⟨_, _, hfinish, hpure⟩ := Parser.yields_bind.mp hy
    obtain ⟨rfl, _⟩ := Parser.yields_finish.mp hfinish
    obtain ⟨rfl, _⟩ := Parser.yields_pure.mp hpure
    exact hG _ b hn
  · refine (Rests.bind (.finish (h b)) (.finish (h b)) (G := fun _ => True) ?_ fun n => ?_).settles
    · exact fun _ _ _ => trivial
    · have hanchors : F.image (withAnchors n anchors) = withAnchors (F.image n) anchors :=
        Echo.image_withAnchors n anchors
      rw [← hanchors]
      exact .pure

theorem whileStatement_closes (hF : F.Shuts)
    (hstatement : Closes F G F.image (Parser.call .statement) (Parser.call .statement)) :
    Closes F (Over G) F.image whileStatement whileStatement := by
  refine .begin fun o => .before condition_follows fun test => ?_
  refine .finish (P := fun v => .while test v.1 v.2) (Q := fun v => .while (F.image test) v.1 v.2)
    (loopBody_closes hF hstatement _) ?_ ?_
  · rintro info ⟨body, shortform⟩ hn rfl
    exact hn.lasts body (List.mem_singleton_self _)
  · exact fun _ => rfl

theorem forStatement_closes (hF : F.Shuts)
    (hstatement : Closes F G F.image (Parser.call .statement) (Parser.call .statement)) :
    Closes F (Over G) F.image forStatement forStatement := by
  refine .begin fun o => .before (anchored_follows (by decide) _) fun leftParen => ?_
  refine .before (forPart_follows (by decide)) fun (init, first) => ?_
  refine .before (forPart_follows (by decide)) fun (test, second) => ?_
  refine .before (forPart_follows (by decide)) fun (increment, rightParen) => ?_
  refine finishAnchored_closes (P := fun v => .for init test increment v.1 v.2)
    (loopBody_closes hF hstatement _) ?_ ?_
  · rintro info ⟨body, shortform⟩ hn rfl
    exact hn.lasts body (List.mem_singleton_self _)
  · exact fun _ => rfl

theorem foreachStatement_closes (hF : F.Shuts)
    (hstatement : Closes F G F.image (Parser.call .statement) (Parser.call .statement)) :
    Closes F (Over G) F.image foreachStatement foreachStatement := by
  refine .begin fun o => .before (anchored_follows (by decide) _) fun leftParen => ?_
  refine .before .expression fun source => .before loopVariables_follows fun vs => ?_
  have hlist : (vs.image F).key.any isList = vs.key.any isList := Echo.any_isList_image vs.key
  rw [hlist]
  refine .ite (.never fun _ hy => ?_) (.before (anchored_follows (by decide) _) fun rightParen => ?_)
  · obtain ⟨_, hfatal⟩ := hy
    cases hfatal
  · refine finishAnchored_closes (P := fun v => .foreach source vs.key vs.value v.1 v.2)
      (loopBody_closes hF hstatement _) ?_ ?_
    · rintro info ⟨body, shortform⟩ hn rfl
      exact hn.lasts body (List.mem_singleton_self _)
    · exact fun _ => rfl

theorem doStatement_closes (hF : F.Shuts) : Closes F G F.image doStatement doStatement := by
  refine .begin fun o => .before .statement fun body => .eat (by decide) ?_ .missing
  exact .before condition_follows fun test => endStatement_closes hF rfl

/-! ## Statements with a mark at their end -/

theorem expressionStatement_closes (hF : F.Shuts) :
    Closes F G F.image expressionStatement expressionStatement :=
  .openNode fun _ => .before .expression fun _ => endStatement_closes hF rfl

theorem withOptionalExpression_closes (hF : F.Shuts) {p : Option Node → Production Node}
    (hp : ∀ n, F.Makes (p n) (p (n.map F.image))) :
    Closes F G F.image (withOptionalExpression p) (withOptionalExpression p) := by
  refine .begin fun o => .before (.ofKind (f := Category.statementEnd.set.contains)) fun c => ?_
  exact .before (optionally_follows _) fun n => endStatement_closes hF (hp n)

theorem withItems_closes (hF : F.Shuts) {item : Rule .node} (hitem : item.isPlain = true)
    {p : List Node → Production Node} (hp : ∀ ns, F.Makes (p ns) (p (ns.map F.image))) :
    Closes F G F.image (withItems item p) (withItems item p) := by
  refine .begin fun o => .before (separated_follows (by decide) hitem) fun ns => ?_
  exact endStatement_closes hF (hp ns)

theorem echoStatement_closes (hF : F.Shuts) : Closes F G F.image echoStatement echoStatement :=
  .before .text fun _ => withItems_closes hF rfl fun _ => rfl

theorem inlineHtml_closes : Closes F G F.image inlineHtml inlineHtml :=
  .openNode fun _ => .before .text fun _ => .advance rfl

theorem unsetStatement_closes (hF : F.Shuts) :
    Closes F G F.image unsetStatement unsetStatement := by
  refine .begin fun o => .before (.expect (by decide)) fun c => .ite ?_ (endStatement_closes hF rfl)
  exact .before (delimited_follows (by decide) rfl) fun ns => endStatement_closes hF rfl

theorem throwStatement_closes (hF : F.Shuts) :
    Closes F G F.image throwStatement throwStatement :=
  .begin fun _ => .before .expression fun _ => endStatement_closes hF rfl

theorem gotoStatement_closes (hF : F.Shuts) : Closes F G F.image gotoStatement gotoStatement :=
  .begin fun _ => .before identifier_follows fun _ => endStatement_closes hF rfl

theorem label_closes : Closes F G F.image label label :=
  .openNode fun _ => .before identifier_follows fun _ => .require rfl

theorem emptyStatement_closes : Closes F G F.image emptyStatement emptyStatement :=
  .openNode fun _ => .advance rfl

/-! ## Conditionals -/

theorem shortBranch_follows :
    Follows F (Prod.map F.image (Option.map F.image)) shortBranch shortBranch := by
  refine .of_echoes (fun _ hs => ⟨_, _, shortBranch_sat (Stage.start hs) (by decide)⟩) ?_
  exact shortBranch_echoes.mono fun _ _ _ _ h => Prod.ext h.1 h.2

/-- A conditional behind its keyword goes on. -/
theorem elseIf_onward {s t : ParseState} {n : Node} (hs : s.stream.Sound)
    (hk : s.kind = .kwElseIf) (h : (Parser.call .ifStatement).Yields s n t) :
    s.stream.GoesOn t.stream := by
  have hsolid : s.kind.IsSolid := hk ▸ by decide
  have hsat := Sat.call .ifStatement (Stage.start hs) (Rule.rank_lt _) hsolid
  obtain ⟨hstage, _⟩ := hsat.of_yields hs h
  exact ⟨hstage.sound, hstage.moves.leads.options, Or.inl hstage.moves.leads⟩

/-- A conditional in the long form ends with its last branch, and looks for another one behind
it. -/
theorem ifStatement_closes (hF : F.Shuts)
    (hstatement : Closes F G F.image (Parser.call .statement) (Parser.call .statement))
    (hif : Lands F G F.image (Parser.call .ifStatement) (Parser.call .ifStatement)) :
    Closes F (Over G) F.image ifStatement ifStatement := by
  refine .begin fun o => .before condition_follows fun test => .eat (by decide) ?_ ?_
  · refine .before shortBranch_follows fun (body, alternate) => ?_
    exact .skip (takes_require _).follows (endStatement_closes hF rfl)
  have hlast (body : Node) (info : NodeInfo) (n : Node)
      (hn : Over G ⟨info, .if test body (some n) false⟩) : G n :=
    hn.lasts n (List.mem_singleton_self _)
  have helse (body : Node) : Closes F (Over G) F.image
      (Parser.advance >>= fun _ => Parser.call .statement >>= fun alternate =>
        Parser.finish o (.if test body (some alternate) false))
      (Parser.advance >>= fun _ => Parser.call .statement >>= fun alternate =>
        Parser.finish o (.if (F.image test) (F.image body) (some alternate) false)) :=
    .skip takes_advance.follows (.finish (P := fun n => .if test body (some n) false)
      (Q := fun n => .if (F.image test) (F.image body) (some n) false) hstatement (hlast body)
      fun _ => rfl)
  have halone (body : Node) : Rests F (Over G) F.image
      (Parser.finish o (.if test body none false))
      (Parser.finish o (.if (F.image test) (F.image body) none false)) := .finish rfl
  refine .last .statement hstatement ?_ fun body => .kind ?_ ?_ ?_
  · intro m u body n hm hy hn
    rw [Parser.yields_kind_bind, hm.kind, hF.first] at hy
    obtain ⟨rfl, _⟩ := Parser.yields_finish.mp hy
    exact hn.lasts body (List.mem_singleton_self _)
  · intro s n t hs hsound hy
    rw [Parser.yields_kind_bind] at hy
    split at hy
    case h_1 hk =>
      obtain ⟨alternate, m, hm, hu⟩ := Parser.yields_bind.mp hy
      rw [Parser.still_finish hu]
      exact elseIf_onward hsound hk hm
    case h_2 => exact (helse body).onward hs hsound hy
    case h_3 => exact (halone body).onward hs hsound hy
  · intro k
    split
    · exact hif.finish (P := fun n => .if test body (some n) false)
        (Q := fun n => .if (F.image test) (F.image body) (some n) false) (hlast body) fun _ => rfl
    · exact (helse body).lands
    · exact (halone body).lands
  · have hsettles := (halone body).settles
    rcases hF.second_eq with hk | hk | hk
    all_goals
      rw [hF.first, hk]
      exact hsettles

/-! ## Choices -/

theorem openCases_follows : Follows F id openCases openCases :=
  .of_echoes (fun _ hs => ⟨_, _, openCases_sat (Stage.start hs)⟩) openCases_echoes

theorem commentsAlone_follows : Follows F (List.map F.image) commentsAlone commentsAlone := by
  refine .of_echoes (fun _ hs => ⟨_, _, commentsAlone_sat (Stage.start hs)⟩) ?_
  refine commentsAlone_echoes.mono fun _ ms ns _ h => ?_
  exact Production.block.inj (congrArg Node.production (h default))

theorem caseList_closes (hF : F.Shuts) : Closes F G F.image caseList caseList := by
  refine .openNode fun o => .before openCases_follows fun close => .skip (.eat (by decide)) ?_
  refine .before (.nodes (r := .cases close) (fun _ => trivial) rfl fun _ => rfl) fun children => ?_
  have hrest (ns : List Node) : Closes F G F.image
      (Parser.require close >>= fun _ =>
        if close = .kwEndSwitch then
          Parser.endStatement >>= fun _ => Parser.finish o (.block ns)
        else Parser.finish o (.block ns))
      (Parser.require close >>= fun _ =>
        if close = .kwEndSwitch then
          Parser.endStatement >>= fun _ => Parser.finish o (.block (ns.map F.image))
        else Parser.finish o (.block (ns.map F.image))) := by
    by_cases hclose : close = .kwEndSwitch
    · simp only [if_pos hclose]
      exact .skip (takes_require close).follows (endStatement_closes hF rfl)
    · simp only [if_neg hclose]
      exact .require rfl
  rw [List.isEmpty_map]
  exact .ite (.before commentsAlone_follows hrest) (hrest children)

theorem switchStatement_closes (hF : F.Shuts) :
    Closes F G F.image switchStatement switchStatement := by
  refine .begin fun o => .before condition_follows fun test => ?_
  refine .before (.ofKind (f := fun j => decide (j = .colon))) fun shortform => ?_
  exact .finish (P := fun n => .switch test n shortform)
    (Q := fun n => .switch (F.image test) n shortform) (K := fun _ => True) (caseList_closes hF)
    (fun _ _ _ => trivial) fun _ => rfl

/-! ## Handlers -/

theorem handler_follows : Follows F F.image handler handler := by
  refine .bind .openNode fun o => .bind takes_advance.follows fun _ => ?_
  refine .bind (takes_require _).follows fun _ => .bind (separated_follows (by decide) rfl) fun types => ?_
  refine .bind (.node (fun _ => trivial) rfl fun _ => rfl) fun var => ?_
  exact .bind (takes_require _).follows fun _ => .bind block_follows fun body => .finish rfl

theorem handler_closes : Closes F G F.image handler handler := by
  refine .begin fun o => .skip (takes_require _).follows ?_
  refine .before (separated_follows (by decide) rfl) fun types => ?_
  refine .before (.node (fun _ => trivial) rfl fun _ => rfl) fun var => ?_
  refine .skip (takes_require _).follows ?_
  exact .finish (P := fun n => .catch types var n)
    (Q := fun n => .catch (types.map F.image) (F.image var) n) (K := fun _ => True) block_closes
    (fun _ _ _ => trivial) fun _ => rfl

theorem handlers_follows :
    Follows F (List.map F.image) (Parser.call .handlers) (Parser.call .handlers) :=
  .nodes (fun _ => trivial) rfl fun _ => rfl

/-- Handlers end where no other one follows.  The induction is on the handlers that are read. -/
theorem handlers_rests (hF : F.Shuts) {G : List Node → Prop} :
    Rests F G (List.map F.image) handlers handlers := by
  refine .of_forall fun ns => ?_
  have honward (n : Node) : Parser.Onward
      (Parser.call .handlers >>= fun ms => (pure (n :: ms) : Parser (List Node))) :=
    Parser.Onward.bind (handlers_follows (F := F)).onward fun _ =>
      Parser.Still.onward Parser.still_pure
  have hmore : Parser.Onward (handler >>= fun n => Parser.call .handlers >>= fun ms =>
      (pure (n :: ms) : Parser (List Node))) :=
    Parser.Onward.bind (handler_follows (F := F)).onward honward
  induction ns with
  | nil =>
    refine .isAt (hF.first_ne (by decide)) (hF.second_ne (by decide)) hmore ?_ .pure
    intro s t u ns hs hy _ hnil
    obtain ⟨_, _, _, hy⟩ := Parser.yields_bind.mp hy
    obtain ⟨_, _, _, hy⟩ := Parser.yields_bind.mp hy
    cases (Parser.yields_pure.mp hy).1.symm.trans hnil
  | cons n ns ih =>
    refine .isAt (hF.first_ne (by decide)) (hF.second_ne (by decide)) hmore ?_ .pure
    refine (Closes.last handler_follows handler_closes (fun _ _ _ => trivial) fun m => ?_).lands
    refine .bind handlers_follows (G := (· = ns)) (.call (r := .handlers) ih) ?_ fun ms => .pure
    intro _ _ ms ns' _ hy hcons
    exact (List.cons.inj ((Parser.yields_pure.mp hy).1.symm.trans hcons)).2

theorem tryStatement_closes (hF : F.Shuts) : Closes F G F.image tryStatement tryStatement := by
  have hafter : Follows F (Option.map F.image) (Parser.after .kwFinally block)
      (Parser.after .kwFinally block) := by
    refine .of_echoes (fun _ hs => ?_) (.after block_echoes)
    exact ⟨_, _, Sat.after (Stage.start hs) (by decide) fun _ h => .forget (block_sat h)⟩
  refine .begin fun o => .last block_follows block_closes (fun _ _ _ => trivial) fun body => ?_
  refine .bind handlers_follows (G := fun _ => True) (.call (r := .handlers) (handlers_rests hF))
    (fun _ _ _ => trivial) fun catches => ?_
  refine .bind hafter (G := fun _ => True) ?_ (fun _ _ _ => trivial) fun always => .finish rfl
  exact .after (by decide) (hF.first_ne (by decide)) (hF.second_ne (by decide)) block_closes

/-! ## Declare statements -/

theorem topStatements_follows (stop : TokenSet) :
    Follows F (List.map F.image) (Parser.call (.topStatements stop))
      (Parser.call (.topStatements stop)) :=
  .nodes (fun _ => trivial) rfl fun _ => rfl

/-- A declare statement with a body ends with a mark of its own. -/
theorem declareBody_closes (hF : F.Shuts) :
    Closes F (fun v : List Node × DeclareMode => v.2 ≠ .none) (Prod.map (List.map F.image) id)
      declareBody declareBody := by
  have hmark : ¬(F.first.kind = .inlineHtml ∨ F.first.kind = .eof) :=
    not_or.mpr ⟨hF.first_ne (by decide), hF.first_ne (by decide)⟩
  have hshort (ns : List Node) : Closes F (fun v : List Node × DeclareMode => v.2 ≠ .none)
      (Prod.map (List.map F.image) id) (Parser.endStatement >>= fun _ => pure (ns, .short))
      (Parser.endStatement >>= fun _ => pure (ns.map F.image, .short)) :=
    .pure (K := fun _ => True) (takes_endStatement.closes hmark) (fun _ _ => trivial) fun _ => rfl
  have hblock (ns : List Node) : Closes F (fun v : List Node × DeclareMode => v.2 ≠ .none)
      (Prod.map (List.map F.image) id) (Parser.require .rBrace >>= fun _ => pure (ns, .block))
      (Parser.require .rBrace >>= fun _ => pure (ns.map F.image, .block)) :=
    .pure (K := fun _ => True) ((takes_require _).closes id) (fun _ _ => trivial) fun _ => rfl
  refine .before .kind fun k => ?_
  rw [id]
  split
  · refine .skip takes_advance.follows (.before (.statements _) fun ns => ?_)
    exact .skip (takes_require _).follows (hshort ns)
  · exact .skip takes_advance.follows (.before (topStatements_follows _) fun ns => hblock ns)
  · refine .last takes_endStatement.follows (takes_endStatement.closes hmark (G := fun _ => True))
      (fun _ _ _ => trivial) fun _ => .never ?_ ?_
    · exact Parser.Onward.bind (topStatements_follows (F := F) _).onward fun _ =>
        Parser.Still.onward Parser.still_pure
    · intro s t v hy hv
      obtain ⟨_, _, _, hy⟩ := Parser.yields_bind.mp hy
      exact hv (congrArg Prod.snd (Parser.yields_pure.mp hy).1)

theorem declareStatement_closes (hF : F.Shuts) :
    Closes F (Over G) F.image declareStatement declareStatement := by
  have hrest (o : Opened) (directives : List Node) : Closes F (Over G) F.image
      (declareBody >>= fun v => Parser.finish o (.declare directives v.1 v.2))
      (declareBody >>= fun v => Parser.finish o (.declare (directives.map F.image) v.1 v.2)) := by
    refine .finish (P := fun v => .declare directives v.1 v.2)
      (Q := fun v => .declare (directives.map F.image) v.1 v.2) (declareBody_closes hF) ?_ ?_
    · rintro info ⟨ns, mode⟩ hn rfl
      cases hn.own
    · exact fun _ => rfl
  refine .begin fun o => .before (.expect (by decide)) fun c => .ite ?_ (hrest o [])
  exact .before (delimited_follows (by decide) rfl) fun directives => hrest o directives

/-! ## Declarations -/

theorem parameters_follows : Follows F (List.map F.image) parameters parameters :=
  .of_echoes (fun _ hs => ⟨_, _, parameters_sat (Stage.start hs)⟩) parameters_echoes

theorem returnType_follows :
    Follows F (Prod.map (Option.map F.image) id) returnType returnType := by
  refine .of_echoes (fun _ hs => ⟨_, _, returnType_sat (Stage.start hs)⟩) ?_
  exact returnType_echoes.mono fun _ _ _ _ h => Prod.ext h.1 h.2

theorem functionDeclaration_closes :
    Closes F G F.image functionDeclaration functionDeclaration := by
  refine .begin fun o => .before (.eat (by decide)) fun byRef => ?_
  refine .before identifier_follows fun name => .before parameters_follows fun arguments => ?_
  refine .before returnType_follows fun (type, nullable) => ?_
  exact .finish (P := fun n => .function name arguments byRef type nullable n) (K := fun _ => True)
    block_closes (fun _ _ _ => trivial) fun _ => rfl

theorem heritage_follows :
    Follows F (Prod.map (Option.map F.image) (List.map F.image)) heritage heritage := by
  refine .of_echoes (fun _ hs => ⟨_, _, heritage_sat (Stage.start hs)⟩) ?_
  exact heritage_echoes.mono fun _ _ _ _ h => Prod.ext h.1 h.2

theorem namesAfter_follows {k : TokenKind} (hk : k.IsSolid) :
    Follows F (List.map F.image) (namesAfter k) (namesAfter k) :=
  .of_echoes (fun _ hs => ⟨_, _, namesAfter_sat hk (Stage.start hs)⟩) (namesAfter_echoes k)

theorem classBody_closes {G : List Node → Prop} :
    Closes F G (List.map F.image) classBody classBody := by
  refine .expect (.before (.nodes (fun _ => trivial) rfl fun _ => rfl) fun ms => ?_)
  exact .pure (K := fun _ => True) ((takes_require _).closes id) (fun _ _ => trivial) fun _ => rfl

theorem classDeclaration_closes : Closes F G F.image classDeclaration classDeclaration := by
  have hflags : Follows F id (Parser.call (.classFlags false false))
      (Parser.call (.classFlags false false)) :=
    .call (fun _ => trivial) rfl (.call (r := .classFlags false false) fun _ _ => rfl)
  refine .openNode fun o => .before hflags fun (isAbstract, isFinal) => ?_
  refine .eat (by decide) ?_ .missing
  refine .before identifier_follows fun name => .before heritage_follows fun (parent, names) => ?_
  exact .finish (P := fun ms => .class (some name) parent names ms isAbstract isFinal false)
    (K := fun _ => True) classBody_closes (fun _ _ _ => trivial) fun _ => rfl

theorem interfaceDeclaration_closes :
    Closes F G F.image interfaceDeclaration interfaceDeclaration := by
  refine .begin fun o => .before identifier_follows fun name => ?_
  refine .before (namesAfter_follows (by decide)) fun parents => ?_
  exact .finish (P := fun ms => .interface name parents ms) (K := fun _ => True) classBody_closes
    (fun _ _ _ => trivial) fun _ => rfl

theorem traitDeclaration_closes : Closes F G F.image traitDeclaration traitDeclaration := by
  refine .begin fun o => .before identifier_follows fun name => ?_
  exact .finish (P := fun ms => .trait name ms) (K := fun _ => True) classBody_closes
    (fun _ _ _ => trivial) fun _ => rfl

/-! ## Statements by their first token -/

/-- Statements, if those do that end where they end. -/
theorem statement_closes (hF : F.Shuts)
    (hstatement : Closes F G F.image (Parser.call .statement) (Parser.call .statement))
    (hif : Lands F G F.image (Parser.call .ifStatement) (Parser.call .ifStatement)) :
    Closes F (Over G) F.image statement statement := by
  refine .glance fun k next next' hnext => ?_
  split
  case h_1 => exact block_closes
  case h_2 => exact .call (r := .ifStatement) (ifStatement_closes hF hstatement hif)
  case h_3 => exact switchStatement_closes hF
  case h_4 => exact forStatement_closes hF hstatement
  case h_5 => exact foreachStatement_closes hF hstatement
  case h_6 => exact whileStatement_closes hF hstatement
  case h_7 => exact doStatement_closes hF
  case h_8 | h_9 | h_10 => exact withOptionalExpression_closes hF fun _ => rfl
  case h_11 => exact withItems_closes hF rfl fun _ => rfl
  case h_12 =>
    rw [startsStaticList_of_blurs hnext]
    exact .ite (withItems_closes hF rfl fun _ => rfl) (expressionStatement_closes hF)
  case h_13 => exact echoStatement_closes hF
  case h_14 => exact inlineHtml_closes
  case h_15 => exact unsetStatement_closes hF
  case h_16 => exact declareStatement_closes hF
  case h_17 => exact tryStatement_closes hF
  case h_18 => exact throwStatement_closes hF
  case h_19 => exact gotoStatement_closes hF
  case h_20 =>
    simp only [hnext .colon (by decide)]
    exact .ite label_closes (expressionStatement_closes hF)
  case h_21 => exact emptyStatement_closes
  case h_22 => exact expressionStatement_closes hF

/-- The same with declarations. -/
theorem innerStatement_closes (hF : F.Shuts)
    (hstatement : Closes F G F.image (Parser.call .statement) (Parser.call .statement))
    (hif : Lands F G F.image (Parser.call .ifStatement) (Parser.call .ifStatement)) :
    Closes F (Over G) F.image innerStatement innerStatement := by
  have hcall : Closes F (Over G) F.image (Parser.call .statement) (Parser.call .statement) :=
    .call (r := .statement) (statement_closes hF hstatement hif)
  refine .glance fun k next next' hnext => ?_
  split
  case h_1 =>
    simp only [hnext .lParen (by decide)]
    exact .ite hcall functionDeclaration_closes
  case h_2 | h_3 | h_4 => exact classDeclaration_closes
  case h_5 => exact interfaceDeclaration_closes
  case h_6 => exact traitDeclaration_closes
  case h_7 =>
    refine .never fun hs hy => ?_
    obtain ⟨_, _, hraise, _⟩ := Parser.yields_bind.mp hy
    exact Parser.not_yields_raise hs hraise
  case h_8 => exact hcall

end Grammar
end PhpSyntax
