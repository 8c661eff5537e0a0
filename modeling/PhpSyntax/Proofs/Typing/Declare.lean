/-
What a declare statement without a body leaves to the statements behind it.

Such a statement takes in what follows up to the first statement that starts with one of
three tokens (`declareEnds`).  The kind of the token alone decides: a closing brace starts no
statement and one keyword starts another declare statement, but the keyword `namespace`
starts a declaration or an expression with a relative name in it, and either is left behind.

Lists of statements are what the rules for lists yield (`Listed`), so the rules are followed
from statement to statement, by induction on the list.
-/
import Mathlib.Data.List.Chain
import PhpSyntax.Proofs.Span.Reading
import PhpSyntax.Proofs.Typing.Tree

namespace PhpSyntax

/-! ## Neighbours -/

def Production.isBodyless {α : Type} : Production α → Bool
  | .declare _ _ .none => true
  | _ => false

/-- A block, or a declare statement without a body. -/
def Production.isSingular {α : Type} : Production α → Bool
  | .block _ | .declare _ _ .none => true
  | _ => false

def Production.isDeclare {α : Type} : Production α → Bool
  | .declare .. => true
  | _ => false

def Production.isExpressionStatement {α : Type} : Production α → Bool
  | .expressionStatement _ => true
  | _ => false

namespace Node

/-- What may follow a declare statement without a body in the same list. -/
inductive EndsScope (source : String) (n : Node) : Prop
  | declare (h : n.production.isDeclare = true)
  | namespace (h : n.production.isNamespace = true)
  | relative {t : Token} (h : n.production.isExpressionStatement = true)
    (ht : t ∈ tokenize source) (hk : t.kind = .kwNamespace) (hstart : t.start = n.span.start)

def Precedes (source : String) (m n : Node) : Prop :=
  m.production.isBodyless = true → n.EndsScope source

end Node

/-! ## Statements with a body -/

namespace Grammar

def IsClosed (n : Node) : Prop := n.production.isBodyless = false

def IsPlain (n : Node) : Prop := n.production.isSingular = false

theorem IsPlain.isClosed {n : Node} (h : IsPlain n) : IsClosed n := by
  obtain ⟨info, p⟩ := n
  unfold IsPlain Production.isSingular at h
  unfold IsClosed Production.isBodyless
  split at h <;> simp_all

theorem finish_isPlain {o : Opened} {p : Production Node} (h : p.isSingular = false) :
    Gives (Parser.finish o p) IsPlain := fun _ => h

theorem missing_isPlain {e : Expected} : Gives (Parser.missing e) IsPlain := by
  refine .last fun _ s => ?_
  rw [Parser.raise]
  split
  · rfl
  · trivial

theorem withItems_isPlain {item : Rule .node} {p : List Node → Production Node}
    (h : ∀ ns, (p ns).isSingular = false) : Gives (withItems item p) IsPlain :=
  .last fun _ => .last fun _ => .last fun ns => .last fun _ => finish_isPlain (h ns)

theorem withOptionalExpression_isPlain {p : Option Node → Production Node}
    (h : ∀ n, (p n).isSingular = false) : Gives (withOptionalExpression p) IsPlain :=
  .last fun _ => .last fun _ => .last fun _ => .last fun n => .last fun _ => finish_isPlain (h n)

theorem expressionStatement_isPlain : Gives expressionStatement IsPlain :=
  .last fun _ => .last fun _ => .last fun _ => finish_isPlain rfl

theorem block_isClosed : Gives block IsClosed := by
  refine .last fun _ => .ite ?_ fun s => (missing_isPlain s).mono fun _ _ => IsPlain.isClosed
  exact .last fun _ => .last fun _ => .last fun _ => .last fun _ => fun _ => rfl

theorem ifStatement_isPlain : Gives ifStatement IsPlain := by
  refine .last fun _ => .last fun _ => .last fun _ => .last fun _ =>
    .ite ?_ (.last fun _ => .last fun k => ?_)
  · exact .last fun _ => .last fun _ => .last fun _ => finish_isPlain rfl
  · split
    · exact .last fun _ => finish_isPlain rfl
    · exact .last fun _ => .last fun _ => finish_isPlain rfl
    · exact finish_isPlain rfl

theorem forStatement_isPlain : Gives forStatement IsPlain := by
  refine .last fun _ => .last fun _ => .last fun _ => .last fun _ => .last fun _ => .last fun _ =>
    .last fun _ => .bind (finish_isPlain rfl) fun n hn => .pure hn

theorem foreachStatement_isPlain : Gives foreachStatement IsPlain := by
  refine .last fun _ => .last fun _ => .last fun _ => .last fun _ => .last fun _ => .ite ?_ ?_
  · exact fun _ => trivial
  · exact .last fun _ => .last fun _ => .bind (finish_isPlain rfl) fun n hn => .pure hn

theorem doStatement_isPlain : Gives doStatement IsPlain := by
  refine .last fun _ => .last fun _ => .last fun _ => .last fun _ => .ite ?_ ?_
  · exact .last fun _ => .last fun _ => finish_isPlain rfl
  · exact .last fun _ => finish_isPlain rfl

theorem unsetStatement_isPlain : Gives unsetStatement IsPlain := by
  refine .last fun _ => .last fun _ => .last fun _ => .ite ?_ ?_
  · exact .last fun _ => .last fun _ => finish_isPlain rfl
  · exact .last fun _ => .last fun _ => finish_isPlain rfl

theorem haltCompiler_isPlain {outermost : Bool} : Gives (haltCompiler outermost) IsPlain := by
  refine .possibly (.last fun _ => .last fun _ => .last fun _ => .last fun _ => .ite ?_ ?_)
  · exact .last fun _ => .possibly (.last fun _ => finish_isPlain rfl)
  · exact .last fun _ => finish_isPlain rfl

theorem classDeclaration_isPlain : Gives classDeclaration IsPlain := by
  refine .last fun _ => .last fun _ => .last fun _ => .ite ?_ ?_
  · exact .last fun _ => .last fun _ => .last fun _ => finish_isPlain rfl
  · exact .bind missing_isPlain fun n hn => fun _ => hn

theorem useStatement_isPlain : Gives useStatement IsPlain := by
  refine .last fun _ => .last fun _ => .last fun _ => .last fun _ => .last fun _ => .last fun _ =>
    .last fun _ => .ite ?_ ?_
  · exact .last fun _ => .last fun _ => .last fun _ => .last fun _ => .last fun _ => .last fun _ =>
      finish_isPlain rfl
  · refine .last fun _ => .last fun _ => .ite ?_ ?_
    · exact .last fun _ => .last fun _ => finish_isPlain rfl
    · exact .last fun _ => .last fun _ => finish_isPlain rfl

variable {source : String} {s t : ParseState} {n : Node}

/-- Only a brace starts a block, and only its keyword a declare statement. -/
theorem statement_isPlain (hk : s.kind ≠ .kwDeclare) (hbrace : s.kind ≠ .lBrace)
    (h : statement.Yields s n t) : IsPlain n := by
  rw [statement, Parser.peek, Parser.yields_read_bind, Parser.yields_kind_bind] at h
  split at h
  case h_1 hk => exact absurd hk hbrace
  case h_2 => exact ifStatement_isPlain.of_yields (Parser.yields_call.mp h)
  case h_3 =>
    have hswitch : Gives switchStatement IsPlain :=
      .last fun _ => .last fun _ => .last fun _ => .last fun _ => .last fun _ => finish_isPlain rfl
    exact hswitch.of_yields h
  case h_4 => exact forStatement_isPlain.of_yields h
  case h_5 => exact foreachStatement_isPlain.of_yields h
  case h_6 =>
    have hwhile : Gives whileStatement IsPlain :=
      .last fun _ => .last fun _ => .last fun _ => .last fun _ => finish_isPlain rfl
    exact hwhile.of_yields h
  case h_7 => exact doStatement_isPlain.of_yields h
  case h_8 | h_9 | h_10 => exact (withOptionalExpression_isPlain fun _ => rfl).of_yields h
  case h_11 => exact (withItems_isPlain fun _ => rfl).of_yields h
  case h_12 =>
    have hlist : Gives (withItems .staticVariable .static) IsPlain :=
      withItems_isPlain fun _ => rfl
    exact (Gives.ite hlist expressionStatement_isPlain).of_yields h
  case h_13 => exact (Gives.last fun _ => withItems_isPlain fun _ => rfl).of_yields h
  case h_14 =>
    have hinline : Gives inlineHtml IsPlain :=
      .last fun _ => .last fun _ => .last fun _ => finish_isPlain rfl
    exact hinline.of_yields h
  case h_15 => exact unsetStatement_isPlain.of_yields h
  case h_16 hdeclare => exact absurd hdeclare hk
  case h_17 =>
    have htry : Gives tryStatement IsPlain :=
      .last fun _ => .last fun _ => .last fun _ => .last fun _ => .last fun _ => finish_isPlain rfl
    exact htry.of_yields h
  case h_18 =>
    have hthrow : Gives throwStatement IsPlain :=
      .last fun _ => .last fun _ => .last fun _ => .last fun _ => finish_isPlain rfl
    exact hthrow.of_yields h
  case h_19 =>
    have hgoto : Gives gotoStatement IsPlain :=
      .last fun _ => .last fun _ => .last fun _ => .last fun _ => finish_isPlain rfl
    exact hgoto.of_yields h
  case h_20 =>
    have hlabel : Gives label IsPlain :=
      .last fun _ => .last fun _ => .last fun _ => finish_isPlain rfl
    exact (Gives.ite hlabel expressionStatement_isPlain).of_yields h
  case h_21 =>
    have hempty : Gives emptyStatement IsPlain :=
      .last fun _ => .last fun _ => finish_isPlain rfl
    exact hempty.of_yields h
  case h_22 => exact expressionStatement_isPlain.of_yields h

theorem statement_isClosed (hk : s.kind ≠ .kwDeclare) (h : statement.Yields s n t) :
    IsClosed n := by
  by_cases hbrace : s.kind = .lBrace
  · rw [statement, Parser.peek, Parser.yields_read_bind, Parser.yields_kind_bind, hbrace] at h
    exact block_isClosed.of_yields h
  · exact (statement_isPlain hk hbrace h).isClosed

/-- A block starts with a brace. -/
theorem statement_block (h : statement.Yields s n t) {children : List Node}
    (hn : n.production = .block children) : s.kind = .lBrace ∧ block.Yields s n t := by
  by_cases hbrace : s.kind = .lBrace
  · rw [statement, Parser.peek, Parser.yields_read_bind, Parser.yields_kind_bind, hbrace] at h
    exact ⟨hbrace, h⟩
  · by_cases hk : s.kind = .kwDeclare
    · have hdeclare : Gives declareStatement fun n => n.production.isDeclare = true := by
        have hbody (o : Opened) (directives : List Node) :
            Gives (declareBody >>= fun v => Parser.finish o (.declare directives v.1 v.2))
              fun n => n.production.isDeclare = true :=
          .last fun _ _ => rfl
        refine .last fun o => .last fun _ => .last fun _ => .ite (.last fun _ => ?_) ?_
        · exact hbody o _
        · exact hbody o _
      rw [statement, Parser.peek, Parser.yields_read_bind, Parser.yields_kind_bind, hk] at h
      have hproduction := hdeclare.of_yields h
      rw [hn] at hproduction
      cases hproduction
    · have hplain := statement_isPlain hk hbrace h
      rw [IsPlain, hn] at hplain
      cases hplain

theorem innerStatement_isClosed (hk : s.kind ≠ .kwDeclare) (h : innerStatement.Yields s n t) :
    IsClosed n := by
  have hstatement (h : (Parser.call .statement).Yields s n t) : IsClosed n :=
    statement_isClosed hk (Parser.yields_call.mp h)
  rw [innerStatement, Parser.peek, Parser.yields_read_bind, Parser.yields_kind_bind] at h
  split at h
  case h_1 =>
    split at h
    · exact hstatement h
    · have hfunction : Gives functionDeclaration IsClosed :=
        .last fun _ => .last fun _ => .last fun _ => .last fun _ => .last fun _ => .last fun _ =>
          .last fun _ => fun _ => rfl
      exact hfunction.of_yields h
  case h_2 | h_3 | h_4 => exact (classDeclaration_isPlain.of_yields h).isClosed
  case h_5 =>
    have hinterface : Gives interfaceDeclaration IsClosed :=
      .last fun _ => .last fun _ => .last fun _ => .last fun _ => .last fun _ => fun _ => rfl
    exact hinterface.of_yields h
  case h_6 =>
    have htrait : Gives traitDeclaration IsClosed :=
      .last fun _ => .last fun _ => .last fun _ => .last fun _ => fun _ => rfl
    exact htrait.of_yields h
  case h_7 => exact (haltCompiler_isPlain.of_yields h).isClosed
  case h_8 => exact hstatement h

/-- A statement of the outermost scope is a declaration of a namespace, one that only
stands there, or one that stands in any scope. -/
theorem atNamespace_yields {c : Bool} :
    atNamespace.Yields s c t ↔
      c = (decide (s.kind = .kwNamespace) && decide (s.stream.peek ≠ .nsSeparator)) ∧ t = s :=
  Parser.yields_pure

theorem topStatement_yields (h : topStatement.Yields s n t) :
    (s.kind = .kwNamespace ∧ n.production.isNamespace = true) ∨
      (s.kind ∈ [.kwUse, .kwConst, .kwHaltCompiler] ∧ IsClosed n) ∨
      innerStatement.Yields s n t := by
  have hnamespace : Gives namespaceDeclaration fun n => n.production.isNamespace = true := by
    refine .last fun _ => .last fun _ => .possibly (.last fun _ => .last fun _ => ?_)
    exact .last fun _ => .last fun _ => .last fun _ => .last fun _ => fun _ => rfl
  rw [topStatement, Parser.yields_bind] at h
  obtain ⟨c, u, hc, h⟩ := h
  obtain ⟨rfl, rfl⟩ := atNamespace_yields.mp hc
  split at h
  case isTrue hc =>
    exact Or.inl ⟨of_decide_eq_true (Bool.and_eq_true_iff.mp hc).1, hnamespace.of_yields h⟩
  case isFalse =>
    rw [Parser.yields_kind_bind] at h
    split at h
    case h_1 hk => exact Or.inr (Or.inl ⟨by simp [hk], (useStatement_isPlain.of_yields h).isClosed⟩)
    case h_2 hk =>
      exact Or.inr (Or.inl ⟨by simp [hk], ((withItems_isPlain fun _ => rfl).of_yields h).isClosed⟩)
    case h_3 hk => exact Or.inr (Or.inl ⟨by simp [hk], (haltCompiler_isPlain.of_yields h).isClosed⟩)
    case h_4 => exact Or.inr (Or.inr h)

def IsStatement (p : Parser Node) : Prop := p = innerStatement ∨ p = topStatement

variable {p : Parser Node}

/-- At a keyword that starts statements in any scope, the rule for those is asked for. -/
theorem IsStatement.inner (hp : IsStatement p) (hk : s.kind ∈ [.kwDeclare, .rBrace])
    (h : p.Yields s n t) : statement.Yields s n t := by
  have hinner (h : innerStatement.Yields s n t) : statement.Yields s n t := by
    rw [innerStatement, Parser.peek, Parser.yields_read_bind, Parser.yields_kind_bind] at h
    split at h
    case h_8 => exact Parser.yields_call.mp h
    all_goals simp_all
  rcases hp with rfl | rfl
  · exact hinner h
  · rcases topStatement_yields h with ⟨hn, _⟩ | ⟨hn, _⟩ | h
    · simp [hn] at hk
    · have hne : ¬(s.kind ∈ [.kwUse, .kwConst, .kwHaltCompiler]) := by
        rcases List.mem_pair.mp hk with hk | hk <;> simp [hk]
      exact absurd hn hne
    · exact hinner h

theorem IsStatement.isClosed (hp : IsStatement p) (hk : s.kind ≠ .kwDeclare)
    (h : p.Yields s n t) : IsClosed n := by
  rcases hp with rfl | rfl
  · exact innerStatement_isClosed hk h
  · rcases topStatement_yields h with ⟨_, hn⟩ | ⟨_, hn⟩ | h
    · obtain ⟨info, q⟩ := n
      cases q <;> first | rfl | cases hn
    · exact hn
    · exact innerStatement_isClosed hk h

/-! ## Where a scope ends -/

def bodyEnds : List TokenKind := [.rBrace, .kwEndWhile, .kwEndFor, .kwEndForeach]

theorem bodyEnds_cases {P : TokenKind → Prop} (hbrace : P .rBrace) (hwhile : P .kwEndWhile)
    (hfor : P .kwEndFor) (hforeach : P .kwEndForeach) : ∀ k ∈ bodyEnds, P k := by
  simp only [bodyEnds, List.forall_mem_cons]
  exact ⟨hbrace, hwhile, hfor, hforeach, fun _ h => absurd h List.not_mem_nil⟩

/-- No statement starts where a body ends. -/
theorem statement_bodyEnds (hs : s.tolerates = false) (hk : s.kind ∈ bodyEnds) :
    ¬statement.Yields s n t := by
  intro h
  rw [statement, Parser.peek, Parser.yields_read_bind, Parser.yields_kind_bind] at h
  have hexpression : expressionStatement.Yields s n t := by
    generalize s.kind = k at hk h
    revert k
    exact bodyEnds_cases id id id id
  rw [expressionStatement, Parser.yields_openNode_bind] at hexpression
  obtain ⟨e, u, he, _⟩ := Parser.yields_bind.mp hexpression
  obtain ⟨left, v, hleft, _⟩ := Parser.yields_bind.mp (Parser.yields_call.mp he)
  have hleft : operand.Yields s.openNode.2 left v := Parser.yields_call.mp hleft
  have hsimple : simpleOperand.Yields s.openNode.2 left v := by
    rw [operand, Parser.yields_kind_bind] at hleft
    have hopen : s.openNode.2.kind ∈ bodyEnds := hk
    generalize s.openNode.2.kind = k at hopen hleft
    revert k
    exact bodyEnds_cases id id id id
  have hset : ∀ k ∈ bodyEnds, Category.variable.set.contains k = false ∧
      Category.scalar.set.contains k = false := by decide
  obtain ⟨hvariable, hscalar⟩ := hset s.kind hk
  rw [simpleOperand, Parser.isIn, Parser.yields_read_bind,
    show Category.variable.set.contains s.openNode.2.stream.current.kind = false from hvariable,
    if_neg Bool.false_ne_true, Parser.isIn, Parser.yields_read_bind,
    show Category.scalar.set.contains s.openNode.2.stream.current.kind = false from hscalar,
    if_neg Bool.false_ne_true] at hsimple
  obtain ⟨_, _, hmissing, _⟩ := Parser.yields_bind.mp hsimple
  exact Parser.not_yields_missing (s := s.openNode.2) hs hmissing

/-- Without a body a declare statement stops where its scope ends. -/
theorem declareBody_yields (hs : s.Reading source) {children : List Node} {mode : DeclareMode}
    (h : declareBody.Yields s (children, mode) t) :
    s.Reads source children t ∧
      (mode = .none → t.kind = .eof ∨ declareEnds.contains t.kind = true) := by
  refine ⟨hs.reads ((declareBody_sat hs.stage (by decide)).of_yields hs.sound h).moves, ?_⟩
  rintro rfl
  rw [declareBody, Parser.yields_kind_bind] at h
  split at h
  case h_1 =>
    obtain ⟨_, _, _, h⟩ := Parser.yields_bind.mp h
    obtain ⟨_, _, _, h⟩ := Parser.yields_bind.mp h
    obtain ⟨_, _, _, h⟩ := Parser.yields_bind.mp h
    obtain ⟨_, _, _, h⟩ := Parser.yields_bind.mp h
    cases (Parser.yields_pure.mp h).1
  case h_2 =>
    obtain ⟨_, _, _, h⟩ := Parser.yields_bind.mp h
    obtain ⟨_, _, _, h⟩ := Parser.yields_bind.mp h
    obtain ⟨_, _, _, h⟩ := Parser.yields_bind.mp h
    cases (Parser.yields_pure.mp h).1
  case h_3 =>
    obtain ⟨_, u, hend, h⟩ := Parser.yields_bind.mp h
    have hu := hs.endStatement hend
    obtain ⟨ns, v, hns, h⟩ := Parser.yields_bind.mp h
    obtain ⟨_, rfl⟩ := Parser.yields_pure.mp h
    exact ((topStatements_sat hu.stage (by decide)).of_yields hu.sound
      (Parser.yields_call.mp hns)).2

/-- A declare statement goes on behind its keyword. -/
theorem declareStatement_yields (hs : s.Reading source) (hk : s.kind = .kwDeclare)
    (h : declareStatement.Yields s n t) :
    n.production.isDeclare = true ∧ s.offset < t.offset ∧
      (n.production.isBodyless = true → t.kind = .eof ∨ declareEnds.contains t.kind = true) := by
  have hne : s.kind ≠ .eof := by simp [hk]
  have hopen := hs.opened hne
  rw [declareStatement, Parser.yields_openNode_bind, Parser.yields_advance_bind] at h
  obtain ⟨b, u, hb, h⟩ := Parser.yields_bind.mp h
  obtain ⟨hparen, rfl, rfl⟩ := (Parser.yields_expect hopen.strict).mp hb
  have hin := hopen.advance (by simp [hparen])
  rw [if_pos rfl] at h
  obtain ⟨directives, v, hdirectives, h⟩ := Parser.yields_bind.mp h
  have hv := hin.reads
    ((delimited_sat ⟨by decide, rfl⟩ hin.stage (by decide)).of_yields hin.sound hdirectives).moves
  obtain ⟨⟨children, mode⟩, w, hbody, h⟩ := Parser.yields_bind.mp h
  obtain ⟨hw, hmode⟩ := declareBody_yields hv.reading hbody
  obtain ⟨rfl, rfl⟩ := Parser.yields_finish.mp h
  refine ⟨rfl, ?_, fun hn => hmode ?_⟩
  · have hkeyword : s.offset < s.openNode.2.advance.offset := hs.lt_advance hne
    have hbehind := hopen.lt_advance (by simp [hparen])
    exact Nat.lt_of_lt_of_le (Nat.lt_trans hkeyword hbehind) (Nat.le_trans hv.le hw.le)
  · cases mode with
    | none => rfl
    | block | short => cases hn

/-! ## Lists of statements -/

/-- Behind a declare statement without a body. -/
theorem IsStatement.stops (hp : IsStatement p) (hs : s.Reading source) (h : p.Yields s n t)
    (hn : n.production.isBodyless = true) :
    s.offset < t.offset ∧ (t.kind = .eof ∨ declareEnds.contains t.kind = true) := by
  have hk : s.kind = .kwDeclare := by
    by_contra hk
    rw [hp.isClosed hk h] at hn
    cases hn
  have hstatement := hp.inner (by simp [hk]) h
  rw [statement, Parser.peek, Parser.yields_read_bind, Parser.yields_kind_bind, hk] at hstatement
  obtain ⟨_, hlt, hends⟩ := declareStatement_yields hs hk hstatement
  exact ⟨hlt, hends hn⟩

/-- The keyword of declarations of namespaces starts an expression in other statements. -/
theorem innerStatement_namespace (hk : s.kind = .kwNamespace) (h : innerStatement.Yields s n t) :
    n.production.isExpressionStatement = true ∧ n.span.start = s.stream.current.start := by
  rw [innerStatement, Parser.peek, Parser.yields_read_bind, Parser.yields_kind_bind, hk] at h
  have h := Parser.yields_call.mp h
  change statement.Yields s n t at h
  rw [statement, Parser.peek, Parser.yields_read_bind, Parser.yields_kind_bind, hk] at h
  change expressionStatement.Yields s n t at h
  rw [expressionStatement, Parser.yields_openNode_bind] at h
  obtain ⟨_, _, _, h⟩ := Parser.yields_bind.mp h
  obtain ⟨_, _, _, h⟩ := Parser.yields_bind.mp h
  obtain ⟨rfl, rfl⟩ := Parser.yields_finish.mp h
  exact ⟨rfl, rfl⟩

/-- A statement in front of which the scope of a declare statement ends. -/
theorem IsStatement.follows (hp : IsStatement p) (hs : s.Reading source) (h : p.Yields s n t)
    (hk : declareEnds.contains s.kind = true) : n.EndsScope source := by
  have hinner (hk : s.kind = .kwNamespace) (h : innerStatement.Yields s n t) :
      n.EndsScope source := by
    obtain ⟨hn, hstart⟩ := innerStatement_namespace hk h
    have hcurrent : s.stream.current.kind = .kwNamespace := hk
    obtain ⟨u, hu, hkind, hbegin, _⟩ := hs.tokens.genuine (by rw [hcurrent]; decide)
    exact .relative hn hu (hkind.trans hcurrent) (hbegin.trans hstart.symm)
  have hkinds : s.kind = .kwDeclare ∨ s.kind = .kwNamespace ∨ s.kind = .rBrace := by
    have hmem : s.kind ∈ declareEnds := hk
    simpa [declareEnds] using hmem
  rcases hkinds with hdeclare | hnamespace | hbrace
  · have hstatement := hp.inner (by simp [hdeclare]) h
    rw [statement, Parser.peek, Parser.yields_read_bind, Parser.yields_kind_bind, hdeclare]
      at hstatement
    exact .declare (declareStatement_yields hs hdeclare hstatement).1
  · rcases hp with rfl | rfl
    · exact hinner hnamespace h
    · rcases topStatement_yields h with ⟨_, hn⟩ | ⟨hne, _⟩ | h
      · exact .namespace hn
      · simp [hnamespace] at hne
      · exact hinner hnamespace h
  · exact absurd (hp.inner (by simp [hbrace]) h) (statement_bodyEnds hs.strict (by simp [hbrace, bodyEnds]))

/-- The rules for lists of statements read them one by one. -/
theorem statementList_body {r : Rule .nodes} (hr : r.isStatementList = true) :
    ∃ ends p, r.body = statementList (Parser.read ends) p r ∧ IsStatement p := by
  cases r with
  | statements stop => exact ⟨_, _, rfl, Or.inl rfl⟩
  | topStatements stop => exact ⟨_, _, rfl, Or.inr rfl⟩
  | namespaceStatements => exact ⟨_, _, rfl, Or.inr rfl⟩
  | _ => cases hr

/-- A list is empty, or it is a statement and what the rule yields from behind it on. -/
theorem statementList_yields {r : Rule .nodes} (hr : r.isStatementList = true) {ns : List Node}
    (h : r.body.Yields s ns t) :
    ns = [] ∨ ∃ p n u v ms, IsStatement p ∧ s.kind ≠ .eof ∧ p.Yields s n u ∧
      (Parser.forceProgress s.stream.current.start).Yields u () v ∧ r.body.Yields v ms t ∧
      ns = n :: ms := by
  obtain ⟨ends, p, hbody, hp⟩ := statementList_body hr
  rw [hbody] at h ⊢
  rcases Parser.yields_statementList.mp h with ⟨-, rfl, -⟩ | ⟨hc, n, ms, u, v, hn, hv, hms, rfl⟩
  · exact Or.inl rfl
  · exact Or.inr ⟨p, n, u, v, ms, hp, fun hk => hc (Or.inl hk), hn, hv,
      hbody ▸ Parser.yields_call.mp hms, rfl⟩

/-- Nothing is skipped behind a statement that has consumed something. -/
theorem forceProgress_yields {before : Position} (hb : before.offset < s.offset)
    (h : (Parser.forceProgress before).Yields s () t) : t = s := by
  rcases Parser.yields_forceProgress.mp h with ⟨-, he, -⟩ | ⟨-, rfl⟩
  · omega
  · rfl

/-- What is behind one statement of a list. -/
theorem forceProgress_reading (hs : s.Reading source) {before : Position}
    (h : (Parser.forceProgress before).Yields s () t) : t.Reading source := by
  rcases Parser.yields_forceProgress.mp h with ⟨hk, -, rfl⟩ | ⟨-, rfl⟩
  · exact hs.advance hk
  · exact hs

theorem IsStatement.reading (hp : IsStatement p) (hs : s.Reading source) (h : p.Yields s n t) :
    t.Reading source := by
  have hmoves : Moves (s.bench, s) (stack [n] s.bench, t) := by
    rcases hp with rfl | rfl
    · exact ((innerStatement_sat hs.stage (by decide)).of_yields hs.sound h).moves
    · exact ((topStatement_sat hs.stage (by decide)).of_yields hs.sound h).moves
  exact (hs.reads hmoves).reading

/-- Behind a declare statement without a body there is nothing, or a statement in front of
which its scope ends. -/
theorem statements_chain {r : Rule .nodes} (hr : r.isStatementList = true) {ns : List Node}
    (hs : s.kind ≠ .eof → s.Reading source) (h : r.body.Yields s ns t) :
    ns.IsChain (Node.Precedes source) := by
  induction ns generalizing s with
  | nil => exact .nil
  | cons n ms ih =>
    rcases statementList_yields hr h with e | ⟨p, n', u, v, ms', hp, hk, hn, hv, hms, e⟩
    · cases e
    cases e
    have hu := hp.reading (hs hk) hn
    have hrest := ih (fun _ => forceProgress_reading hu hv) hms
    cases ms with
    | nil => exact .singleton n
    | cons m ks =>
      refine List.isChain_cons_cons.mpr ⟨fun hbodyless => ?_, hrest⟩
      rcases statementList_yields hr hms with e | ⟨q, m', w, _, _, hq, hnext, hm, _, _, e⟩
      · cases e
      cases e
      obtain ⟨hlt, hends⟩ := hp.stops (hs hk) hn hbodyless
      obtain rfl := forceProgress_yields hlt hv
      exact hq.follows hu hm (hends.resolve_left hnext)

end Grammar

/-! ## Programs -/

theorem Production.statements_map {α β : Type} (f : α → β) (p : Production α) :
    (p.map f).statements = p.statements.map f := by
  cases p <;> rfl

theorem Production.isBodyless_map {α β : Type} (f : α → β) (p : Production α) :
    (p.map f).isBodyless = p.isBodyless := by
  cases p with
  | «declare» _ _ mode => cases mode <;> rfl
  | _ => rfl

/-- Delivering comments changes no neighbours. -/
theorem Node.Precedes.mapInfo {source : String} {m n : Node} (h : m.Precedes source n)
    {g : NodeInfo → NodeInfo} (hg : ∀ info, (g info).span = info.span) :
    (Node.mapInfo g m).Precedes source (Node.mapInfo g n) := by
  intro hm
  rw [mapInfo_eq g m, Production.isBodyless_map] at hm
  obtain ⟨info, q⟩ := n
  rw [mapInfo_eq]
  cases h hm with
  | declare hq =>
    refine .declare ?_
    cases q <;> first | rfl | cases hq
  | «namespace» hq =>
    refine .namespace ?_
    cases q <;> first | rfl | cases hq
  | relative hq ht hk hstart =>
    refine .relative ?_ ht hk (hstart.trans (congrArg Span.start (hg info).symm))
    cases q <;> first | rfl | cases hq

/-- No case of a choice is a declare statement, and nothing stands behind comments alone. -/
theorem Slot.chain_of_areCases {source : String} {ns : List Node} (h : areCases ns = true) :
    ns.IsChain (Node.Precedes source) := by
  have hbody : ∀ n ∈ ns, n.production.isBodyless = false := by
    intro n hn
    rw [areCases, Bool.or_eq_true, Bool.and_eq_true, List.all_eq_true, List.all_eq_true] at h
    have hkind : n.production.isCase = true ∨ n.production.isNoop = true :=
      h.imp (fun h => h n hn) fun h => h.2 n hn
    generalize n.production = p at hkind ⊢
    cases p with
    | «declare» => rcases hkind with hkind | hkind <;> cases hkind
    | _ => rfl
  refine List.Pairwise.isChain (List.pairwise_of_forall_mem_list fun m hm n _ hbodyless => ?_)
  rw [hbody m hm] at hbodyless
  cases hbodyless

/-- In strict mode, in each list of statements of a program, a declare statement without a
body is the last one or has a declaration of a namespace or another declare statement behind
it, unless it is an expression that starts with the keyword of the former: the statements
up to there are its own. -/
theorem declare_owns_scope {source : String} {fileName : Option String} {o : Options}
    {p : Program} (h : parse source fileName o = .ok p) (hs : o.suppressErrors = false) :
    p.children.IsChain (Node.Precedes source) ∧
      ∀ n ∈ p.tree, n.production.statements.IsChain (Node.Precedes source) := by
  obtain ⟨children, s, hstatements, rfl⟩ := parse_statements h
  have hmap {ns : List Node} (hns : ns.IsChain (Node.Precedes source)) :
      (ns.map (Node.mapInfo (s.sealed (ParseState.root source fileName o)).2.trivia.deliver)).IsChain
        (Node.Precedes source) :=
    List.isChain_map_of_isChain _ (fun _ _ h => h.mapInfo (Trivia.span_deliver _)) hns
  have hstrict := Scope.outermost_strict source hs
  have hlisted {ns : List Node} (hns : Slot.areCases ns = true ∨ Listed (.outermost source o) ns) :
      ns.IsChain (Node.Precedes source) := by
    rcases hns with hns | ⟨r, t, u, hr, hmode, hsound, htokens, hyields⟩
    · exact Slot.chain_of_areCases hns
    · exact Grammar.statements_chain hr
        (fun hk => ⟨by rw [hmode, hstrict]; rfl, hsound, htokens hk⟩) hyields
  refine ⟨?_, fun n hn => ?_⟩
  · have hstart := first_within source fileName o
    rw [statementsFrom_eq] at hstatements
    have hyields := (Rule.run_delivers _ hstatements).yields
    rw [ParseState.completed, Trivia.settle_children]
    exact hmap (hlisted (Or.inr ⟨_, _, _, rfl, hstart.mode, hstart.sound, hstart.tokens, hyields⟩))
  · rw [ParseState.completed_tree] at hn
    obtain ⟨m, hm, rfl⟩ := List.mem_map.mp hn
    rw [Node.mapInfo_eq, Production.statements_map]
    exact hmap (hlisted (statementsFrom_wellFormed hstatements m hm).listed)

/-- An expression with a relative name ends the scope, and the declaration of a function
does not. -/
theorem declare_owns_scope_relative :
    ∃ p, parse "<?php declare(ticks=1); function f() {} namespace\\f();" none {} = .ok p ∧
      p.children.map (·.name) = ["declare", "expressionstatement"] ∧
      p.children.map (·.production.statements.map (·.name)) = [["function"], []] ∧
      p.children.IsChain
        (Node.Precedes "<?php declare(ticks=1); function f() {} namespace\\f();") ∧
      ∀ n ∈ p.tree, n.production.statements.IsChain
        (Node.Precedes "<?php declare(ticks=1); function f() {} namespace\\f();") := by
  have hrun : ((parse "<?php declare(ticks=1); function f() {} namespace\\f();" none {}).toOption.any
      fun p => decide (p.children.map (·.name) = ["declare", "expressionstatement"] ∧
        p.children.map (·.production.statements.map (·.name)) = [["function"], []])) = true := by
    rw [parse_eq, statementsFrom_eq]
    decide +kernel
  obtain ⟨p, hp, hany⟩ := parse_of_any hrun
  obtain ⟨hnames, hstatements⟩ := of_decide_eq_true hany
  exact ⟨p, hp, hnames, hstatements, declare_owns_scope hp rfl⟩

end PhpSyntax
