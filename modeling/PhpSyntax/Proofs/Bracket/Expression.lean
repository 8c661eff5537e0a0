import PhpSyntax.Grammar.Operation
import PhpSyntax.Proofs.Bracket.Declaration

namespace PhpSyntax.Grammar

attribute [local simp] Production.children Production.fields Field.children

variable {s : ParseState}

/-! ## Arrays and lists -/

theorem entriesOf_balances {close : TokenKind} {isPattern : Bool} (h : close ∈ TokenKind.closing) :
    Balances (Parser.call (.entries close isPattern)) s [close] True False fun _ => True :=
  .call (r := .entries close isPattern) h rfl

theorem openEntries_balances {f : TokenKind → Parser Node}
    (hk : s.kind ∈ [.kwArray, .kwList, .lBracket])
    (hf : ∀ close t, close ∈ TokenKind.closing →
      Balances (f close) t [close] True True Node.NamesClasses) :
    Balances (openEntries (decide (s.kind = .lBracket)) >>= f) s [] True False Node.NamesClasses := by
  rw [openEntries, Parser.bind_bind]
  by_cases hbracket : s.kind = .lBracket
  · rw [decide_eq_true hbracket]
    exact .opens hbracket (by decide) (hf _ _ (by decide))
  · have hword : s.kind = .kwArray ∨ s.kind = .kwList := by simpa [hbracket] using hk
    have hflat : s.kind.isFlat = true := by
      rcases hword with e | e
      · exact e ▸ rfl
      · exact e ▸ rfl
    rw [decide_eq_false hbracket]
    refine .flat hflat ?_
    rw [if_neg Bool.false_ne_true, Parser.bind_bind]
    exact .require fun hk => .opens hk (by decide) (hf _ _ (by decide))

/-- Between its marks a list of entries is quiet. -/
theorem collection_balances {isPattern : Bool} {p : List Node → Bool → Production Node}
    (hk : s.kind ∈ [.kwArray, .kwList, .lBracket]) :
    Balances (do
      let o ← Parser.openNode
      let shortform ← Parser.isAt .lBracket
      let close ← openEntries shortform
      let items ← Parser.call (.entries close isPattern)
      Parser.finish o (p items shortform)) s [] True False Node.NamesClasses := by
  refine .openNode fun o => .read (openEntries_balances (s := s.openNode.2) hk fun close t hclose => ?_)
  exact .within (entriesOf_balances hclose) fun items u => .finish trivial fun _ _ => trivial

theorem arrayLiteral_balances (hk : s.kind ∈ [.kwArray, .kwList, .lBracket]) :
    Balances arrayLiteral s [] True False Node.NamesClasses :=
  collection_balances (p := fun items shortform => .array items shortform) hk

theorem listPattern_balances (hk : s.kind ∈ [.kwArray, .kwList, .lBracket]) :
    Balances listPattern s [] True False Node.NamesClasses :=
  collection_balances (p := fun items shortform => .list items shortform) hk

theorem entryPart_balances {isPattern : Bool} :
    Balances (entryPart isPattern) s [] True False Node.NamesClasses := by
  refine .kind ?_
  split
  case h_1 => exact .node rfl
  case h_2 hk | h_3 hk =>
    exact .ite (fun _ => listPattern_balances (by simp [hk])) fun _ => .expression
  case h_4 => exact .expression

theorem entry_balances {isPattern : Bool} :
    Balances (entry isPattern) s [] True False Node.NamesClasses := by
  refine .openNode fun o => .isAt (fun hk => ?_) fun _ => ?_
  · refine .requireOption (.flat (hk ▸ rfl) (.bind .expression fun n t => ?_))
    exact .finish trivial fun _ h => by simpa using h
  · refine .bind entryPart_balances fun first t => ?_
    refine .bindStill (.after rfl fun u => entryPart_balances) fun value u => ?_
    cases value with
    | none => exact .finish trivial fun _ h => by simpa using h
    | some value => exact .finish trivial fun _ h => by simpa using h

theorem entries_balances {close : TokenKind} {isPattern : Bool} (h : close ∈ TokenKind.closing) :
    Balances (entries close isPattern) s [close] True False fun _ => True := by
  have hclose {t : ParseState} {ns : List Node} :
      Balances (Parser.require close >>= fun _ => pure ns) t [close] True False fun _ => True :=
    .require fun hk => .shuts hk h (.pure trivial fun _ => trivial)
  have hmore {n : Node} {t : ParseState} (hk : t.kind = .comma) :
      Balances (Parser.advance >>= fun _ => Parser.call (.entries close isPattern) >>= fun ns =>
        pure (n :: ns)) t [close] True False fun _ => True :=
    .stopInside (by simp [hk, TokenKind.stops])
      (.within (entriesOf_balances h) fun ns u => .pure trivial fun _ => trivial)
  refine .some fun _ => .some fun _ => .ite (fun _ => hclose) fun _ =>
    .read (.ite (fun hk => ?_) fun _ => ?_)
  · have hcomma : s.kind = .comma := of_decide_eq_true (Bool.and_eq_true_iff.mp hk).2
    exact .openNode fun o => .still rfl fun n => hmore hcomma
  · exact .inside entry_balances fun n t => .ifEat (fun hk => hmore hk) fun _ => hclose

/-- A literal of one token is no mark. -/
theorem isFlat_of_literal? {k : TokenKind} {raw : String} {p : Production Node}
    (h : literal? k raw = some p) : k.isFlat = true := by
  unfold literal? at h
  split at h
  case h_6 =>
    split at h
    · next hk =>
      have hall : ∀ j ∈ TokenKind.magicConstants, j.isFlat = true := by decide
      exact hall _ hk
    · cases h
  all_goals rfl

theorem scalar_balances : Balances scalar s [] True False Node.NamesClasses := by
  refine .kind ?_
  split
  case h_1 hk | h_2 hk => exact arrayLiteral_balances (by simp [hk])
  case h_3 =>
    refine .some fun raw => ?_
    split
    · next p hp => exact .begin (isFlat_of_literal? hp) fun o => .finish trivial fun _ _ => trivial
    · exact .missingHere

/-! ## Operators between operands -/

/-- The right operand behind an operator, with what is known of the others. -/
theorem rightOperand_balances {min : Nat} {p : Node → Production Node} {owed : Prop}
    (h : ∀ right, (∀ n ∈ (p right).children, n.NamesClasses) → owed ∧ right.NamesClasses) :
    Balances (Parser.call (.expression min) >>= fun right => pure (p right)) s [] owed True
      fun p => ∀ n ∈ p.children, n.NamesClasses :=
  .bind (.node rfl) fun right _ => .pure trivial (h right)

theorem infixOperation_balances {op : Infix} {left : Node} (hk : s.kind.isFlat = true) :
    Balances (infixOperation op left) s [] left.NamesClasses False
      fun p => ∀ n ∈ p.children, n.NamesClasses := by
  cases op with
  | binary op =>
    have hrest : Balances (Parser.advance >>= fun _ =>
        Parser.call (.expression (Infix.binary op).rightMin) >>= fun right =>
          pure (Production.bin op left right)) s [] left.NamesClasses False
        fun p => ∀ n ∈ p.children, n.NamesClasses :=
      .flat hk (rightOperand_balances fun right h => by simpa using h)
    exact .ite (fun _ => .requireOption hrest) fun _ => hrest
  | coalesce => exact .requireOption (.flat hk (rightOperand_balances fun right h => by simpa using h))
  | ternary =>
    refine .flat hk (.ifEat (fun hk => .flat (hk ▸ rfl) ?_) fun _ => ?_)
    · exact rightOperand_balances fun right h => by simpa using h
    · refine .bind .expression fun middle t => .demand rfl fun u => ?_
      exact rightOperand_balances fun right h => by simp_all

theorem infixesOf_balances {min : Nat} {left : Node} {owed : Prop} (h : left.NamesClasses → owed) :
    Balances (Parser.call (.infixes min left)) s [] owed True Node.NamesClasses :=
  (Balances.call (r := .infixes min left) trivial rfl).mono h id fun _ => id

theorem expressionFrom_balances {min : Nat} :
    Balances (expressionFrom min) s [] True False Node.NamesClasses :=
  .chain (.node rfl) fun _ _ => infixesOf_balances id

theorem infixes_balances {min : Nat} {left : Node} :
    Balances (infixes min left) s [] left.NamesClasses True Node.NamesClasses := by
  refine .kind ?_
  split
  · exact .pure trivial id
  · next op hop =>
    have hflat : s.kind.isFlat = true := TokenKind.isFlat_of_some (by decide) hop
    refine .ite (fun _ => .pure trivial id) fun _ => .openAt fun o => ?_
    refine .chain (infixOperation_balances (s := (s.openAt _).2) hflat).moving fun p t => ?_
    exact .chain (.finish trivial fun _ => id) fun n u => infixesOf_balances id

/-! ## Assignment -/

theorem assignment_balances {left : Node} {op : AssignOp} (hk : s.kind.isFlat = true) :
    Balances (assignment left op) s [] left.NamesClasses True Node.NamesClasses := by
  have hright {o : Opened} {t : ParseState} {p : Parser Node}
      (hp : ∀ u, Balances p u [] True False Node.NamesClasses) :
      Balances (p >>= fun right => Parser.finish o (.assign op left right)) t [] left.NamesClasses True
        Node.NamesClasses :=
    .bind (hp t) fun right u => .finish trivial fun _ h => by simpa using h
  have hrest {o : Opened} {t : ParseState} (hk : t.kind.isFlat = true) :
      Balances (Parser.advance >>= fun _ => Parser.isAt .amp >>= fun byRef =>
        if op = .assign && byRef then
          Parser.call (.variable false) >>= fun right => Parser.finish o (.assign op left right)
        else Parser.expression >>= fun right => Parser.finish o (.assign op left right)) t []
        left.NamesClasses True Node.NamesClasses :=
    .flat hk (.read (.ite (fun _ => hright fun u => .node rfl) fun _ => hright fun u => .expression))
  refine .openAt fun o => .ite (fun _ => .missing) fun _ => .ite (fun _ => ?_) fun _ => hrest hk
  exact .requireOption (hrest hk)

theorem destructuring_balances {list : Node} :
    Balances (destructuring list) s [] list.NamesClasses True Node.NamesClasses :=
  .isAt (fun hk => assignment_balances (hk ▸ rfl)) fun _ => .openAt fun _ => .missing

theorem assignable_balances : Balances assignable s [] True False Node.NamesClasses := by
  refine .chain (.node rfl) fun target t => .kind ?_
  split
  · next op hop => exact assignment_balances (TokenKind.isFlat_of_some (by decide) hop)
  · split
    · next op hop =>
      refine .openAt fun o => .flat (TokenKind.isFlat_of_some (by decide) hop) ?_
      exact .finish trivial fun _ h => by simpa using h
    · exact .pure trivial id

theorem literal_balances : Balances literal s [] True False Node.NamesClasses := by
  refine .some fun short => .chain scalar_balances fun n t =>
    .read (.ite (fun hk => ?_) fun _ => ?_)
  · have hequal : t.kind = .equal := of_decide_eq_true (Bool.and_eq_true_iff.mp hk).2
    exact (assignment_balances (hequal ▸ rfl)).mono Node.namesClasses_asPattern.mp id fun _ => id
  · split
    · exact lookupsOf_balances id
    · exact lookupsOf_balances id
    · exact .pure trivial id

/-! ## Operators and keywords before an operand -/

theorem withOperand_balances {min : Nat} {p : Node → Production Node} (hk : s.kind.isFlat = true)
    (h : ∀ n, n ∈ (p n).children) :
    Balances (withOperand min p) s [] True False Node.NamesClasses :=
  .begin hk fun _ => .bind (.node rfl) fun n _ =>
    .finish trivial fun _ hall => ⟨trivial, hall n (h n)⟩

theorem yieldOperation_balances (hk : s.kind.isFlat = true) :
    Balances yieldOperation s [] True False Node.NamesClasses := by
  refine .begin hk fun o => .kind (.ite (fun _ => .finish trivial fun _ _ => trivial) fun _ => ?_)
  refine .bind (.node rfl) fun first t => ?_
  refine .bindStill (.after rfl fun u => .node rfl) fun value u => ?_
  cases value with
  | none => exact .finish trivial fun _ h => by simpa using h
  | some value => exact .finish trivial fun _ h => by simpa using h

theorem preUpdate_balances {op : UpdateOp} (hk : s.kind.isFlat = true) :
    Balances (preUpdate op) s [] True False Node.NamesClasses :=
  .begin hk fun _ => .bind (.node rfl) fun _ _ => .finish trivial fun _ h => by simpa using h

theorem withCondition_balances {p : Node → Production Node} (hk : s.kind.isFlat = true) :
    Balances (withCondition p) s [] True False Node.NamesClasses :=
  .begin hk fun _ => .bind condition_balances fun _ _ => .finishQuiet trivial ⟨trivial, trivial⟩

theorem issetOperation_balances (hk : s.kind.isFlat = true) :
    Balances issetOperation s [] True False Node.NamesClasses := by
  refine .begin hk fun o => .ifExpect fun hk => .opens hk (by decide) ?_
  exact .within (delimited_balances ⟨by decide, rfl⟩) fun vs t => .finish trivial fun _ _ => trivial

theorem exitOperation_balances (hk : s.kind.isFlat = true) :
    Balances exitOperation s [] True False Node.NamesClasses := by
  refine .openNode fun o => .some fun word => .flat hk (.ifEat (fun hk => ?_) fun _ => ?_)
  · refine .opens hk (by decide) (.some fun _ => ?_)
    refine .inside (.optionally .expression) fun status t => .require fun hk => ?_
    exact .shuts hk (by decide) (.finish trivial fun _ _ => trivial)
  · exact .finish trivial fun _ _ => trivial

theorem instantiated_balances : Balances instantiated s [] True False Node.NamesClasses := by
  refine .kind ?_
  split
  case h_7 => exact .missingHere
  all_goals exact .node rfl

theorem newOperation_balances (hk : s.kind.isFlat = true) :
    Balances newOperation s [] True False Node.NamesClasses := by
  refine .begin hk fun o => .isAt (fun hk => ?_) fun _ => ?_
  · refine .bind (anonymousClass_balances (hk ▸ rfl)) fun (n, args) t => ?_
    exact .finish trivial fun _ h => ⟨trivial, h n (by simp)⟩
  · refine .bind instantiated_balances fun n t => .bindStill argumentsIfAny_balances fun args u => ?_
    exact .finish trivial fun _ h => ⟨⟨trivial, h n (by simp)⟩, trivial⟩

theorem staticFunction_balances (hk : s.kind.isFlat = true)
    (hnext : s.stream.peek = .kwFunction ∨ s.stream.peek = .kwFn) :
    Balances staticFunction s [] True False Node.NamesClasses := by
  have hflat : s.openNode.2.advance.kind.isFlat = true := by
    have hkind : s.openNode.2.advance.kind = s.stream.peek := Stream.advance_kind s.stream
    rw [hkind]
    rcases hnext with e | e
    · exact e ▸ rfl
    · exact e ▸ rfl
  refine .begin hk fun o => .isAt (fun _ => ?_) fun _ => ?_
  · exact (closure_balances hflat).moving
  · exact (arrowFunction_balances hflat).moving

theorem parenthesis_balances (hk : s.kind = .lParen) :
    Balances parenthesis s [] True False Node.NamesClasses := by
  refine .openNode fun o => .opens hk (by decide) (.inside .expression fun inner t => ?_)
  refine .require fun hk => .shuts hk (by decide) ?_
  exact .chain (.finish trivial fun _ _ => trivial) fun n u => lookupsOf_balances id

theorem simpleOperand_balances : Balances simpleOperand s [] True False Node.NamesClasses :=
  .some fun _ => .ite (fun _ => assignable_balances) fun _ =>
    .some fun _ => .ite (fun _ => literal_balances) fun _ => .missing

theorem keywordOperand_balances {k : TokenKind} (hk : s.kind = k) :
    Balances (keywordOperand k) s [] True False Node.NamesClasses := by
  unfold keywordOperand
  split
  case h_2 =>
    refine .begin (hk ▸ rfl) fun o => .bind (.node rfl) fun n t => ?_
    exact .finish trivial fun _ h => by simpa using h
  case h_8 => exact yieldOperation_balances (hk ▸ rfl)
  case h_10 => exact parenthesis_balances hk
  case h_11 =>
    exact .openNode fun o => .some fun raw => .flat (hk ▸ rfl) (.finish trivial fun _ _ => trivial)
  case h_12 =>
    exact .chain (listPattern_balances (by simp [hk])) fun list t => destructuring_balances
  case h_13 | h_14 => exact preUpdate_balances (hk ▸ rfl)
  case h_15 => exact newOperation_balances (hk ▸ rfl)
  case h_16 => exact issetOperation_balances (hk ▸ rfl)
  case h_17 | h_18 => exact withCondition_balances (hk ▸ rfl)
  case h_19 => exact exitOperation_balances (hk ▸ rfl)
  case h_20 => exact .openNode fun o => closure_balances (hk ▸ rfl)
  case h_21 => exact .openNode fun o => arrowFunction_balances (hk ▸ rfl)
  case h_22 =>
    refine .read (.ite (fun hnext => ?_) fun _ => simpleOperand_balances)
    refine staticFunction_balances (hk ▸ rfl) ?_
    simpa using hnext
  case h_23 => exact simpleOperand_balances
  all_goals exact withOperand_balances (hk ▸ rfl) fun n => by simp

theorem operand_balances : Balances operand s [] True False Node.NamesClasses := by
  refine .kind ?_
  split
  · next op _ hop => exact withOperand_balances (TokenKind.isFlat_of_some (by decide) hop) fun n => by simp
  · next type _ hop =>
    exact .some fun raw => withOperand_balances (TokenKind.isFlat_of_some (by decide) hop) fun n => by simp
  · exact keywordOperand_balances rfl

end PhpSyntax.Grammar
