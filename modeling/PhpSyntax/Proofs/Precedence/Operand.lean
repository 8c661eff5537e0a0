/-
Operands, and the operators between them.

Whatever an operand begins with, what it ends with is a node without an operator at its
top.  The operators behind an operand are read as long as they are tight enough: the one
where they stop is what the surrounding expression goes on with, so what has been read may
stand to its left (`infixes_gives`).
-/
import PhpSyntax.Parse.Machine
import PhpSyntax.Proofs.Precedence.Gives

namespace PhpSyntax.Grammar

/-! ## Names and variables -/

theorem nameFrom_gives {o : Opened} {lead : String} {resolution : NameResolution} :
    Gives (nameFrom o lead resolution) Node.IsAtom := by
  refine .last fun _ => .ite ?_ ?_
  · exact .last fun _ => .last fun _ => .last fun _ => .finish rfl
  · exact .bind .missing fun n hn => .abandon hn

theorem name_gives : Gives name Node.IsAtom := by
  refine .last fun o => .last fun _ => .ite ?_ ?_
  · exact .last fun _ => .last fun _ => nameFrom_gives
  · exact .last fun _ => .ite nameFrom_gives nameFrom_gives

theorem literalConstant_isAtom {n : Node} (h : n.IsAtom) : (literalConstant n).IsAtom := by
  unfold literalConstant
  split
  · split
    · rfl
    · rfl
    · rfl
    · exact h
  · exact h

theorem simpleVariable_gives : Gives simpleVariable Node.IsAtom := by
  refine .last fun o => .last fun k => ?_
  split
  · exact .last fun _ => .last fun _ => .finish rfl
  · refine .last fun _ => .last fun _ => .ite ?_ ?_
    · exact .last fun _ => .last fun _ => .finish rfl
    · exact .last fun _ => .finish rfl
  · exact .bind .missing fun n hn => .abandon hn

theorem lookups_call_gives {base : Node} (h : base.IsAtom) (readOnly : Bool) :
    Gives (Parser.call (.lookups base readOnly)) Node.IsAtom :=
  .call fun _ _ _ hn => hn h

theorem variableWithLookups_gives (readOnly : Bool) :
    Gives (variableWithLookups readOnly) Node.IsAtom := by
  refine .last fun k => ?_
  split
  case h_1 => exact .last fun _ => .last fun _ => .last fun _ => .finish rfl
  case h_2 | h_3 =>
    exact .bind (.call fun _ _ _ hn => hn) fun n hn => lookups_call_gives hn readOnly
  case h_4 =>
    refine .last fun o => .last fun _ => ?_
    exact .bind (.finish rfl) fun n hn => lookups_call_gives hn readOnly
  case h_5 | h_6 | h_7 =>
    refine .bind (.call fun _ _ _ hn => hn) fun n hn => .last fun k => ?_
    split
    · exact lookups_call_gives hn readOnly
    · exact lookups_call_gives (literalConstant_isAtom hn) readOnly
  case h_8 => exact .missing

theorem lookup?_gives (base : Node) (readOnly : Bool) :
    Gives (lookup? base readOnly) fun n => ∀ m ∈ n, m.IsAtom := by
  have hnone : Gives (pure (none : Option Node)) fun n => ∀ m ∈ n, m.IsAtom :=
    .pure fun m hm => nomatch hm
  have hsome {o : Opened} {p : Production Node} (hp : p.infix? = none) :
      Gives (some <$> Parser.finish o p) fun n => ∀ m ∈ n, m.IsAtom :=
    .map (.finish hp) fun n hn m hm => Option.some.inj hm ▸ hn
  refine .last fun k => ?_
  split
  · refine .ite hnone ?_
    exact .last fun _ => .last fun _ => hsome rfl
  · exact .last fun _ => .last fun _ => .last fun _ => .last fun _ => .last fun _ => hsome rfl
  · refine .ite ?_ hnone
    exact .last fun _ => .last fun _ => .last fun _ => .last fun _ => hsome rfl
  · exact .last fun _ => .last fun _ => .last fun _ => hsome rfl
  · refine .last fun _ => .last fun _ => .last fun _ => .ite ?_ ?_
    · exact .last fun _ => .last fun _ => hsome rfl
    · exact .last fun _ => hsome rfl
  · exact hnone

theorem lookups_gives {base : Node} (h : base.IsAtom) (readOnly : Bool) :
    Gives (lookups base readOnly) Node.IsAtom := by
  refine .bind (lookup?_gives base readOnly) fun n hn => ?_
  cases n with
  | none => exact .pure h
  | some n => exact lookups_call_gives (hn n rfl) readOnly

/-! ## Literals and assignments -/

theorem literal?_infix? {k : TokenKind} {raw : String} {p : Production Node}
    (h : literal? k raw = some p) : p.infix? = none := by
  unfold literal? at h
  split at h
  case h_5 =>
    cases h
    unfold heredocLiteral
    split
    · rfl
    · rfl
  case h_6 =>
    split at h
    · cases h
      rfl
    · cases h
  all_goals
    cases h
    rfl

theorem scalar_gives : Gives scalar Node.IsAtom := by
  have harray : Gives arrayLiteral Node.IsAtom :=
    .last fun _ => .last fun _ => .last fun _ => .last fun _ => .finish rfl
  refine .last fun k => ?_
  split
  · exact harray
  · exact harray
  · refine .last fun raw => ?_
    split
    · next p hp => exact .last fun _ => .last fun _ => .finish (literal?_infix? hp)
    · exact .missing

theorem assignment_gives (left : Node) (op : AssignOp) :
    Gives (assignment left op) Node.IsAtom := by
  refine .last fun o => .possibly (.possibly (.last fun _ => .last fun byRef => ?_))
  exact .ite (.last fun _ => .finish rfl) (.last fun _ => .finish rfl)

theorem destructuring_gives (list : Node) : Gives (destructuring list) Node.IsAtom := by
  refine .last fun _ => .ite (assignment_gives list .assign) ?_
  exact .last fun _ => .last fun _ => .finish rfl

theorem assignable_gives : Gives assignable Node.IsAtom := by
  refine .bind (.call fun _ _ _ hn => hn) fun target htarget => .last fun k => ?_
  split
  · exact assignment_gives _ _
  · split
    · exact .last fun _ => .last fun _ => .finish rfl
    · exact .pure htarget

theorem literal_gives : Gives literal Node.IsAtom := by
  refine .last fun short => .bind scalar_gives fun n hn => .last fun _ => .ite ?_ ?_
  · exact assignment_gives _ _
  · split
    · exact lookups_call_gives hn false
    · exact lookups_call_gives hn false
    · exact .pure hn

/-! ## Operators and keywords before an operand -/

theorem withOperand_gives {min : Nat} {p : Node → Production Node}
    (hp : ∀ n, (p n).infix? = none) : Gives (withOperand min p) Node.IsAtom :=
  .last fun _ => .last fun _ => .last fun n => .finish (hp n)

theorem withCondition_gives {p : Node → Production Node} (hp : ∀ n, (p n).infix? = none) :
    Gives (withCondition p) Node.IsAtom :=
  .last fun _ => .last fun _ => .last fun n => .finish (hp n)

theorem yieldOperation_gives : Gives yieldOperation Node.IsAtom := by
  refine .last fun o => .last fun _ => .last fun k => .ite (.finish rfl) ?_
  refine .last fun first => .last fun value => ?_
  split
  · exact .finish rfl
  · exact .finish rfl

theorem issetOperation_gives : Gives issetOperation Node.IsAtom := by
  refine .last fun o => .last fun _ => .last fun _ => .ite ?_ ?_
  · exact .last fun _ => .finish rfl
  · exact .finish rfl

theorem exitOperation_gives : Gives exitOperation Node.IsAtom := by
  refine .last fun o => .last fun word => .last fun _ => .last fun _ => .ite ?_ (.finish rfl)
  exact .last fun _ => .last fun _ => .last fun _ => .finish rfl

theorem newOperation_gives : Gives newOperation Node.IsAtom := by
  refine .last fun o => .last fun _ => .last fun _ => .ite ?_ ?_
  · exact .last fun _ => .finish rfl
  · exact .last fun _ => .last fun _ => .finish rfl

theorem closure_gives {o : Opened} {isStatic : Bool} : Gives (closure o isStatic) Node.IsAtom :=
  .last fun _ => .last fun _ => .last fun _ => .last fun _ => .last fun _ => .last fun _ =>
    .finish rfl

theorem arrowFunction_gives {o : Opened} {isStatic : Bool} :
    Gives (arrowFunction o isStatic) Node.IsAtom :=
  .last fun _ => .last fun _ => .last fun _ => .last fun _ => .last fun _ => .last fun _ =>
    .finish rfl

theorem parenthesis_gives : Gives parenthesis Node.IsAtom := by
  refine .last fun o => .last fun _ => .last fun inner => .last fun _ => ?_
  exact .bind (.finish rfl) fun n hn => lookups_call_gives hn false

theorem noOperand_gives : Gives noOperand Node.IsAtom :=
  .bind .missing fun _ hn => .last fun _ => .possibly (.pure hn)

theorem simpleOperand_gives : Gives simpleOperand Node.IsAtom :=
  .last fun _ => .ite assignable_gives (.last fun _ => .ite literal_gives noOperand_gives)

theorem keywordOperand_gives (k : TokenKind) : Gives (keywordOperand k) Node.IsAtom := by
  unfold keywordOperand
  split
  case h_2 => exact .last fun _ => .last fun _ => .last fun _ => .finish rfl
  case h_8 => exact yieldOperation_gives
  case h_10 => exact parenthesis_gives
  case h_11 => exact .last fun _ => .last fun _ => .last fun _ => .finish rfl
  case h_12 => exact .last fun list => destructuring_gives list
  case h_13 | h_14 => exact .last fun _ => .last fun _ => .last fun _ => .finish rfl
  case h_15 => exact newOperation_gives
  case h_16 => exact issetOperation_gives
  case h_17 | h_18 => exact withCondition_gives fun _ => rfl
  case h_19 => exact exitOperation_gives
  case h_20 => exact .last fun _ => closure_gives
  case h_21 => exact .last fun _ => arrowFunction_gives
  case h_22 =>
    refine .last fun next => .ite ?_ simpleOperand_gives
    exact .last fun _ => .last fun _ => .last fun _ => .ite closure_gives arrowFunction_gives
  case h_23 => exact simpleOperand_gives
  all_goals exact withOperand_gives fun _ => rfl

theorem operand_gives : Gives operand Node.IsAtom := by
  refine .last fun k => ?_
  split
  · exact withOperand_gives fun _ => rfl
  · exact .last fun _ => withOperand_gives fun _ => rfl
  · exact keywordOperand_gives k

/-! ## Operators between operands -/

/-- The production of an operator has what was read before to its left, and to its right
what is as tight as it has to be; the operator that comes next is less tight than that. -/
theorem infixOperation_gives (op : Infix) (left : Node) (s : ParseState) :
    (infixOperation op left s).Gives fun p t =>
      (∃ right, p.infix? = some (op, left, right) ∧ right.binds op.rightMin = true) ∧
        t.StopsAt op.rightMin := by
  have hright {p : Node → Production Node}
      (hp : ∀ right, (p right).infix? = some (op, left, right)) (t : ParseState) :
      ((Parser.call (.expression op.rightMin) >>= fun right => pure (p right)) t).Gives fun p t =>
        (∃ right, p.infix? = some (op, left, right) ∧ right.binds op.rightMin = true) ∧
          t.StopsAt op.rightMin :=
    fun right _ ⟨hbinds, hstop⟩ => ⟨⟨right, hp right, hbinds⟩, hstop⟩
  cases op with
  | binary op =>
    by_cases hspaceship : op = .spaceship
    · rw [infixOperation, if_pos hspaceship]
      exact Step.Gives.last (fun _ => .last fun _ => hright fun _ => rfl) s
    · rw [infixOperation, if_neg hspaceship]
      exact Step.Gives.last (fun _ => hright fun _ => rfl) s
  | coalesce => exact Step.Gives.last (fun _ => .last fun _ => hright fun _ => rfl) s
  | ternary =>
    refine Step.Gives.last (fun _ => .last fun shortened t => ?_) s
    cases shortened with
    | true => exact hright (fun _ => rfl) t
    | false => exact Step.Gives.last (fun _ => .last fun _ => hright fun _ => rfl) t

/-- What has been read fits what comes next, behind one more operator. -/
theorem fits_behind {min : Nat} {op : Infix} {n : Node} {t : ParseState}
    (hop : n.operator? = some op) (hmin : min ≤ op.precedence) (ht : t.StopsAt op.rightMin) :
    n.Fits min t where
  binds := Node.binds_of_some hop hmin
  left := fun next hnext _ => Node.binds_of_some hop (Infix.leftMin_le_of_lt (ht next hnext))

theorem infixes_gives {min : Nat} {left : Node} {s : ParseState} (h : left.Fits min s) :
    (infixes min left s).Gives fun n t => n.binds min = true ∧ t.StopsAt min := by
  refine .kind ?_
  cases hop : Infix.ofToken? s.kind with
  | none =>
    refine ⟨h.binds, fun next hnext => ?_⟩
    rw [hop] at hnext
    cases hnext
  | some op =>
    by_cases hlt : op.precedence < min
    · simp only [if_pos hlt]
      refine ⟨h.binds, fun next hnext => ?_⟩
      rw [hop] at hnext
      exact Option.some.inj hnext ▸ hlt
    · simp only [if_neg hlt]
      refine Step.Gives.last (fun o t => ?_) s
      refine (infixOperation_gives op left t).bind fun p u hpu v y hv => ?_
      obtain ⟨⟨right, hp, _⟩, hstop⟩ := hpu
      have hn : (Node.mk (u.finishNode o).1 p).operator? = some op := by
        rw [Node.operator?, hp]
        rfl
      exact hv (fits_behind hn (Nat.le_of_not_lt hlt) hstop)

theorem expressionFrom_gives (min : Nat) (s : ParseState) :
    (expressionFrom min s).Gives fun n t => n.binds min = true ∧ t.StopsAt min :=
  fun _ t hleft _ _ hv => hv (hleft.fits min t)

end Grammar

/-- Every rule yields what it promises. -/
theorem Rule.body_gives {c : Shape} (r : Rule c) (s : ParseState) :
    (r.body s).Gives (r.Gives s) := by
  cases r with
  | operand => exact Grammar.operand_gives s
  | «variable» readOnly => exact Grammar.variableWithLookups_gives readOnly s
  | simpleVariable => exact Grammar.simpleVariable_gives s
  | name => exact Grammar.name_gives s
  | expression min => exact Grammar.expressionFrom_gives min s
  | lookups base readOnly =>
    by_cases h : base.IsAtom
    · exact (Grammar.lookups_gives h readOnly s).mono fun _ _ hn _ => hn
    · exact (Step.Gives.trivially _).mono fun _ _ _ hbase => absurd hbase h
  | infixes min left =>
    by_cases h : left.Fits min s
    · exact (Grammar.infixes_gives h).mono fun _ _ hn _ => hn
    · exact (Step.Gives.trivially _).mono fun _ _ _ hleft => absurd hleft h
  | _ => exact Step.Gives.trivially _

theorem Rule.run_gives (depth : Nat) {c : Shape} {r : Rule c} {s t : ParseState} {v : c.Value}
    (h : Rule.run depth c r s = .ok (v, t)) : r.Gives s v t := by
  induction depth generalizing c s t with
  | zero => cases h
  | succ depth ih => exact (r.body_gives s).eval ih h

end PhpSyntax
