import PhpSyntax.Grammar.Operation
import PhpSyntax.Proofs.Grammar.Literal
import PhpSyntax.Proofs.Layout.Declaration

namespace PhpSyntax

/-- Reading an array literal as a list is not a matter of layout. -/
theorem Node.erased_asPattern (n : Node) : n.asPattern.erased = n.erased.asPattern := by
  induction n using Node.induction with
  | step n ih =>
    obtain ⟨info, p⟩ := n
    cases p with
    | array items shortform =>
      cases shortform with
      | false => rfl
      | true =>
        have hitems : (allAsPattern items).map erased = allAsPattern (items.map erased) := by
          rw [allAsPattern_eq, allAsPattern_eq, List.map_map, List.map_map]
          refine List.map_congr_left fun c hc => ih c ?_
          simpa [children, Production.children, Production.fields, Field.children] using hc
        rw [asPattern, Production.asPattern, erased_mk, erased_mk, Production.map, Production.map,
          hitems]
        rfl
    | entry key value unpack =>
      have hvalue : value.asPattern.erased = value.erased.asPattern := by
        refine ih value ?_
        simp [children, Production.children, Production.fields, Field.children]
      rw [asPattern, Production.asPattern, erased_mk, erased_mk, Production.map, Production.map,
        hvalue]
      rfl
    | _ => rfl

theorem Node.asPattern_same {m n : Node} (h : m.erased = n.erased) :
    m.asPattern.erased = n.asPattern.erased := by
  rw [erased_asPattern, erased_asPattern, h]

namespace Grammar
open Alike

variable {A : Alignment}

/-! ## Arrays and lists -/

theorem openEntries_alike (shortform : Bool) :
    Alike A Eq (openEntries shortform) (openEntries shortform) :=
  .skip advance (.ite (.pure rfl) (.skip require (.pure rfl)))

theorem arrayLiteral_steady : Steady A Node.erased arrayLiteral := by
  refine .openNode fun o o' ho => .see isAt fun shortform => ?_
  refine .see (openEntries_alike _) fun close => .bind (nodes _) fun ms ns hs => ?_
  exact .finish ho (congrArg (Production.array · shortform) hs)

theorem listPattern_steady : Steady A Node.erased listPattern := by
  refine .openNode fun o o' ho => .see isAt fun shortform => ?_
  refine .see (openEntries_alike _) fun close => .bind (nodes _) fun ms ns hs => ?_
  exact .finish ho (congrArg (Production.list · shortform) hs)

theorem entryPart_steady (isPattern : Bool) : Steady A Node.erased (entryPart isPattern) := by
  refine .see kind fun k => ?_
  split
  · exact node _
  · exact .ite listPattern_steady expression
  · exact .ite listPattern_steady expression
  · exact expression

theorem entry_steady (isPattern : Bool) : Steady A Node.erased (entry isPattern) := by
  refine .openNode fun o o' ho => .test isAt ?_ ?_
  · refine .skip requireOption (.skip advance (.bind expression fun m n h => ?_))
    exact .finish ho (congrArg (Production.entry none · true) h)
  · refine .bind (entryPart_steady isPattern) fun first first' hfirst => ?_
    refine .bind (after (entryPart_steady isPattern)) fun value value' hvalue => ?_
    cases value with
    | none =>
      cases value' with
      | none => exact .finish ho (congrArg (Production.entry none · false) hfirst)
      | some value' => cases hvalue
    | some value =>
      cases value' with
      | none => cases hvalue
      | some value' =>
        refine .finish ho ?_
        simp only [Production.Like, Production.map, Option.map_some, hfirst,
          Option.some.inj hvalue]

theorem entries_steady (close : TokenKind) (isPattern : Bool) :
    Steady A (List.map Node.erased) (entries close isPattern) := by
  refine .see isAt fun _ => .see atEnd fun _ => .ite (.skip require (.pure rfl)) ?_
  refine .see isAt fun _ => .ite ?_ ?_
  · refine .openNode fun o o' ho => .bind (.finish ho rfl) fun m n h => .skip advance ?_
    exact .bind (nodes _) fun ms ns hs => .pure (cons_same h hs)
  · refine .bind (entry_steady isPattern) fun m n h => .test eat ?_ ?_
    · exact .bind (nodes _) fun ms ns hs => .pure (cons_same h hs)
    · exact .skip require (.pure (cons_same h rfl))

theorem scalar_steady : Steady A Node.erased scalar := by
  refine .see kind fun k => ?_
  split
  · exact arrayLiteral_steady
  · exact arrayLiteral_steady
  · refine .see text fun raw => ?_
    split
    · exact .begin fun o o' ho => .finish ho rfl
    · exact missing

/-! ## Operators between operands -/

theorem expressionFrom_steady (min : Nat) : Steady A Node.erased (expressionFrom min) :=
  .bind (node .operand) fun _ _ h => call (.infixes min h)

theorem infixOperation_alike (op : Infix) {left left' : Node} (h : left.erased = left'.erased) :
    Alike A Production.Like (infixOperation op left) (infixOperation op left') := by
  have hright {p q : Node → Production Node}
      (hpq : ∀ m n, m.erased = n.erased → (p m).Like (q n)) :
      Alike A Production.Like
        (Parser.call (.expression op.rightMin) >>= fun right => pure (p right))
        (Parser.call (.expression op.rightMin) >>= fun right => pure (q right)) :=
    .bind (node _) fun m n hmn => .pure (hpq m n hmn)
  cases op with
  | binary op =>
    refine .possibly requireOption (.skip advance (hright fun m n hmn => ?_))
    exact congrArg₂ (Production.bin op) h hmn
  | coalesce =>
    refine .skip requireOption (.skip advance (hright fun m n hmn => ?_))
    exact congrArg₂ Production.coalesce h hmn
  | ternary =>
    refine .skip advance (.test eat (hright fun m n hmn => ?_) ?_)
    · exact congrArg₂ (Production.ternary · none) h hmn
    · refine .bind expression fun middle middle' hmiddle => .skip require (hright fun m n hmn => ?_)
      simp only [Production.Like, Production.map, Option.map_some, h, hmiddle, hmn]

theorem infixes_alike (min : Nat) {left left' : Node} (h : left.erased = left'.erased) :
    Alike A (Same Node.erased) (infixes min left) (infixes min left') := by
  refine .see kind fun k => ?_
  split
  · exact .pure h
  · refine .ite (.pure h) (.openAt fun o o' ho => ?_)
    refine .bind (infixOperation_alike _ h) fun p q hpq => ?_
    exact .bind (.finish ho hpq) fun m n hmn => call (.infixes min hmn)

/-! ## Assignment -/

theorem isConstantName_erased (n : Node) : isConstantName n.erased = isConstantName n := by
  obtain ⟨info, p⟩ := n
  rw [Node.erased_mk]
  cases p <;> rfl

theorem assignment_alike {left left' : Node} (h : left.erased = left'.erased) (op : AssignOp) :
    Alike A (Same Node.erased) (assignment left op) (assignment left' op) := by
  have hconstant : isConstantName left = isConstantName left' := by
    rw [← isConstantName_erased left, h, isConstantName_erased]
  unfold assignment
  rw [hconstant]
  refine .openAt fun o o' ho => .possibly missing (.possibly requireOption ?_)
  refine .skip advance (.see isAt fun byRef => ?_)
  refine .join (node _) expression fun right right' hright => ?_
  exact .finish ho (congrArg₂ (Production.assign op) h hright)

theorem destructuring_alike {list list' : Node} (h : list.erased = list'.erased) :
    Alike A (Same Node.erased) (destructuring list) (destructuring list') := by
  refine .test isAt (assignment_alike h _) (.openAt fun o o' ho => ?_)
  refine .bind missing fun right right' hright => ?_
  exact .finish ho (congrArg₂ (Production.assign .assign) h hright)

theorem assignable_steady : Steady A Node.erased assignable := by
  refine .bind (node _) fun m n h => .see kind fun k => ?_
  split
  · exact assignment_alike h _
  · split
    · refine .openAt fun o o' ho => .skip advance ?_
      exact .finish ho (congrArg (Production.post _) h)
    · exact .pure h

def takesLookups (n : Node) : Bool :=
  match n.production with
  | .array .. | .string .. => true
  | _ => false

theorem takesLookups_erased (n : Node) : takesLookups n.erased = takesLookups n := by
  obtain ⟨info, p⟩ := n
  rw [Node.erased_mk]
  cases p <;> rfl

theorem literal_tail (n : Node) :
    (match n.production with
      | .array .. | .string .. => Parser.call (.lookups n false)
      | _ => pure n : Parser Node) =
      if takesLookups n = true then Parser.call (.lookups n false) else pure n := by
  obtain ⟨info, p⟩ := n
  cases p <;> rfl

theorem literal_steady : Steady A Node.erased literal := by
  refine .see isAt fun short => .bind scalar_steady fun m n h => .see isAt fun atEqual => ?_
  refine .ite (assignment_alike (Node.asPattern_same h) _) ?_
  have hlookups : takesLookups m = takesLookups n := by
    rw [← takesLookups_erased m, h, takesLookups_erased]
  refine (congrArg₂ (Alike A (Same Node.erased)) (literal_tail m) (literal_tail n)).mpr ?_
  rw [hlookups]
  exact .ite (Alike.lookups h) (.pure h)

/-! ## Operators and keywords before an operand -/

theorem withOperand_steady (min : Nat) {p : Node → Production Node}
    (hp : ∀ m n, m.erased = n.erased → (p m).Like (p n)) :
    Steady A Node.erased (withOperand min p) :=
  .begin fun _ _ ho => .bind (node _) fun m n h => .finish ho (hp m n h)

theorem yieldOperation_steady : Steady A Node.erased yieldOperation := by
  refine .begin fun o o' ho => .see kind fun k => .ite (.finish ho rfl) ?_
  refine .bind (node _) fun first first' hfirst => ?_
  refine .bind (after (node _)) fun value value' hvalue => ?_
  cases value with
  | none =>
    cases value' with
    | none => exact .finish ho (congrArg (fun n => Production.yield none (some n)) hfirst)
    | some value' => cases hvalue
  | some value =>
    cases value' with
    | none => cases hvalue
    | some value' =>
      exact .finish ho (congrArg₂ Production.yield (congrArg some hfirst) hvalue)

theorem preUpdate_steady (op : UpdateOp) : Steady A Node.erased (preUpdate op) :=
  .begin fun _ _ ho => .bind (node _) fun _ _ h => .finish ho (congrArg (Production.pre op) h)

theorem withCondition_steady {p : Node → Production Node}
    (hp : ∀ m n, m.erased = n.erased → (p m).Like (p n)) :
    Steady A Node.erased (withCondition p) :=
  .begin fun _ _ ho => .bind condition_steady fun m n h => .finish ho (hp m n h)

theorem issetOperation_steady : Steady A Node.erased issetOperation := by
  refine .begin fun o o' ho => .test expect ?_ (.finish ho rfl)
  exact .bind (delimited_steady _ _) fun ms ns hs => .finish ho (congrArg Production.isset hs)

theorem exitOperation_steady : Steady A Node.erased exitOperation := by
  refine .openNode fun o o' ho => .see text fun word => .skip advance (.test eat ?_ ?_)
  · refine .see isAt fun c => .bind (optionally expression) fun m n h => .skip require ?_
    exact .finish ho (congrArg (Production.exit · _) h)
  · exact .finish ho rfl

theorem instantiated_steady : Steady A Node.erased instantiated := by
  refine .see kind fun k => ?_
  split
  case h_7 => exact missing
  all_goals exact node _

theorem newOperation_steady : Steady A Node.erased newOperation := by
  refine .begin fun o o' ho => .test isAt ?_ ?_
  · refine .pair anonymousClass_steady fun m n ms ns h hs => ?_
    exact .finish ho (congrArg₂ Production.new h hs)
  · refine .bind instantiated_steady fun m n h => .bind argumentsIfAny_steady fun ms ns hs => ?_
    exact .finish ho (congrArg₂ Production.new h hs)

theorem staticFunction_steady : Steady A Node.erased staticFunction :=
  .begin fun _ _ ho => .test isAt (closure_alike ho true) (arrowFunction_alike ho true)

theorem parenthesis_steady : Steady A Node.erased parenthesis := by
  refine .begin fun o o' ho => .bind expression fun inner inner' hinner => .skip require ?_
  exact .bind (.finish ho (congrArg Production.parenthesis hinner)) fun m n h => Alike.lookups h

theorem shellCommand_steady : Steady A Node.erased shellCommand :=
  .openNode fun _ _ ho => .see text fun _ => .skip advance (.finish ho rfl)

theorem noOperand_steady : Steady A Node.erased noOperand :=
  .bind missing fun _ _ h => .see kind fun _ => .possibly advance (.pure h)

theorem simpleOperand_steady : Steady A Node.erased simpleOperand :=
  .test isIn assignable_steady (.test isIn literal_steady noOperand_steady)

theorem keywordOperand_steady (k : TokenKind) : Steady A Node.erased (keywordOperand k) := by
  unfold keywordOperand
  split
  case h_2 =>
    refine .begin fun o o' ho => .bind (node _) fun m n h => ?_
    exact .finish ho (congrArg Production.clone h)
  case h_8 => exact yieldOperation_steady
  case h_10 => exact parenthesis_steady
  case h_11 => exact shellCommand_steady
  case h_12 => exact .bind listPattern_steady fun m n h => destructuring_alike h
  case h_13 | h_14 => exact preUpdate_steady _
  case h_15 => exact newOperation_steady
  case h_16 => exact issetOperation_steady
  case h_17 => exact withCondition_steady fun m n h => congrArg Production.empty h
  case h_18 => exact withCondition_steady fun m n h => congrArg Production.eval h
  case h_19 => exact exitOperation_steady
  case h_20 => exact .openNode fun o o' ho => closure_alike ho false
  case h_21 => exact .openNode fun o o' ho => arrowFunction_alike ho false
  case h_22 => exact .see peek fun next => .ite staticFunction_steady simpleOperand_steady
  case h_23 => exact simpleOperand_steady
  case h_1 => exact withOperand_steady _ fun m n h => congrArg Production.silent h
  case h_3 => exact withOperand_steady _ fun m n h => congrArg Production.print h
  case h_4 | h_5 | h_6 | h_7 =>
    exact withOperand_steady _ fun m n h => congrArg (Production.include · _ _) h
  case h_9 => exact withOperand_steady _ fun m n h => congrArg Production.yieldFrom h

theorem operand_steady : Steady A Node.erased operand := by
  refine .see kind fun k => ?_
  split
  · exact withOperand_steady _ fun m n h => congrArg (Production.unary _) h
  · exact .see text fun raw => withOperand_steady _ fun m n h => congrArg (Production.cast _ raw) h
  · exact keywordOperand_steady k

end Grammar
end PhpSyntax
