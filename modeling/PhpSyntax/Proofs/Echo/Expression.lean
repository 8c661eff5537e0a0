import PhpSyntax.Grammar.Operation
import PhpSyntax.Proofs.Echo.Declaration

namespace PhpSyntax.Grammar
open Echoes Echo

variable {E : Echo} {A : E.Index → Prop}

/-- A literal of one token has no children. -/
theorem literal?_makes_same {k : TokenKind} {raw : String} {p : Production Node} {i : E.Index}
    (h : literal? k raw = some p) : E.Makes i p p := by
  unfold literal? at h
  split at h <;> try
    cases h
    rfl
  · cases h
    unfold heredocLiteral
    split <;> rfl
  · split at h <;> cases h
    rfl

theorem expressionFrom_echoes (min : Nat) :
    Echoes E A E.One (expressionFrom min) (expressionFrom min) :=
  .bind (node fun _ => rfl) fun _ _ => .infixes fun _ h => h.2

variable [E.Lawful]

/-! ## Arrays and lists -/

theorem openEntries_echoes (shortform : Bool) :
    Echoes E A Equal (openEntries shortform) (openEntries shortform) :=
  .skip advance (.ite (.pure fun _ _ => rfl) (.skip require (.pure fun _ _ => rfl)))

theorem arrayLiteral_echoes : Echoes E A E.One arrayLiteral arrayLiteral := by
  refine .openNode fun o => .see isAt fun shortform => ?_
  refine .see (openEntries_echoes _) fun close => .bind (nodes fun _ => rfl) fun ms ns => ?_
  exact .finish fun i h => congrArg (Production.array · shortform) h.2

theorem listPattern_echoes : Echoes E A E.One listPattern listPattern := by
  refine .openNode fun o => .see isAt fun shortform => ?_
  refine .see (openEntries_echoes _) fun close => .bind (nodes fun _ => rfl) fun ms ns => ?_
  exact .finish fun i h => congrArg (Production.list · shortform) h.2

theorem entryPart_echoes (isPattern : Bool) :
    Echoes E A E.One (entryPart isPattern) (entryPart isPattern) := by
  refine .see kind fun k => ?_
  split
  · exact node fun _ => rfl
  · exact .ite listPattern_echoes expression
  · exact .ite listPattern_echoes expression
  · exact expression

theorem entry_echoes (isPattern : Bool) : Echoes E A E.One (entry isPattern) (entry isPattern) := by
  refine .openNode fun o => .test isAt ?_ ?_
  · refine .skip requirePhp74 (.skip advance (.bind expression fun m n => .finish fun i h => ?_))
    exact congrArg (Production.entry none · true) h.2
  · refine .bind (entryPart_echoes isPattern) fun first first' => ?_
    apply Echoes.option (after (entryPart_echoes isPattern))
    · exact .finish fun i h => congrArg (Production.entry none · false) h.2
    · intro value value'
      apply Echoes.finish
      rintro i ⟨⟨_, rfl⟩, rfl⟩
      rfl

theorem entries_echoes (close : TokenKind) (isPattern : Bool) :
    Echoes E A E.All (entries close isPattern) (entries close isPattern) := by
  refine .see isAt fun _ => .see atEnd fun _ => .ite (.skip require (.pure fun _ _ => rfl)) ?_
  refine .see isAt fun _ => .ite ?_ ?_
  · refine .openNode fun o => .bind (.finish fun _ _ => rfl) fun m n => .skip advance ?_
    refine .bind (nodes fun _ => rfl) fun ms ns => .pure fun i h => ?_
    exact congrArg₂ List.cons h.1.2 h.2
  · refine .bind (entry_echoes isPattern) fun m n => .test eat ?_ ?_
    · refine .bind (nodes fun _ => rfl) fun ms ns => .pure fun i h => ?_
      exact congrArg₂ List.cons h.1.2 h.2
    · exact .skip require (.pure fun i h => congrArg (fun n => [n]) h.2)

theorem scalar_echoes : Echoes E A E.One scalar scalar := by
  refine .see kind fun k => ?_
  split
  · exact arrayLiteral_echoes
  · exact arrayLiteral_echoes
  · refine .see text fun raw => ?_
    split
    · next p hp => exact .begin fun o => .finish fun i _ => literal?_makes_same hp
    · exact missing

/-! ## Operators between operands -/

theorem infixOperation_echoes (op : Infix) {left left' : Node}
    (h : ∀ i, A i → E.image i left = left') :
    Echoes E A E.Makes (infixOperation op left) (infixOperation op left') := by
  have hright {B : E.Index → Prop} {p q : Node → Production Node}
      (hpq : ∀ i m n, B i → E.One i m n → E.Makes i (p m) (q n)) :
      Echoes E B E.Makes
        (Parser.call (.expression op.rightMin) >>= fun right => pure (p right))
        (Parser.call (.expression op.rightMin) >>= fun right => pure (q right)) :=
    .bind (node fun _ => rfl) fun m n => .pure fun i hi => hpq i m n hi.1 hi.2
  cases op with
  | binary op =>
    refine .possibly requirePhp7 (.skip advance (hright fun i m n hi hmn => ?_))
    exact congrArg₂ (Production.bin op) (h i hi) hmn
  | coalesce =>
    refine .skip requirePhp7 (.skip advance (hright fun i m n hi hmn => ?_))
    exact congrArg₂ Production.coalesce (h i hi) hmn
  | ternary =>
    refine .skip advance (.test eat (hright fun i m n hi hmn => ?_) ?_)
    · exact congrArg₂ (Production.ternary · none) (h i hi) hmn
    · refine .bind expression fun middle middle' => .skip require (hright ?_)
      rintro i m n ⟨hi, rfl⟩ rfl
      rw [← h i hi]
      rfl

theorem infixes_echoes (min : Nat) {left left' : Node}
    (h : ∀ i, A i → E.image i left = left') :
    Echoes E A E.One (infixes min left) (infixes min left') := by
  refine .see kind fun k => ?_
  split
  · exact .pure h
  · refine .ite (.pure h) (.openAt h fun o => ?_)
    refine .bind (infixOperation_echoes _ h) fun p q => ?_
    exact .bind (.finish fun i hi => hi.2) fun m n => .infixes fun i hi => hi.2

/-! ## Assignment -/

theorem assignment_echoes {left left' : Node} (h : ∀ i, A i → E.image i left = left')
    (op : AssignOp) : Echoes E A E.One (assignment left op) (assignment left' op) := by
  refine .given (P := isConstantName left' = isConstantName left) (fun i hi => ?_)
    fun hconstant => ?_
  · rw [← h i hi, isConstantName_image]
  · unfold assignment
    rw [hconstant]
    refine .openAt h fun o => .possibly missing (.possibly requirePhp74 ?_)
    refine .skip advance (.see isAt fun byRef => ?_)
    refine .join (node fun _ => rfl) expression fun right right' => ?_
    exact .finish fun i hi => congrArg₂ (Production.assign op) (h i hi.1) hi.2

theorem destructuring_echoes {list list' : Node} (h : ∀ i, A i → E.image i list = list') :
    Echoes E A E.One (destructuring list) (destructuring list') := by
  apply Echoes.test isAt (assignment_echoes h _)
  refine .openAt h fun o => .bind missing fun right right' => ?_
  exact .finish fun i hi => congrArg₂ (Production.assign .assign) (h i hi.1) hi.2

theorem assignable_echoes : Echoes E A E.One assignable assignable := by
  refine .bind (node fun _ => rfl) fun m n => .see kind fun k => ?_
  split
  · exact assignment_echoes (fun i h => h.2) _
  · split
    · refine .openAt (fun i h => h.2) fun o => .skip advance ?_
      exact .finish fun i h => congrArg (Production.post _) h.2
    · exact .pure fun i h => h.2

theorem literal_echoes : Echoes E A E.One literal literal := by
  refine .see isAt fun short => .bind scalar_echoes fun m n => .see isAt fun atEqual => ?_
  refine .ite (assignment_echoes (fun i h => ?_) _) ?_
  · rw [image_asPattern, h.2]
  · refine .given (P := takesLookups n = takesLookups m) (fun i h => ?_) fun hlookups => ?_
    · rw [← h.2, takesLookups_image]
    · refine (congrArg₂ (Echoes E _ E.One) (literal_tail m) (literal_tail n)).mpr ?_
      rw [hlookups]
      exact .ite (.lookups fun i h => h.2) (.pure fun i h => h.2)

/-! ## Operators and keywords before an operand -/

theorem withOperand_echoes (min : Nat) {p : Node → Production Node}
    (hp : ∀ i n, E.Makes i (p n) (p (E.image i n))) :
    Echoes E A E.One (withOperand min p) (withOperand min p) := by
  refine .begin fun o => .bind (node fun _ => rfl) fun m n => .finish ?_
  rintro i ⟨_, rfl⟩
  exact hp i m

theorem yieldOperation_echoes : Echoes E A E.One yieldOperation yieldOperation := by
  refine .begin fun o => .see kind fun k => .ite (.finish fun _ _ => rfl) ?_
  refine .bind (node fun _ => rfl) fun first first' => ?_
  apply Echoes.option (after (node fun _ => rfl))
  · exact .finish fun i h => congrArg (fun n => Production.yield none (some n)) h.2
  · intro value value'
    apply Echoes.finish
    rintro i ⟨⟨_, rfl⟩, rfl⟩
    rfl

theorem preUpdate_echoes (op : UpdateOp) : Echoes E A E.One (preUpdate op) (preUpdate op) :=
  .begin fun _ => .bind (node fun _ => rfl) fun _ _ =>
    .finish fun _ h => congrArg (Production.pre op) h.2

theorem withCondition_echoes {p : Node → Production Node}
    (hp : ∀ i n, E.Makes i (p n) (p (E.image i n))) :
    Echoes E A E.One (withCondition p) (withCondition p) := by
  refine .begin fun o => .bind condition_echoes fun m n => .finish ?_
  rintro i ⟨_, rfl⟩
  exact hp i m

theorem issetOperation_echoes : Echoes E A E.One issetOperation issetOperation := by
  refine .begin fun o => .test expect ?_ (.finish fun _ _ => rfl)
  refine .bind (delimited_echoes rfl) fun ms ns => ?_
  exact .finish fun i h => congrArg Production.isset h.2

theorem exitOperation_echoes : Echoes E A E.One exitOperation exitOperation := by
  refine .openNode fun o => .see text fun word => .skip advance (.test eat ?_ ?_)
  · refine .see isAt fun c => .bind (optionally expression) fun m n => .skip require ?_
    exact .finish fun i h => congrArg (Production.exit · _) h.2
  · exact .finish fun _ _ => rfl

theorem instantiated_echoes : Echoes E A E.One instantiated instantiated := by
  refine .see kind fun k => ?_
  split
  case h_7 => exact missing
  all_goals exact node fun _ => rfl

theorem newOperation_echoes : Echoes E A E.One newOperation newOperation := by
  refine .begin fun o => .test isAt ?_ ?_
  · refine .pair anonymousClass_echoes fun m n ms ns => ?_
    exact .finish fun i h => congrArg₂ Production.new h.2.1 h.2.2
  · refine .bind instantiated_echoes fun m n => .bind argumentsIfAny_echoes fun ms ns => ?_
    exact .finish fun i h => congrArg₂ Production.new h.1.2 h.2

theorem staticFunction_echoes : Echoes E A E.One staticFunction staticFunction :=
  .begin fun _ => .test isAt (closure_echoes true) (arrowFunction_echoes true)

theorem parenthesis_echoes : Echoes E A E.One parenthesis parenthesis := by
  refine .begin fun o => .bind expression fun inner inner' => .skip require ?_
  refine .bind (.finish fun i h => ?_) fun m n => .lookups fun i h => h.2
  exact congrArg Production.parenthesis h.2

theorem shellCommand_echoes : Echoes E A E.One shellCommand shellCommand :=
  .openNode fun _ => .see text fun _ => .skip advance (.finish fun _ _ => rfl)

theorem noOperand_echoes : Echoes E A E.One noOperand noOperand :=
  .bind missing fun _ _ => .see kind fun _ => .possibly advance (.pure fun _ h => h.2)

theorem simpleOperand_echoes : Echoes E A E.One simpleOperand simpleOperand :=
  .test isIn assignable_echoes (.test isIn literal_echoes noOperand_echoes)

/-- An operand that the current token begins. -/
theorem keywordOperand_echoes {k : TokenKind} {w : E.Index} {s t : ParseState} (hk : s.kind = k)
    (hA : ∀ i, w ≤ i → A i) (hs : E.States w s t) :
    (keywordOperand k s).Echoes E E.One w (keywordOperand k t) := by
  have follow {p : Parser Node} (hp : Echoes E A E.One p p) : (p s).Echoes E E.One w (p t) :=
    hp w s t hA hs
  unfold keywordOperand
  split
  case h_2 =>
    refine follow (.begin fun o => .bind (node fun _ => rfl) fun m n => ?_)
    exact .finish fun i h => congrArg Production.clone h.2
  case h_8 => exact follow yieldOperation_echoes
  case h_10 => exact follow parenthesis_echoes
  case h_11 => exact follow shellCommand_echoes
  case h_12 =>
    exact follow (.bind listPattern_echoes fun m n => destructuring_echoes fun i h => h.2)
  case h_13 | h_14 => exact follow (preUpdate_echoes _)
  case h_15 => exact follow newOperation_echoes
  case h_16 => exact follow issetOperation_echoes
  case h_17 | h_18 => exact follow (withCondition_echoes fun _ _ => rfl)
  case h_19 => exact follow exitOperation_echoes
  case h_20 => exact follow (.openNode fun o => closure_echoes false)
  case h_21 => exact follow (.openNode fun o => arrowFunction_echoes false)
  case h_22 =>
    have hpeek : TokenKind.Blurs .kwStatic s.stream.peek t.stream.peek := hk ▸ Lawful.peek hs
    have hfunction := hpeek .kwFunction (by decide)
    have hfn := hpeek .kwFn (by decide)
    show ((if s.stream.peek = .kwFunction || s.stream.peek = .kwFn then staticFunction
      else simpleOperand) s).Echoes E E.One w
        ((if t.stream.peek = .kwFunction || t.stream.peek = .kwFn then staticFunction
          else simpleOperand) t)
    rw [decide_eq_decide.mpr hfunction, decide_eq_decide.mpr hfn]
    exact follow (.ite staticFunction_echoes simpleOperand_echoes)
  case h_23 => exact follow simpleOperand_echoes
  all_goals exact follow (withOperand_echoes _ fun _ _ => rfl)

theorem operand_echoes : Echoes E A E.One operand operand := by
  have hcast (type : CastType) : Echoes E A E.One
      (Parser.text >>= fun raw => withOperand castOperandMin (.cast type raw))
      (Parser.text >>= fun raw => withOperand castOperandMin (.cast type raw)) :=
    .see text fun raw => withOperand_echoes _ fun _ _ => rfl
  apply Echoes.atKind
  intro k w s t hk hA hs
  cases UnaryOp.ofToken? k with
  | some op =>
    have hunary : Echoes E A E.One (withOperand op.operandMin (.unary op))
        (withOperand op.operandMin (.unary op)) :=
      withOperand_echoes _ fun _ _ => rfl
    exact hunary w s t hA hs
  | none =>
    cases CastType.ofToken? k with
    | some type => exact hcast type w s t hA hs
    | none => exact keywordOperand_echoes hk hA hs

end PhpSyntax.Grammar
