import PhpSyntax.Grammar.ClassLike
import PhpSyntax.Proofs.Echo.Echoes

namespace PhpSyntax.Grammar
open Echoes Echo

variable {E : Echo} [E.Lawful] {A : E.Index → Prop}

/-! ## Names -/

theorem identifierHere_echoes : Echoes E A E.One identifierHere identifierHere :=
  .openNode fun _ => .see text fun _ => .skip advance (.finish fun _ _ => rfl)

theorem identifier_echoes : Echoes E A E.One identifier identifier :=
  .test isAt identifierHere_echoes missing

theorem memberName_echoes : Echoes E A E.One memberName memberName :=
  .see isAt fun _ => .see isIn fun _ => .ite identifierHere_echoes missing

theorem variableName_echoes : Echoes E A E.One variableName variableName := by
  apply Echoes.test isAt
  · exact .openNode fun o => .see text fun word => .skip advance (.finish fun _ _ => rfl)
  · exact missing

theorem segments_echoes : Echoes E A Equal segments segments := by
  refine .testAhead (fun next next' h => decide_eq_decide.mpr (h _ (by decide))) ?_
    (.pure fun _ _ => rfl)
  refine .skip advance (.see text fun word => .skip advance ?_)
  exact .see (call (r := .segments) fun _ _ => rfl) fun rest => .pure fun _ _ => rfl

theorem nameFrom_echoes {o : Opened} (lead : String) (resolution : NameResolution) :
    Echoes E A E.One (nameFrom o lead resolution) (nameFrom (E.opened o) lead resolution) := by
  apply Echoes.test isAt
  · refine .see text fun first => .skip advance ?_
    exact .see (call (r := .segments) fun _ _ => rfl) fun rest => .finish fun _ _ => rfl
  · exact .bind missing fun m n => .abandon fun _ h => h.2

theorem name_echoes : Echoes E A E.One name name := by
  apply Echoes.openNode
  intro o
  apply Echoes.test isAt
  · exact .skip advance (.skip require (nameFrom_echoes _ _))
  · exact .test eat (nameFrom_echoes _ _) (nameFrom_echoes _ _)

/-! ## Lists -/

theorem rebase_of_isPlain {r : Rule .node} (h : r.isPlain = true) (f : Node → Node) :
    r.rebase f = r := by
  cases r with
  | infixes => cases h
  | lookups => cases h
  | _ => rfl

theorem separated_echoes {mark : TokenKind} {item : Rule .node} (h : item.isPlain = true) :
    Echoes E A E.All (separated mark item) (separated mark item) := by
  apply Echoes.bind (node (rebase_of_isPlain h))
  intro m n
  apply Echoes.test eat
  · apply Echoes.bind (nodes fun _ => rfl)
    intro ms ns
    exact .pure fun i h => congrArg₂ List.cons h.1.2 h.2
  · exact .pure fun i h => congrArg (fun n => [n]) h.2

theorem delimited_echoes {close : TokenKind} {item : Rule .node} (h : item.isPlain = true) :
    Echoes E A E.All (delimited close item) (delimited close item) := by
  refine .see isAt fun _ => .see atEnd fun _ => .ite (.skip require (.pure fun _ _ => rfl)) ?_
  apply Echoes.bind (node (rebase_of_isPlain h))
  intro m n
  apply Echoes.test eat
  · apply Echoes.bind (nodes fun _ => rfl)
    intro ms ns
    exact .pure fun i h => congrArg₂ List.cons h.1.2 h.2
  · exact .skip require (.pure fun i h => congrArg (fun n => [n]) h.2)

/-- Where a statement begins goes with where it begins in the echo. -/
theorem statementList_echoes {ends : Parser Bool} {statement : Parser Node} {rest : Rule .nodes}
    (hrest : ∀ f, rest.rebase f = rest) (hends : Echoes E A Equal ends ends)
    (hstatement : ∀ {B : E.Index → Prop}, Echoes E B E.One statement statement) :
    Echoes E A E.All (statementList ends statement rest) (statementList ends statement rest) := by
  refine .see atEnd fun _ => .see hends fun _ => .ite (.pure fun _ _ => rfl) ?_
  have hstart : Echoes E A (fun _ p q => E.place p = q) (Parser.read (·.stream.current.start))
      (Parser.read (·.stream.current.start)) :=
    read fun _ _ _ _ hs _ => (Lawful.start hs).symm
  apply Echoes.bind hstart
  intro p q
  apply Echoes.bind hstatement
  intro m n
  apply Echoes.skip (forceProgress fun i h => h.1.2)
  apply Echoes.bind (nodes hrest)
  intro ms ns
  exact .pure fun i h => congrArg₂ List.cons h.1.2 h.2

theorem block_echoes : Echoes E A E.One block block := by
  apply Echoes.test isAt
  · refine .begin fun o => .bind (nodes fun _ => rfl) fun ms ns => .skip require ?_
    exact .finish fun i h => congrArg Production.block h.2
  · exact missing

theorem shortBlock_echoes (close : TokenKind) :
    Echoes E A E.One (shortBlock close) (shortBlock close) := by
  refine .openNode fun o => .skip require (.bind (nodes fun _ => rfl) fun ms ns => ?_)
  refine .skip require (.skip endStatement ?_)
  exact .finish fun i h => congrArg Production.block h.2

theorem condition_echoes : Echoes E A E.One condition condition := by
  apply Echoes.skip require
  apply Echoes.bind expression
  intro m n
  exact .skip require (.pure fun i h => h.2)

/-! ## Variables -/

theorem simpleVariable_echoes : Echoes E A E.One simpleVariable simpleVariable := by
  refine .openNode fun o => .see kind fun k => ?_
  split
  · exact .see text fun word => .skip advance (.finish fun _ _ => rfl)
  · apply Echoes.skip advance
    apply Echoes.test eat
    · refine .bind expression fun m n => .skip require (.finish fun i h => ?_)
      exact congrArg (fun n => Production.variable (.dynamic n)) h.2
    · refine .bind (node fun _ => rfl) fun m n => .finish fun i h => ?_
      exact congrArg (fun n => Production.variable (.dynamic n)) h.2
  · exact .bind missing fun m n => .abandon fun i h => h.2

theorem variableWithLookups_echoes (readOnly : Bool) :
    Echoes E A E.One (variableWithLookups readOnly) (variableWithLookups readOnly) := by
  have hname : Echoes E A E.One
      (Parser.call .name >>= fun n => Parser.kind >>= fun k =>
        Parser.call (.lookups (if k = .doubleColon || k = .lParen then n else literalConstant n)
          readOnly))
      (Parser.call .name >>= fun n => Parser.kind >>= fun k =>
        Parser.call (.lookups (if k = .doubleColon || k = .lParen then n else literalConstant n)
          readOnly)) := by
    refine .bind (node fun _ => rfl) fun m n => .see kind fun k => .lookups fun i h => ?_
    split
    · exact h.2
    · rw [image_literalConstant, h.2]
  refine .see kind fun k => ?_
  split
  · refine .begin fun o => .bind (node fun _ => rfl) fun m n => ?_
    exact .finish fun i h => congrArg Production.byRef h.2
  · exact .bind (node fun _ => rfl) fun m n => .lookups fun i h => h.2
  · exact .bind (node fun _ => rfl) fun m n => .lookups fun i h => h.2
  · refine .begin fun o => .bind (.finish fun _ _ => rfl) fun m n => ?_
    exact .lookups fun i h => h.2
  · exact hname
  · exact hname
  · exact hname
  · exact missing

theorem arguments_echoes : Echoes E A E.All arguments arguments :=
  .test expect (nodes fun _ => rfl) (.pure fun _ _ => rfl)

theorem argumentsIfAny_echoes : Echoes E A E.All argumentsIfAny argumentsIfAny :=
  .test isAt arguments_echoes (.pure fun _ _ => rfl)

theorem argument_echoes : Echoes E A E.One argument argument := by
  apply Echoes.test isAt
  · refine .begin fun o => .bind expression fun m n => ?_
    exact .finish fun i h => congrArg Production.variadic h.2
  · exact expression

theorem memberOf_echoes : Echoes E A E.One memberOf memberOf := by
  refine .see kind fun k => ?_
  split
  · exact node fun _ => rfl
  · exact node fun _ => rfl
  · exact memberName_echoes

theorem lookup?_echoes {base base' : Node} (h : ∀ i, A i → E.image i base = base')
    (readOnly : Bool) :
    Echoes E A E.Maybe (lookup? base readOnly) (lookup? base' readOnly) := by
  have hsome {B : E.Index → Prop} {o : Opened} {p q : Production Node}
      (hp : ∀ i, B i → E.Makes i p q) :
      Echoes E B E.Maybe (some <$> Parser.finish o p) (some <$> Parser.finish (E.opened o) q) :=
    .map (.finish hp) fun i m n _ hn => congrArg some hn
  refine .see kind fun k => ?_
  split
  · refine .ite (.pure fun _ _ => rfl) (.openAt h fun o => .bind arguments_echoes fun ms ns => ?_)
    exact hsome fun i hi => congrArg₂ Production.call (h i hi.1) hi.2
  · refine .openAt h fun o => .skip advance (.see isAt fun c => ?_)
    refine .bind (optionally expression) fun m n => .skip require ?_
    exact hsome fun i hi => congrArg₂ Production.offsetLookup (h i hi.1) hi.2
  · refine .given (P := takesBraceOffset base' = takesBraceOffset base) (fun i hi => ?_)
      fun hbrace => ?_
    · rw [← h i hi, takesBraceOffset_image]
    · rw [hbrace]
      refine .ite (.openAt h fun o => .skip advance ?_) (.pure fun _ _ => rfl)
      refine .bind expression fun m n => .skip require (hsome fun i hi => ?_)
      exact congrArg₂ Production.offsetLookup (h i hi.1) (congrArg some hi.2)
  · refine .openAt h fun o => .skip advance (.bind memberOf_echoes fun m n => ?_)
    exact hsome fun i hi => congrArg₂ Production.staticLookup (h i hi.1) hi.2
  · refine .openAt h fun o => .skip advance (.test eat ?_ ?_)
    · refine .bind expression fun m n => .skip require (hsome fun i hi => ?_)
      exact congrArg₂ Production.propertyLookup (h i hi.1) hi.2
    · refine .bind memberOf_echoes fun m n => hsome fun i hi => ?_
      exact congrArg₂ Production.propertyLookup (h i hi.1) hi.2
  · exact .pure fun _ _ => rfl

theorem lookups_echoes {base base' : Node} (h : ∀ i, A i → E.image i base = base')
    (readOnly : Bool) :
    Echoes E A E.One (Grammar.lookups base readOnly) (Grammar.lookups base' readOnly) := by
  apply Echoes.option (lookup?_echoes h readOnly)
  · exact .pure h
  · exact fun m n => .lookups fun i hi => hi.2

/-! ## Functions -/

theorem typeName_echoes : Echoes E A E.One typeName typeName := by
  refine .see kind fun k => ?_
  split
  · exact .openNode fun o => .see text fun word => .skip advance (.finish fun _ _ => rfl)
  · exact .openNode fun o => .see text fun word => .skip advance (.finish fun _ _ => rfl)
  · exact node fun _ => rfl

theorem returnType_echoes : Echoes E A (Both E.Maybe Equal) returnType returnType := by
  apply Echoes.test isAt
  · refine .skip requirePhp7 (.skip advance (.see eat fun nullable => ?_))
    exact .bind typeName_echoes fun m n => .pure fun i h => ⟨congrArg some h.2, rfl⟩
  · exact .pure fun _ _ => ⟨rfl, rfl⟩

theorem initialValue_echoes : Echoes E A E.Maybe initialValue initialValue := after expression

theorem parameter_echoes : Echoes E A E.One parameter parameter := by
  refine .openNode fun o => .see eat fun nullable => .see kind fun k => ?_
  refine .bind (optionally typeName_echoes) fun type type' => ?_
  refine .see eat fun byRef => .see eat fun isVariadic => ?_
  refine .bind variableName_echoes fun name name' => ?_
  refine .bind initialValue_echoes fun default default' => .finish ?_
  rintro i ⟨⟨⟨_, rfl⟩, rfl⟩, rfl⟩
  rfl

theorem parameters_echoes : Echoes E A E.All parameters parameters :=
  .test expect (delimited_echoes rfl) (.pure fun _ _ => rfl)

theorem functionDeclaration_echoes :
    Echoes E A E.One functionDeclaration functionDeclaration := by
  refine .begin fun o => .see eat fun byRef => ?_
  refine .bind identifier_echoes fun name name' => ?_
  refine .bind parameters_echoes fun ms ns => ?_
  refine .pair returnType_echoes fun type type' nullable nullable' => ?_
  refine .bind block_echoes fun body body' => .finish ?_
  rintro i ⟨⟨⟨⟨_, rfl⟩, rfl⟩, rfl, rfl⟩, rfl⟩
  rfl

theorem method_echoes {o : Opened} (m : Modifiers) :
    Echoes E A E.One (method o m) (method (E.opened o) m) := by
  have hoption : Echoes E A Equal (Parser.option Options.php7) (Parser.option Options.php7) :=
    read fun _ _ _ _ hs _ => (Lawful.php7 hs).symm
  refine .skip advance (.see eat fun byRef => .see hoption fun c => ?_)
  refine .join memberName_echoes identifier_echoes fun name name' => ?_
  refine .bind parameters_echoes fun ms ns => ?_
  refine .pair returnType_echoes fun type type' nullable nullable' => ?_
  apply Echoes.test isAt
  · refine .skip endStatement (.finish ?_)
    rintro i ⟨⟨⟨_, rfl⟩, rfl⟩, rfl, rfl⟩
    rfl
  · refine .bind block_echoes fun body body' => .finish ?_
    rintro i ⟨⟨⟨⟨_, rfl⟩, rfl⟩, rfl, rfl⟩, rfl⟩
    rfl

theorem lexicalVariable_echoes : Echoes E A E.One lexicalVariable lexicalVariable := by
  apply Echoes.test isAt
  · refine .begin fun o => .bind (node fun _ => rfl) fun m n => ?_
    exact .finish fun i h => congrArg Production.byRef h.2
  · exact node fun _ => rfl

theorem lexicalVariables_echoes : Echoes E A E.All lexicalVariables lexicalVariables :=
  .test eat (.test expect (delimited_echoes rfl) (.pure fun _ _ => rfl)) (.pure fun _ _ => rfl)

theorem closure_echoes {o : Opened} (isStatic : Bool) :
    Echoes E A E.One (closure o isStatic) (closure (E.opened o) isStatic) := by
  refine .skip advance (.see eat fun byRef => ?_)
  refine .bind parameters_echoes fun ms ns => ?_
  refine .bind lexicalVariables_echoes fun us vs => ?_
  refine .pair returnType_echoes fun type type' nullable nullable' => ?_
  refine .bind block_echoes fun body body' => .finish ?_
  rintro i ⟨⟨⟨⟨_, rfl⟩, rfl⟩, rfl, rfl⟩, rfl⟩
  rfl

theorem arrowFunction_echoes {o : Opened} (isStatic : Bool) :
    Echoes E A E.One (arrowFunction o isStatic) (arrowFunction (E.opened o) isStatic) := by
  refine .skip advance (.see eat fun byRef => ?_)
  refine .bind parameters_echoes fun ms ns => ?_
  refine .pair returnType_echoes fun type type' nullable nullable' => ?_
  refine .skip require (.bind expression fun body body' => .finish ?_)
  rintro i ⟨⟨⟨_, rfl⟩, rfl, rfl⟩, rfl⟩
  rfl

/-! ## Members -/

theorem memberModifiers_echoes (before : Modifiers) :
    Echoes E A Equal (memberModifiers before) (memberModifiers before) := by
  refine .test isIn (.see kind fun k => ?_) (.pure fun _ _ => rfl)
  have hrest (m : Modifiers) :
      Echoes E A Equal (Parser.advance >>= fun _ => Parser.call (.memberModifiers m))
        (Parser.advance >>= fun _ => Parser.call (.memberModifiers m)) :=
    .skip advance (call (r := .memberModifiers m) fun _ _ => rfl)
  obtain ⟨m, message⟩ := addModifier before k
  cases message with
  | some message => exact .skip objection (hrest m)
  | none => exact hrest m

theorem constant_echoes (reserved : Bool) :
    Echoes E A E.One (constant reserved) (constant reserved) := by
  refine .openNode fun o => .join memberName_echoes identifier_echoes fun name name' => ?_
  refine .skip require (.bind expression fun value value' => ?_)
  exact .finish fun i h => congrArg₂ Production.constant h.1.2 h.2

theorem property_echoes : Echoes E A E.One property property := by
  refine .openNode fun o => .bind variableName_echoes fun name name' => ?_
  refine .bind initialValue_echoes fun value value' => ?_
  exact .finish fun i h => congrArg₂ Production.property h.1.2 h.2

theorem propertyStatement_echoes {o : Opened} (m : Modifiers) :
    Echoes E A E.One (propertyStatement o m) (propertyStatement (E.opened o) m) := by
  have hrest {B : E.Index → Prop} (type type' : Option Node)
      (htype : ∀ i, B i → E.Maybe i type type') (nullable : Bool) :
      Echoes E B E.One
        (separated .comma .property >>= fun properties => Parser.endStatement >>= fun _ =>
          Parser.finish o (.propertyStatement properties m type nullable))
        (separated .comma .property >>= fun properties => Parser.endStatement >>= fun _ =>
          Parser.finish (E.opened o) (.propertyStatement properties m type' nullable)) := by
    refine .bind (separated_echoes rfl) fun ms ns => .skip endStatement (.finish fun i h => ?_)
    exact congrArg₂ (Production.propertyStatement · m · nullable) h.2 (htype i h.1)
  apply Echoes.test isAt
  · exact hrest none none (fun _ _ => rfl) false
  · refine .skip requirePhp74 (.see eat fun nullable => .bind typeName_echoes fun type type' => ?_)
    exact hrest (some type) (some type') (fun i h => congrArg some h.2) nullable

theorem classConstant_echoes {o : Opened} (m : Modifiers) :
    Echoes E A E.One (classConstant o m) (classConstant (E.opened o) m) := by
  refine .skip advance (.bind (separated_echoes rfl) fun ms ns => .skip endStatement ?_)
  exact .finish fun i h => congrArg (Production.classConstant · m) h.2

theorem braceGroup_echoes (depth : Nat) :
    Echoes E A Equal (braceGroup depth) (braceGroup depth) := by
  have hrest (depth : Nat) : Echoes E A Equal (Parser.call (.braceGroup depth))
      (Parser.call (.braceGroup depth)) :=
    call (r := .braceGroup depth) fun _ _ => rfl
  refine .see kind fun k => ?_
  split
  · exact .skip missing (.pure fun _ _ => rfl)
  · exact .skip advance (.ite (.pure fun _ _ => rfl) (hrest _))

/-- The adaptations lie between a place that the echo knows and the boundary. -/
theorem traitUse_echoes : Echoes E A E.One traitUse traitUse := by
  refine .begin fun o => .bind (separated_echoes rfl) fun ms ns => .test isAt ?_ ?_
  · have hstart {B : E.Index → Prop} : Echoes E B
        (fun _ lo lo' => ∃ p : Position, lo = p.offset ∧ lo' = (E.place p).offset)
        (Parser.read (·.stream.current.start.offset))
        (Parser.read (·.stream.current.start.offset)) :=
      read fun _ s t _ hs _ => ⟨s.stream.current.start, rfl, by rw [Lawful.start hs]⟩
    refine .bind hstart fun lo lo' => .skip (call (r := .braceGroup 0) fun _ _ => rfl) ?_
    refine .given (fun i h => h.2) fun ⟨p, hlo, hlo'⟩ => ?_
    have htext {B : E.Index → Prop} : Echoes E B Equal
        (Parser.read fun s => s.stream.textBetween lo s.stream.prev.offset)
        (Parser.read fun s => s.stream.textBetween lo' s.stream.prev.offset) := by
      intro w s t hA hs
      refine .done le_rfl (fun _ _ => ?_) hs
      rw [hlo, hlo']
      exact (Lawful.textBetween hs p).symm
    refine .see htext fun adaptations => .finish fun i h => ?_
    exact congrArg (Production.traitUse · (some adaptations)) h.1.2
  · exact .skip endStatement (.finish fun i h => congrArg (Production.traitUse · none) h.2)

theorem memberAfter_echoes {o : Opened} (m : Modifiers) :
    Echoes E A E.One (memberAfter o m) (memberAfter (E.opened o) m) := by
  refine .see kind fun k => .ite (classConstant_echoes m) (.ite (method_echoes m) (.ite
    (propertyStatement_echoes m) ?_))
  refine .bind missing fun n n' => .bind (.abandon fun i h => h.2) fun n n' => ?_
  exact .see kind fun k => .possibly advance (.pure fun i h => h.2)

theorem member_echoes : Echoes E A E.One member member := by
  apply Echoes.test isAt traitUse_echoes
  apply Echoes.openNode
  intro o
  apply Echoes.test eat (propertyStatement_echoes _)
  exact .see (call (r := .memberModifiers .none) fun _ _ => rfl) fun m => memberAfter_echoes m

theorem members_echoes : Echoes E A E.All members members :=
  statementList_echoes (fun _ => rfl) isAt member_echoes

/-! ## Classes -/

theorem classFlags_echoes (isAbstract isFinal : Bool) :
    Echoes E A Equal (classFlags isAbstract isFinal) (classFlags isAbstract isFinal) := by
  have hrest (isAbstract isFinal : Bool) :
      Echoes E A Equal (Parser.advance >>= fun _ => Parser.call (.classFlags isAbstract isFinal))
        (Parser.advance >>= fun _ => Parser.call (.classFlags isAbstract isFinal)) :=
    .skip advance (call (r := .classFlags isAbstract isFinal) fun _ _ => rfl)
  refine .see kind fun k => ?_
  split
  · exact .ite (.skip objection (hrest _ _)) (.ite (.skip objection (hrest _ _)) (hrest _ _))
  · exact .ite (.skip objection (hrest _ _)) (.ite (.skip objection (hrest _ _)) (hrest _ _))
  · exact .pure fun _ _ => rfl

theorem classBody_echoes : Echoes E A E.All classBody classBody := by
  refine .test expect ?_ (.pure fun _ _ => rfl)
  exact .bind (nodes fun _ => rfl) fun ms ns => .skip require (.pure fun i h => h.2)

theorem namesAfter_echoes (k : TokenKind) : Echoes E A E.All (namesAfter k) (namesAfter k) :=
  .test eat (separated_echoes rfl) (.pure fun _ _ => rfl)

theorem heritage_echoes : Echoes E A (Both E.Maybe E.All) heritage heritage := by
  refine .bind (after (node fun _ => rfl)) fun parent parent' => ?_
  exact .bind (namesAfter_echoes _) fun ms ns => .pure fun i h => ⟨h.1.2, h.2⟩

theorem classDeclaration_echoes : Echoes E A E.One classDeclaration classDeclaration := by
  refine .openNode fun o => .see (call (r := .classFlags false false) fun _ _ => rfl)
    fun flags => .test eat ?_ (.bind missing fun m n => .abandon fun i h => h.2)
  refine .bind identifier_echoes fun name name' => ?_
  refine .pair heritage_echoes fun parent parent' ms ns => ?_
  refine .bind classBody_echoes fun body body' => .finish ?_
  rintro i ⟨⟨⟨_, rfl⟩, rfl, rfl⟩, rfl⟩
  rfl

theorem anonymousClass_echoes : Echoes E A (Both E.One E.All) anonymousClass anonymousClass := by
  refine .begin fun o => .bind argumentsIfAny_echoes fun args args' => ?_
  refine .pair heritage_echoes fun parent parent' ms ns => ?_
  refine .bind classBody_echoes fun body body' => .bind (.finish ?_) fun m n => ?_
  · rintro i ⟨⟨⟨_, rfl⟩, rfl, rfl⟩, rfl⟩
    rfl
  · exact .pure fun i h => ⟨h.2, h.1.1.1.2⟩

theorem interfaceDeclaration_echoes :
    Echoes E A E.One interfaceDeclaration interfaceDeclaration := by
  refine .begin fun o => .bind identifier_echoes fun name name' => ?_
  refine .bind (namesAfter_echoes _) fun ms ns => .bind classBody_echoes fun body body' => ?_
  apply Echoes.finish
  rintro i ⟨⟨⟨_, rfl⟩, rfl⟩, rfl⟩
  rfl

theorem traitDeclaration_echoes : Echoes E A E.One traitDeclaration traitDeclaration := by
  refine .begin fun o => .bind identifier_echoes fun name name' => ?_
  refine .bind classBody_echoes fun body body' => ?_
  exact .finish fun i h => congrArg₂ Production.trait h.1.2 h.2

end PhpSyntax.Grammar
