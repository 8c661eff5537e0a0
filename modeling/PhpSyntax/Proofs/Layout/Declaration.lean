import PhpSyntax.Grammar.ClassLike
import PhpSyntax.Proofs.Layout.Alike

namespace PhpSyntax.Grammar
open Alike

variable {A : Alignment}

/-! ## Names -/

theorem identifierHere_steady : Steady A Node.erased identifierHere :=
  .openNode fun _ _ ho => .see text fun _ => .skip advance (.finish ho rfl)

theorem identifier_steady : Steady A Node.erased identifier :=
  .test isAt identifierHere_steady missing

theorem memberName_steady : Steady A Node.erased memberName :=
  .see isAt fun _ => .see isIn fun _ => .ite identifierHere_steady missing

theorem variableName_steady : Steady A Node.erased variableName := by
  refine .test isAt ?_ missing
  exact .openNode fun _ _ ho => .see text fun _ => .skip advance (.finish ho rfl)

theorem segments_alike : Alike A Eq segments segments := by
  refine .see isAt fun _ => .see peek fun _ => .ite ?_ (.pure rfl)
  refine .skip advance (.see text fun word => .skip advance ?_)
  exact .see (call (.same .segments)) fun _ => .pure rfl

theorem nameFrom_alike {o o' : Opened} (ho : o.leading = o'.leading) (lead : String)
    (resolution : NameResolution) :
    Alike A (Same Node.erased) (nameFrom o lead resolution) (nameFrom o' lead resolution) := by
  refine .test isAt ?_ ?_
  · refine .see text fun first => .skip advance ?_
    exact .see (call (.same .segments)) fun rest => .finish ho rfl
  · exact .bind missing fun m n h => abandon ho h

theorem name_steady : Steady A Node.erased name := by
  refine .openNode fun o o' ho => .test isAt ?_ ?_
  · exact .skip advance (.skip require (nameFrom_alike ho _ _))
  · exact .test eat (nameFrom_alike ho _ _) (nameFrom_alike ho _ _)

/-! ## Lists -/

theorem cons_same {m n : Node} {ms ns : List Node} (h : m.erased = n.erased)
    (hs : ms.map Node.erased = ns.map Node.erased) :
    (m :: ms).map Node.erased = (n :: ns).map Node.erased :=
  congrArg₂ List.cons h hs

theorem separated_steady (mark : TokenKind) (item : Rule .node) :
    Steady A (List.map Node.erased) (separated mark item) := by
  refine .bind (node item) fun m n h => .test eat ?_ (.pure (cons_same h rfl))
  exact .bind (nodes _) fun ms ns hs => .pure (cons_same h hs)

theorem delimited_steady (close : TokenKind) (item : Rule .node) :
    Steady A (List.map Node.erased) (delimited close item) := by
  refine .see isAt fun _ => .see atEnd fun _ => .ite (.skip require (.pure rfl)) ?_
  refine .bind (node item) fun m n h => .test eat ?_ (.skip require (.pure (cons_same h rfl)))
  exact .bind (nodes _) fun ms ns hs => .pure (cons_same h hs)

/-- Where a statement begins goes with where it begins in the other layout. -/
theorem statementList_steady {ends : Parser Bool} {statement : Parser Node} {rest : Rule .nodes}
    (hends : Alike A Eq ends ends) (hstatement : Steady A Node.erased statement) :
    Steady A (List.map Node.erased) (statementList ends statement rest) := by
  refine .see atEnd fun _ => .see hends fun _ => .ite (.pure rfl) ?_
  have hstart : Alike A (fun p q : Position => A.Pairs p.offset q.offset)
      (Parser.read (·.stream.current.start)) (Parser.read (·.stream.current.start)) :=
    read fun _ _ hs => hs.current.start
  refine .bind hstart fun p q hpq => .bind hstatement fun m n h => ?_
  refine .skip (forceProgress hpq) ?_
  exact .bind (nodes rest) fun ms ns hs => .pure (cons_same h hs)

theorem block_steady : Steady A Node.erased block := by
  refine .test isAt ?_ missing
  refine .begin fun o o' ho => .bind (nodes _) fun ms ns hs => ?_
  exact .skip require (.finish ho (congrArg Production.block hs))

theorem shortBlock_steady (close : TokenKind) : Steady A Node.erased (shortBlock close) := by
  refine .openNode fun o o' ho => .skip require ?_
  refine .bind (nodes _) fun ms ns hs => .skip require (.skip endStatement ?_)
  exact .finish ho (congrArg Production.block hs)

theorem condition_steady : Steady A Node.erased condition :=
  .skip require (.bind expression fun _ _ h => .skip require (.pure h))

/-! ## Variables -/

theorem erased_literalConstant (n : Node) :
    (literalConstant n).erased = literalConstant n.erased := by
  obtain ⟨info, p⟩ := n
  cases p with
  | name word resolution =>
    cases resolution with
    | unqualified =>
      simp only [literalConstant, Node.erased_mk, Production.map, Production.erased]
      split <;> simp only [Node.erased_mk, Production.map, Production.erased]
    | _ => rfl
  | _ => rfl

theorem simpleVariable_steady : Steady A Node.erased simpleVariable := by
  refine .openNode fun o o' ho => .see kind fun k => ?_
  split
  · exact .see text fun _ => .skip advance (.finish ho rfl)
  · refine .skip advance (.test eat ?_ ?_)
    · refine .bind expression fun m n h => .skip require ?_
      exact .finish ho (congrArg (fun n => Production.variable (.dynamic n)) h)
    · refine .bind (node .simpleVariable) fun m n h => ?_
      exact .finish ho (congrArg (fun n => Production.variable (.dynamic n)) h)
  · exact .bind missing fun m n h => abandon ho h

theorem variableWithLookups_steady (readOnly : Bool) :
    Steady A Node.erased (variableWithLookups readOnly) := by
  have hbase (c : Bool) {m n : Node} (h : m.erased = n.erased) :
      (if c = true then m else literalConstant m).erased =
        (if c = true then n else literalConstant n).erased := by
    cases c with
    | true => exact h
    | false =>
      show (literalConstant m).erased = (literalConstant n).erased
      rw [erased_literalConstant, erased_literalConstant, h]
  refine .see kind fun k => ?_
  split
  · refine .begin fun o o' ho => .bind (node _) fun m n h => ?_
    exact .finish ho (congrArg Production.byRef h)
  · exact .bind (node _) fun m n h => Alike.lookups h
  · exact .bind (node _) fun m n h => Alike.lookups h
  · exact .begin fun o o' ho => .bind (.finish ho rfl) fun m n h => Alike.lookups h
  · exact .bind (node _) fun m n h => .see kind fun k => Alike.lookups (hbase _ h)
  · exact .bind (node _) fun m n h => .see kind fun k => Alike.lookups (hbase _ h)
  · exact .bind (node _) fun m n h => .see kind fun k => Alike.lookups (hbase _ h)
  · exact missing

theorem arguments_steady : Steady A (List.map Node.erased) arguments :=
  .test expect (nodes _) (.pure rfl)

theorem argumentsIfAny_steady : Steady A (List.map Node.erased) argumentsIfAny :=
  .test isAt arguments_steady (.pure rfl)

theorem argument_steady : Steady A Node.erased argument := by
  refine .test isAt ?_ expression
  refine .begin fun o o' ho => .bind expression fun m n h => ?_
  exact .finish ho (congrArg Production.variadic h)

theorem takesBraceOffset_erased (n : Node) : takesBraceOffset n.erased = takesBraceOffset n := by
  obtain ⟨info, p⟩ := n
  rw [Node.erased_mk]
  cases p <;> rfl

theorem memberOf_steady : Steady A Node.erased memberOf := by
  refine .see kind fun k => ?_
  split
  · exact node _
  · exact node _
  · exact memberName_steady

theorem lookup?_alike {base base' : Node} (h : base.erased = base'.erased) (readOnly : Bool) :
    Alike A (Same (Option.map Node.erased)) (lookup? base readOnly) (lookup? base' readOnly) := by
  have hsome {o o' : Opened} {p q : Production Node} (ho : o.leading = o'.leading)
      (hp : p.Like q) : Alike A (Same (Option.map Node.erased)) (some <$> Parser.finish o p)
        (some <$> Parser.finish o' q) :=
    .map (.finish ho hp) fun _ _ hn => congrArg some hn
  refine .see kind fun k => ?_
  split
  · refine .ite (.pure rfl) ?_
    refine .openAt fun o o' ho => .bind arguments_steady fun ms ns hs => ?_
    exact hsome ho (congrArg₂ Production.call h hs)
  · refine .openAt fun o o' ho => .skip advance (.see isAt fun c => ?_)
    refine .bind (optionally expression) fun m n hoffset => .skip require ?_
    exact hsome ho (congrArg₂ Production.offsetLookup h hoffset)
  · have hbrace : takesBraceOffset base = takesBraceOffset base' := by
      rw [← takesBraceOffset_erased base, h, takesBraceOffset_erased]
    rw [hbrace]
    refine .ite ?_ (.pure rfl)
    refine .openAt fun o o' ho => .skip advance ?_
    refine .bind expression fun m n hoffset => .skip require ?_
    exact hsome ho (congrArg₂ Production.offsetLookup h (congrArg some hoffset))
  · refine .openAt fun o o' ho => .skip advance ?_
    refine .bind memberOf_steady fun m n hmember => ?_
    exact hsome ho (congrArg₂ Production.staticLookup h hmember)
  · refine .openAt fun o o' ho => .skip advance (.test eat ?_ ?_)
    · refine .bind expression fun m n hmember => .skip require ?_
      exact hsome ho (congrArg₂ Production.propertyLookup h hmember)
    · refine .bind memberOf_steady fun m n hmember => ?_
      exact hsome ho (congrArg₂ Production.propertyLookup h hmember)
  · exact .pure rfl

theorem lookups_alike {base base' : Node} (h : base.erased = base'.erased) (readOnly : Bool) :
    Alike A (Same Node.erased) (Grammar.lookups base readOnly)
      (Grammar.lookups base' readOnly) := by
  refine .bind (lookup?_alike h readOnly) fun m n hmn => ?_
  cases m with
  | none =>
    cases n with
    | none => exact .pure h
    | some n => cases hmn
  | some m =>
    cases n with
    | none => cases hmn
    | some n => exact Alike.lookups (Option.some.inj hmn)

/-! ## Functions -/

theorem typeName_steady : Steady A Node.erased typeName := by
  refine .see kind fun k => ?_
  split
  · exact .openNode fun o o' ho => .see text fun word => .skip advance (.finish ho rfl)
  · exact .openNode fun o o' ho => .see text fun word => .skip advance (.finish ho rfl)
  · exact node .name

theorem returnType_steady : Steady A (Prod.map (Option.map Node.erased) id) returnType := by
  refine .test isAt ?_ (.pure rfl)
  refine .skip requireOption (.skip advance (.see eat fun nullable => ?_))
  exact .bind typeName_steady fun m n h =>
    .pure (congrArg (fun n : Node => (some n, nullable)) h)

theorem initialValue_steady : Steady A (Option.map Node.erased) initialValue := after expression

theorem parameter_steady : Steady A Node.erased parameter := by
  refine .openNode fun o o' ho => .see eat fun nullable => .see kind fun k => ?_
  refine .bind (optionally typeName_steady) fun type type' htype => ?_
  refine .see eat fun byRef => .see eat fun isVariadic => ?_
  refine .bind variableName_steady fun name name' hname => ?_
  refine .bind initialValue_steady fun default default' hdefault => ?_
  exact .finish ho (by simp only [Production.Like, Production.map, htype, hname, hdefault])

theorem parameters_steady : Steady A (List.map Node.erased) parameters :=
  .test expect (delimited_steady _ _) (.pure rfl)

theorem functionDeclaration_steady : Steady A Node.erased functionDeclaration := by
  refine .begin fun o o' ho => .see eat fun byRef => ?_
  refine .bind identifier_steady fun name name' hname => ?_
  refine .bind parameters_steady fun ms ns harguments => ?_
  refine .pair returnType_steady fun type type' nullable _ htype hnullable => ?_
  cases hnullable
  refine .bind block_steady fun body body' hbody => ?_
  exact .finish ho (by simp only [Production.Like, Production.map, hname, harguments, htype, hbody])

theorem method_alike {o o' : Opened} (ho : o.leading = o'.leading) (m : Modifiers) :
    Alike A (Same Node.erased) (method o m) (method o' m) := by
  refine .skip advance (.see eat fun byRef => .see option fun c => ?_)
  refine .join memberName_steady identifier_steady fun name name' hname => ?_
  refine .bind parameters_steady fun ms ns harguments => ?_
  refine .pair returnType_steady fun type type' nullable _ htype hnullable => ?_
  cases hnullable
  refine .test isAt (.skip endStatement (.finish ho ?_)) ?_
  · simp only [Production.Like, Production.map, hname, harguments, htype]
  · refine .bind block_steady fun body body' hbody => .finish ho ?_
    simp only [Production.Like, Production.map, Option.map_some, hname, harguments, htype, hbody]

theorem lexicalVariable_steady : Steady A Node.erased lexicalVariable := by
  refine .test isAt ?_ (node _)
  refine .begin fun o o' ho => .bind (node _) fun m n h => ?_
  exact .finish ho (congrArg Production.byRef h)

theorem lexicalVariables_steady : Steady A (List.map Node.erased) lexicalVariables :=
  .test eat (.test expect (delimited_steady _ _) (.pure rfl)) (.pure rfl)

theorem closure_alike {o o' : Opened} (ho : o.leading = o'.leading) (isStatic : Bool) :
    Alike A (Same Node.erased) (closure o isStatic) (closure o' isStatic) := by
  refine .skip advance (.see eat fun byRef => ?_)
  refine .bind parameters_steady fun ms ns harguments => ?_
  refine .bind lexicalVariables_steady fun us vs huses => ?_
  refine .pair returnType_steady fun type type' nullable _ htype hnullable => ?_
  cases hnullable
  refine .bind block_steady fun body body' hbody => ?_
  exact .finish ho (by simp only [Production.Like, Production.map, harguments, huses, htype, hbody])

theorem arrowFunction_alike {o o' : Opened} (ho : o.leading = o'.leading) (isStatic : Bool) :
    Alike A (Same Node.erased) (arrowFunction o isStatic) (arrowFunction o' isStatic) := by
  refine .skip advance (.see eat fun byRef => ?_)
  refine .bind parameters_steady fun ms ns harguments => ?_
  refine .pair returnType_steady fun type type' nullable _ htype hnullable => ?_
  cases hnullable
  refine .skip require (.bind expression fun body body' hbody => ?_)
  exact .finish ho (by simp only [Production.Like, Production.map, harguments, htype, hbody])

/-! ## Members -/

theorem memberModifiers_alike (before : Modifiers) :
    Alike A Eq (memberModifiers before) (memberModifiers before) := by
  refine .test isIn (.see kind fun k => ?_) (.pure rfl)
  have hrest (m : Modifiers) :
      Alike A Eq (Parser.advance >>= fun _ => Parser.call (.memberModifiers m))
        (Parser.advance >>= fun _ => Parser.call (.memberModifiers m)) :=
    .skip advance (call (.same (.memberModifiers m)))
  obtain ⟨m, message⟩ := addModifier before k
  cases message with
  | some message => exact .skip objection (hrest m)
  | none => exact hrest m

theorem constant_steady (reserved : Bool) : Steady A Node.erased (constant reserved) := by
  refine .openNode fun o o' ho => ?_
  refine .join memberName_steady identifier_steady fun name name' hname => ?_
  refine .skip require (.bind expression fun value value' hvalue => ?_)
  exact .finish ho (congrArg₂ Production.constant hname hvalue)

theorem property_steady : Steady A Node.erased property := by
  refine .openNode fun o o' ho => .bind variableName_steady fun name name' hname => ?_
  refine .bind initialValue_steady fun value value' hvalue => ?_
  exact .finish ho (congrArg₂ Production.property hname hvalue)

theorem propertyStatement_alike {o o' : Opened} (ho : o.leading = o'.leading) (m : Modifiers) :
    Alike A (Same Node.erased) (propertyStatement o m) (propertyStatement o' m) := by
  have hrest (type type' : Option Node) (htype : type.map Node.erased = type'.map Node.erased)
      (nullable : Bool) :
      Alike A (Same Node.erased)
        (separated .comma .property >>= fun properties => Parser.endStatement >>= fun _ =>
          Parser.finish o (.propertyStatement properties m type nullable))
        (separated .comma .property >>= fun properties => Parser.endStatement >>= fun _ =>
          Parser.finish o' (.propertyStatement properties m type' nullable)) := by
    refine .bind (separated_steady _ _) fun ms ns hs => .skip endStatement (.finish ho ?_)
    simp only [Production.Like, Production.map, hs, htype]
  have htyped (nullable : Bool) (type type' : Node) (htype : type.erased = type'.erased) :=
    hrest (some type) (some type') (congrArg some htype) nullable
  refine .test isAt (hrest none none rfl false) ?_
  exact .skip requireOption (.see eat fun nullable => .bind typeName_steady (htyped nullable))

theorem classConstant_alike {o o' : Opened} (ho : o.leading = o'.leading) (m : Modifiers) :
    Alike A (Same Node.erased) (classConstant o m) (classConstant o' m) := by
  refine .skip advance (.bind (separated_steady _ _) fun ms ns hs => .skip endStatement ?_)
  exact .finish ho (congrArg (Production.classConstant · m) hs)

theorem braceGroup_alike (depth : Nat) : Alike A Eq (braceGroup depth) (braceGroup depth) := by
  refine .see kind fun k => ?_
  split
  · exact .skip missing (.pure rfl)
  · exact .skip advance (.ite (.pure rfl) (call (.same (.braceGroup _))))

/-- The adaptations are the one text that depends on the layout. -/
theorem traitUse_steady : Steady A Node.erased traitUse := by
  refine .begin fun o o' ho => .bind (separated_steady _ _) fun ms ns hs => .test isAt ?_ ?_
  · have hany {f : ParseState → Nat} : Alike A (fun _ _ => True) (Parser.read f) (Parser.read f) :=
      read fun _ _ _ => trivial
    refine .bind hany fun start start' _ => .skip (call (.same (.braceGroup 0))) ?_
    have htext : Alike A (fun _ _ => True)
        (Parser.read fun s => s.stream.textBetween start s.stream.prev.offset)
        (Parser.read fun s => s.stream.textBetween start' s.stream.prev.offset) :=
      fun _ _ hs => .done trivial hs
    refine .bind htext fun text text' _ => .finish ho ?_
    exact congrArg (Production.traitUse · (some "")) hs
  · exact .skip endStatement (.finish ho (congrArg (Production.traitUse · none) hs))

theorem memberAfter_alike {o o' : Opened} (ho : o.leading = o'.leading) (m : Modifiers) :
    Alike A (Same Node.erased) (memberAfter o m) (memberAfter o' m) := by
  refine .see kind fun k => .ite (classConstant_alike ho m) (.ite (method_alike ho m) (.ite
    (propertyStatement_alike ho m) ?_))
  refine .bind missing fun n n' hn => .bind (abandon ho hn) fun n n' hn => .see kind fun k => ?_
  exact .possibly advance (.pure hn)

theorem member_steady : Steady A Node.erased member := by
  refine .test isAt traitUse_steady (.openNode fun o o' ho => .test eat ?_ ?_)
  · exact propertyStatement_alike ho _
  · exact .see (call (.same (.memberModifiers .none))) fun m => memberAfter_alike ho m

theorem members_steady : Steady A (List.map Node.erased) members :=
  statementList_steady isAt member_steady

/-! ## Classes -/

theorem classFlags_alike (isAbstract isFinal : Bool) :
    Alike A Eq (classFlags isAbstract isFinal) (classFlags isAbstract isFinal) := by
  have hrest (isAbstract isFinal : Bool) :
      Alike A Eq (Parser.advance >>= fun _ => Parser.call (.classFlags isAbstract isFinal))
        (Parser.advance >>= fun _ => Parser.call (.classFlags isAbstract isFinal)) :=
    .skip advance (call (.same (.classFlags _ _)))
  refine .see kind fun k => ?_
  split
  · exact .ite (.skip objection (hrest _ _)) (.ite (.skip objection (hrest _ _)) (hrest _ _))
  · exact .ite (.skip objection (hrest _ _)) (.ite (.skip objection (hrest _ _)) (hrest _ _))
  · exact .pure rfl

theorem classBody_steady : Steady A (List.map Node.erased) classBody := by
  refine .test expect ?_ (.pure rfl)
  exact .bind (nodes _) fun ms ns hs => .skip require (.pure hs)

theorem namesAfter_steady (k : TokenKind) : Steady A (List.map Node.erased) (namesAfter k) :=
  .test eat (separated_steady _ _) (.pure rfl)

theorem heritage_steady :
    Steady A (Prod.map (Option.map Node.erased) (List.map Node.erased)) heritage := by
  refine .bind (after (node _)) fun parent parent' hparent => ?_
  exact .bind (namesAfter_steady _) fun ms ns hs => .pure (congrArg₂ Prod.mk hparent hs)

theorem classDeclaration_steady : Steady A Node.erased classDeclaration := by
  refine .openNode fun o o' ho => .see (call (.same (.classFlags false false))) fun flags => ?_
  refine .test eat ?_ (.bind missing fun m n h => abandon ho h)
  refine .bind identifier_steady fun name name' hname => ?_
  refine .pair heritage_steady fun parent parent' ms ns hparent hs => ?_
  refine .bind classBody_steady fun body body' hbody => .finish ho ?_
  simp only [Production.Like, Production.map, Option.map_some, hname, hparent, hs, hbody]

theorem anonymousClass_steady :
    Steady A (Prod.map Node.erased (List.map Node.erased)) anonymousClass := by
  refine .begin fun o o' ho => .bind argumentsIfAny_steady fun args args' hargs => ?_
  refine .pair heritage_steady fun parent parent' ms ns hparent hs => ?_
  refine .bind classBody_steady fun body body' hbody => .bind (.finish ho ?_) fun m n h => ?_
  · simp only [Production.Like, Production.map, Option.map_none, hparent, hs, hbody]
  · exact .pure (congrArg₂ Prod.mk h hargs)

theorem interfaceDeclaration_steady : Steady A Node.erased interfaceDeclaration := by
  refine .begin fun o o' ho => .bind identifier_steady fun name name' hname => ?_
  refine .bind (namesAfter_steady _) fun ms ns hs => ?_
  refine .bind classBody_steady fun body body' hbody => .finish ho ?_
  simp only [Production.Like, Production.map, hname, hs, hbody]

theorem traitDeclaration_steady : Steady A Node.erased traitDeclaration := by
  refine .begin fun o o' ho => .bind identifier_steady fun name name' hname => ?_
  refine .bind classBody_steady fun body body' hbody => ?_
  exact .finish ho (congrArg₂ Production.trait hname hbody)

end PhpSyntax.Grammar
