import PhpSyntax.Grammar.ClassLike
import PhpSyntax.Proofs.Bracket.Balances

namespace PhpSyntax.Grammar

attribute [local simp] Production.children Production.fields Field.children

variable {s : ParseState}

/-! ## Names -/

theorem identifierHere_balances (hk : s.kind.isFlat = true) :
    Balances identifierHere s [] True False Node.NamesClasses :=
  .openNode fun _ => .some fun _ => .flat hk (.finish trivial fun _ _ => trivial)

theorem identifier_balances : Balances identifier s [] True False Node.NamesClasses :=
  .isAt (fun hk => identifierHere_balances (hk ▸ rfl)) fun _ => .missingHere

theorem memberName_balances : Balances memberName s [] True False Node.NamesClasses := by
  refine .read (.read (.ite (fun hk => ?_) fun _ => .missingHere))
  refine identifierHere_balances ?_
  rcases Bool.or_eq_true_iff.mp hk with hk | hk
  · have hk : s.kind = .identifier := of_decide_eq_true hk
    exact hk ▸ rfl
  · exact TokenSet.isFlat hk (by decide)

theorem variableName_balances : Balances variableName s [] True False Node.NamesClasses := by
  refine .isAt (fun hk => ?_) fun _ => .missingHere
  exact .openNode fun o => .some fun word => .flat (hk ▸ rfl) (.finish trivial fun _ _ => trivial)

theorem segments_balances : Balances segments s [] True True fun _ => True := by
  refine .read (.read (.ite (fun hk => ?_) fun _ => .pure trivial fun _ => trivial))
  obtain ⟨hseparator, hword⟩ := Bool.and_eq_true_iff.mp hk
  have hhere : s.kind = .nsSeparator := of_decide_eq_true hseparator
  have hnext : s.advance.kind = .identifier :=
    (Stream.advance_kind _).trans (of_decide_eq_true hword)
  refine .flat (hhere ▸ rfl) (.some fun word => .flat (hnext ▸ rfl) ?_)
  exact .bindStill (.call trivial rfl) fun rest t => .pure trivial fun _ => ⟨trivial, trivial⟩

theorem nameFrom_balances {o : Opened} {lead : String} {r : NameResolution} :
    Balances (nameFrom o lead r) s [] True False Node.NamesClasses := by
  refine .isAt (fun hk => ?_) fun _ => .missing
  refine .some fun first => .flat (hk ▸ rfl) ?_
  refine .bindStill (.call (r := .segments) trivial rfl) fun rest t => ?_
  exact .finish trivial fun _ _ => ⟨trivial, trivial⟩

theorem name_balances : Balances name s [] True False Node.NamesClasses := by
  refine .openNode fun o => .isAt (fun hk => ?_) fun _ => ?_
  · exact .flat (hk ▸ rfl) (.demand rfl fun t => nameFrom_balances.moving)
  · exact .ifEat (fun hk => .flat (hk ▸ rfl) nameFrom_balances.moving) fun _ => nameFrom_balances

/-! ## Lists -/

theorem separated_balances {mark : TokenKind} {item : Rule .node}
    (h : (mark.isFlat = true ∨ mark = .comma) ∧ item.isPlain = true) :
    Balances (separated mark item) s [] True False fun _ => False := by
  refine .bind (.node h.2) fun n t => .ifEat (fun hk => ?_) fun _ => .pure trivial False.elim
  rcases h.1 with hflat | rfl
  · exact .flat (hk ▸ hflat) (.bind (.separated h) fun ns u => .pure trivial False.elim)
  · refine .stopLoud (by simp [hk, TokenKind.stops]) ?_
    exact .bind (.separated h) fun ns u => .pure trivial False.elim

theorem delimited_balances {close : TokenKind} {item : Rule .node}
    (h : close ∈ TokenKind.closing ∧ item.isPlain = true) :
    Balances (delimited close item) s [close] True False fun _ => True := by
  have hclose {t : ParseState} {ns : List Node} :
      Balances (Parser.require close >>= fun _ => pure ns) t [close] True False fun _ => True :=
    .require fun hk => .shuts hk h.1 (.pure trivial fun _ => trivial)
  refine .some fun _ => .some fun _ => .ite (fun _ => hclose) fun _ => ?_
  refine .inside (.node h.2) fun n t => .ifEat (fun hk => ?_) fun _ => hclose
  refine .stopInside (by simp [hk, TokenKind.stops]) (.delimited h.1 h.2 fun ns u => ?_)
  exact .pure trivial fun _ => trivial

theorem statementList_balances {ends : ParseState → Bool} {statement : Parser Node}
    {rest : Rule .nodes} (h : Balances statement s [] True False fun _ => False)
    (hrest : ∀ t, Balances (Parser.call rest) t [] True True fun _ => False) :
    Balances (statementList (Parser.read ends) statement rest) s [] True True fun _ => False := by
  refine .some fun _ => .some fun _ => .ite (fun _ => .pure trivial False.elim) fun _ => ?_
  exact .read (.progress h fun n t => .bindStill (hrest t) fun ns u => .pure trivial False.elim)

theorem block_balances : Balances block s [] True False fun _ => True := by
  refine .isAt (fun hk => ?_) fun _ => .missingHere
  refine .openNode fun o => .opens hk (by decide) (.inside .statements fun ns t => ?_)
  exact .require fun hk => .shuts hk (by decide) (.finishQuiet trivial trivial)

theorem shortBlock_balances {close : TokenKind} (h : close.isFlat = true) :
    Balances (shortBlock close) s [] True False fun _ => False := by
  refine .openNode fun o => .demand rfl fun t => .bindStill .statements fun ns u => ?_
  exact .demand h fun v => .endStatement fun w => .finishLoud trivial

theorem condition_balances : Balances condition s [] True False fun _ => True := by
  refine .require fun hk => .opens hk (by decide) (.inside .expression fun n t => ?_)
  exact .require fun hk => .shuts hk (by decide) (.pure trivial fun _ => trivial)

/-! ## Variables -/

theorem literalConstant_namesClasses {n : Node} (h : (literalConstant n).NamesClasses) :
    n.NamesClasses := by
  unfold literalConstant at h
  split at h
  · next word hp =>
    exact Node.namesClasses_iff.mpr (by rw [Node.children, hp]; simp [Production.isAnonymous])
  · exact h

theorem lookupsOf_balances {base : Node} {readOnly : Bool} {owed : Prop}
    (h : base.NamesClasses → owed) :
    Balances (Parser.call (.lookups base readOnly)) s [] owed True Node.NamesClasses :=
  (Balances.call (r := .lookups base readOnly) trivial rfl).mono h id fun _ => id

theorem simpleVariable_balances : Balances simpleVariable s [] True False Node.NamesClasses := by
  refine .openNode fun o => .kind ?_
  split
  · next hk => exact .some fun word => .flat (hk ▸ rfl) (.finish trivial fun _ _ => trivial)
  · next hk =>
    refine .flat (hk ▸ rfl) (.ifEat (fun hk => ?_) fun _ => ?_)
    · refine .opens hk (by decide) (.inside .expression fun n t => ?_)
      exact .require fun hk => .shuts hk (by decide) (.finish trivial fun _ _ => trivial)
    · exact .bind (.node rfl) fun n t => .finish trivial fun _ h => by simpa using h
  · exact .missing

theorem variableWithLookups_balances {readOnly : Bool} :
    Balances (variableWithLookups readOnly) s [] True False Node.NamesClasses := by
  have hname {t : ParseState} :
      Balances (Parser.call .name >>= fun n => Parser.kind >>= fun k =>
        Parser.call (.lookups (if k = .doubleColon || k = .lParen then n else literalConstant n)
          readOnly)) t [] True False Node.NamesClasses := by
    refine .bind (.node rfl) fun n u => .some fun k => lookupsOf_balances fun h => ⟨trivial, ?_⟩
    split at h
    · exact h
    · exact literalConstant_namesClasses h
  refine .kind ?_
  split
  case h_1 hk =>
    refine .begin (hk ▸ rfl) fun o => .bind (.node rfl) fun n t => .finish trivial fun _ h => ?_
    simpa using h
  case h_2 | h_3 => exact .bind (.node rfl) fun n t => lookupsOf_balances fun h => ⟨trivial, h⟩
  case h_4 hk =>
    refine .begin (hk ▸ rfl) fun o => .chain (.finish trivial fun _ _ => trivial) fun n t => ?_
    exact lookupsOf_balances id
  case h_5 | h_6 | h_7 => exact hname
  case h_8 => exact .missingHere

theorem arguments_balances : Balances arguments s [] True False fun _ => True :=
  .ifExpect fun hk => .opens hk (by decide) (Balances.items (by decide) rfl).moving

theorem argumentsIfAny_balances : Balances argumentsIfAny s [] True True fun _ => True :=
  .isAt (fun _ => arguments_balances.moving) fun _ => .pure trivial fun _ => trivial

theorem argument_balances : Balances argument s [] True False Node.NamesClasses := by
  refine .isAt (fun hk => ?_) fun _ => .expression
  refine .begin (hk ▸ rfl) fun o => .bind .expression fun n t => .finish trivial fun _ h => ?_
  simpa using h

theorem memberOf_balances : Balances memberOf s [] True False Node.NamesClasses := by
  refine .kind ?_
  split
  · exact .node rfl
  · exact .node rfl
  · exact memberName_balances

theorem lookup?_balances {base : Node} {readOnly : Bool} :
    Balances (lookup? base readOnly) s [] base.NamesClasses True
      fun n => (n.getD base).NamesClasses := by
  have hsome {owed : Prop} {t : ParseState} {o : Opened} {p : Production Node}
      (h : (∀ n ∈ p.children, n.NamesClasses) → owed) :
      Balances (some <$> Parser.finish o p) t [] owed True fun n => (n.getD base).NamesClasses :=
    .chain (.finish trivial fun _ => h) fun n u => .pure trivial id
  have hbrace {t : ParseState} {o : Opened} {p : Node → Production Node}
      (hk : t.kind = .lBrace) (h : ∀ n, base ∈ (p n).children) :
      Balances (Parser.advance >>= fun _ => Parser.expression >>= fun n =>
        Parser.require .rBrace >>= fun _ => some <$> Parser.finish o (p n)) t [] base.NamesClasses
        True fun n => (n.getD base).NamesClasses := by
    refine .opens hk (by decide) (.inside .expression fun n u => ?_)
    exact .require fun hk => .shuts hk (by decide) (hsome fun hall => hall base (h n))
  refine .kind ?_
  split
  · refine .ite (fun _ => .pure trivial id) fun _ => .openAt fun o => ?_
    exact .bind arguments_balances fun args t => hsome fun h => ⟨h base (by simp), trivial⟩
  · next hk =>
    refine .openAt fun o => .opens hk (by decide) (.some fun _ => ?_)
    refine .inside (.optionally .expression) fun offset t => .require fun hk => ?_
    exact .shuts hk (by decide) (hsome fun h => h base (by simp))
  · next hk =>
    refine .ite (fun _ => .openAt fun o => ?_) fun _ => .pure trivial id
    exact hbrace (p := fun n => .offsetLookup base (some n)) hk fun n => by simp
  · next hk =>
    refine .openAt fun o => .flat (hk ▸ rfl) (.bind memberOf_balances fun member t => ?_)
    exact hsome fun h => by simpa using h
  · next hk =>
    refine .openAt fun o => .flat (hk ▸ rfl) (.ifEat (fun hk => ?_) fun _ => ?_)
    · exact hbrace (p := fun n => .propertyLookup base n) hk fun n => by simp
    · exact .bind memberOf_balances fun member t => hsome fun h => by simpa using h
  · exact .pure trivial id

theorem lookups_balances {base : Node} {readOnly : Bool} :
    Balances (lookups base readOnly) s [] base.NamesClasses True Node.NamesClasses := by
  refine .chain lookup?_balances fun n t => ?_
  cases n with
  | none => exact .pure trivial id
  | some n => exact lookupsOf_balances id

/-! ## Functions -/

theorem typeName_balances : Balances typeName s [] True False Node.NamesClasses := by
  refine .kind ?_
  split
  · next hk =>
    exact .openNode fun o => .some fun word => .flat (hk ▸ rfl) (.finish trivial fun _ _ => trivial)
  · next hk =>
    exact .openNode fun o => .some fun word => .flat (hk ▸ rfl) (.finish trivial fun _ _ => trivial)
  · exact .node rfl

theorem returnType_balances :
    Balances returnType s [] True True fun r => ∀ n ∈ r.1, n.NamesClasses := by
  refine .isAt (fun hk => ?_) fun _ => .pure trivial fun _ => trivial
  refine .requireOption (.flat (hk ▸ rfl) (.eat rfl fun nullable t => ?_))
  exact .bind typeName_balances fun type u => .pure trivial fun h => ⟨trivial, h type rfl⟩

theorem initialValue_balances :
    Balances initialValue s [] True True fun o => ∀ n ∈ o, n.NamesClasses :=
  .after rfl fun _ => .expression

theorem parameter_balances : Balances parameter s [] True False Node.NamesClasses := by
  refine .openNode fun o => .eat rfl fun nullable t => .some fun k => ?_
  refine .bindStill (.optionally typeName_balances) fun typeHint u => ?_
  refine .eat rfl fun byRef v => .eat rfl fun variadic w => ?_
  refine .bind variableName_balances fun name x =>
    .bindStill initialValue_balances fun default y => ?_
  exact .finish trivial fun _ h => by simp_all

theorem parameters_balances : Balances parameters s [] True False fun _ => True :=
  .ifExpect fun hk => .opens hk (by decide) (delimited_balances ⟨by decide, rfl⟩).moving

theorem functionDeclaration_balances (hk : s.kind.isFlat = true) :
    Balances functionDeclaration s [] True False fun _ => False := by
  refine .begin hk fun o => .eat rfl fun byRef t => .bind identifier_balances fun name u => ?_
  refine .bind parameters_balances fun arguments v => .bindStill returnType_balances fun r w => ?_
  exact .bind block_balances fun body x => .finishLoud trivial

theorem method_balances {o : Opened} {m : Modifiers} (hk : s.kind.isFlat = true) :
    Balances (method o m) s [] True False fun _ => False := by
  have hrest {name : Node} {byRef : Bool} {owed : Prop} {t : ParseState} :
      Balances (parameters >>= fun arguments => returnType >>= fun r =>
        Parser.isAt .semicolon >>= fun b =>
          if b = true then Parser.endStatement >>= fun _ =>
            Parser.finish o (.method name arguments byRef r.1 r.2 none m)
          else block >>= fun body =>
            Parser.finish o (.method name arguments byRef r.1 r.2 (some body) m)) t [] owed True
        fun _ => False := by
    refine .bind parameters_balances fun arguments u => .bindStill returnType_balances fun r v => ?_
    refine .isAt (fun _ => .endStatement fun w => .finishLoud trivial) fun _ => ?_
    exact .bind block_balances fun body w => .finishLoud trivial
  refine .flat hk (.eat rfl fun byRef t => .read (.ite (fun _ => ?_) fun _ => ?_))
  · exact .bind memberName_balances fun name u => hrest
  · exact .bind identifier_balances fun name u => hrest

theorem lexicalVariable_balances : Balances lexicalVariable s [] True False Node.NamesClasses := by
  refine .isAt (fun hk => ?_) fun _ => .node rfl
  refine .begin (hk ▸ rfl) fun o => .bind (.node rfl) fun n t => .finish trivial fun _ h => ?_
  simpa using h

theorem lexicalVariables_balances : Balances lexicalVariables s [] True True fun _ => True := by
  refine .ifEat (fun hk => .flat (hk ▸ rfl) ?_) fun _ => .pure trivial fun _ => trivial
  exact .ifExpect fun hk => .opens hk (by decide) (delimited_balances ⟨by decide, rfl⟩).moving

theorem closure_balances {o : Opened} {isStatic : Bool} (hk : s.kind.isFlat = true) :
    Balances (closure o isStatic) s [] True False Node.NamesClasses := by
  refine .flat hk (.eat rfl fun byRef t => .bind parameters_balances fun arguments u => ?_)
  refine .bindStill lexicalVariables_balances fun uses v =>
    .bindStill returnType_balances fun r w => ?_
  exact .bind block_balances fun body x => .finish trivial fun _ h => by simp_all

theorem arrowFunction_balances {o : Opened} {isStatic : Bool} (hk : s.kind.isFlat = true) :
    Balances (arrowFunction o isStatic) s [] True False Node.NamesClasses := by
  refine .flat hk (.eat rfl fun byRef t => .bind parameters_balances fun arguments u => ?_)
  refine .bindStill returnType_balances fun r v => .demand rfl fun w => ?_
  exact .bind .expression fun body x => .finish trivial fun _ h => by simp_all

/-! ## Members -/

theorem memberModifiers_balances {before : Modifiers} :
    Balances (memberModifiers before) s [] True True fun _ => False := by
  refine .read (.ite (fun hk => .kind ?_) fun _ => .pure trivial False.elim)
  have hflat : s.kind.isFlat = true := TokenSet.isFlat hk (by decide)
  have hnext {m : Modifiers} : Balances (Parser.advance >>= fun _ =>
      Parser.call (.memberModifiers m)) s [] True True fun _ => False :=
    .flat hflat (.call (r := .memberModifiers m) trivial rfl)
  split
  split
  · exact .objection
  · exact hnext

theorem constant_balances {reserved : Bool} :
    Balances (constant reserved) s [] True False Node.NamesClasses := by
  have hrest {o : Opened} {name : Node} {t : ParseState} :
      Balances (Parser.require .equal >>= fun _ => Parser.expression >>= fun value =>
        Parser.finish o (.constant name value)) t [] (True ∧ name.NamesClasses) True
        Node.NamesClasses :=
    .demand rfl fun u => .bind .expression fun value v => .finish trivial fun _ h => by simp_all
  refine .openNode fun o => .ite (fun _ => ?_) fun _ => ?_
  · exact .bind memberName_balances fun name t => hrest
  · exact .bind identifier_balances fun name t => hrest

theorem property_balances : Balances property s [] True False Node.NamesClasses := by
  refine .openNode fun o => .bind variableName_balances fun name t => ?_
  exact .bindStill initialValue_balances fun value u => .finish trivial fun _ h => by simp_all

theorem propertyStatement_balances {o : Opened} {m : Modifiers} :
    Balances (propertyStatement o m) s [] True False fun _ => False := by
  have hrest {type : Option Node} {nullable : Bool} {owed moved : Prop} {t : ParseState} :
      Balances (separated .comma .property >>= fun properties => Parser.endStatement >>= fun _ =>
        Parser.finish o (.propertyStatement properties m type nullable)) t [] owed moved
        fun _ => False :=
    .bind (separated_balances ⟨Or.inr rfl, rfl⟩) fun ns u => .endStatement fun v => .finishLoud trivial
  refine .isAt (fun _ => hrest) fun _ => .requireOption (.eat rfl fun nullable t => ?_)
  exact .bind typeName_balances fun type u => hrest

theorem classConstant_balances {o : Opened} {m : Modifiers} (hk : s.kind.isFlat = true) :
    Balances (classConstant o m) s [] True False fun _ => False := by
  refine .flat hk (.bind (separated_balances ⟨Or.inr rfl, rfl⟩) fun ns t => ?_)
  exact .endStatement fun u => .finishLoud trivial

/-- A group of braces ends with the brace that closes the first. -/
theorem braceGroup_balances {depth : Nat} {awaited : List TokenKind}
    (hopen : depth = 0 → s.kind = .lBrace) (h : Deep depth awaited) :
    Balances (braceGroup depth) s awaited True False fun _ => True := by
  refine .kind ?_
  split
  · exact .missing
  · next hne =>
    have hbehind := h.nest hopen
    obtain ⟨hbrace, hempty⟩ := h.closes hopen
    refine .advance hne hbrace (fun e => ⟨(hempty e).1, fun _ => (hempty e).2⟩) id ?_
    refine .ite (fun hdone => ?_) fun hmore => ?_
    · rw [show s.kind.braces depth = 0 from hdone] at hbehind
      rw [hbehind.eq_nil]
      exact .pure trivial fun _ => trivial
    · exact Balances.moving (.call (r := .braceGroup _) (fun e => absurd e hmore) hbehind)

theorem traitUse_balances (hk : s.kind.isFlat = true) :
    Balances traitUse s [] True False fun _ => False := by
  refine .begin hk fun o => .bind (separated_balances ⟨Or.inr rfl, rfl⟩) fun traits t => ?_
  refine .isAt (fun hk => .some fun start => ?_) fun _ => .endStatement fun u => .finishLoud trivial
  refine .bind (.call (r := .braceGroup 0) (fun _ => hk) .nil) fun _ u => .some fun text => ?_
  exact .finishLoud trivial

theorem memberAfter_balances {o : Opened} {m : Modifiers} :
    Balances (memberAfter o m) s [] True False fun _ => False := by
  refine .kind (.ite (fun hk => ?_) fun _ => .ite (fun hk => ?_) fun _ =>
    .ite (fun _ => ?_) fun _ => ?_)
  · exact classConstant_balances (hk ▸ rfl)
  · exact method_balances (hk ▸ rfl)
  · exact propertyStatement_balances
  · exact .missing

theorem member_balances : Balances member s [] True False fun _ => False := by
  refine .isAt (fun hk => traitUse_balances (hk ▸ rfl)) fun _ => .openNode fun o => ?_
  refine .ifEat (fun hk => .flat (hk ▸ rfl) propertyStatement_balances.moving) fun _ => ?_
  refine .bindStill (.call (r := .memberModifiers .none) trivial rfl) fun m t => ?_
  exact memberAfter_balances.loud

theorem members_balances : Balances members s [] True True fun _ => False :=
  statementList_balances member_balances fun _ => .call (r := .members) trivial rfl

/-! ## Declarations -/

theorem classFlags_balances {isAbstract isFinal : Bool} :
    Balances (classFlags isAbstract isFinal) s [] True True fun _ => False := by
  have hadd {repeated isAbstract isFinal : Bool} (hk : s.kind.isFlat = true) :
      Balances (do
        if repeated then
          let _ ← Parser.objection .unexpectedToken
            "Parse Error : Multiple class modifiers are not allowed"
        else if isAbstract && isFinal then
          let _ ← Parser.objection .unexpectedToken
            "Parse Error : Cannot use the final modifier on an abstract class"
        Parser.advance
        Parser.call (.classFlags isAbstract isFinal)) s [] True True fun _ => False := by
    refine .ite (fun _ => .objection) fun _ => .ite (fun _ => .objection) fun _ => ?_
    exact .flat hk (.call (r := .classFlags isAbstract isFinal) trivial rfl)
  refine .kind ?_
  split
  · next hk => exact hadd (hk ▸ rfl)
  · next hk => exact hadd (hk ▸ rfl)
  · exact .pure trivial False.elim

theorem classBody_balances : Balances classBody s [] True False fun _ => True := by
  refine .ifExpect fun hk => .opens hk (by decide) ?_
  refine .inside (.call (r := .members) trivial rfl) fun ms t => .require fun hk => ?_
  exact .shuts hk (by decide) (.pure trivial fun _ => trivial)

theorem namesAfter_balances {k : TokenKind} (hk : k.isFlat = true) :
    Balances (namesAfter k) s [] True True fun _ => False :=
  .ifEat (fun e => .flat (e ▸ hk) (separated_balances ⟨Or.inr rfl, rfl⟩).moving)
    fun _ => .pure trivial False.elim

theorem heritage_balances : Balances heritage s [] True True fun _ => False := by
  refine .bindStill (.after rfl fun _ => .node rfl) fun parent t => ?_
  exact .bindStill (namesAfter_balances rfl) fun interfaces u => .pure trivial False.elim

theorem classDeclaration_balances : Balances classDeclaration s [] True False fun _ => False := by
  refine .openNode fun o => ?_
  refine .bindStill (.call (r := .classFlags false false) trivial rfl) fun flags t => ?_
  refine .ifEat (fun hk => .flat (hk ▸ rfl) ?_) fun _ => .missing
  refine .bind identifier_balances fun name u => .bindStill heritage_balances fun r v => ?_
  exact .bind classBody_balances fun body w => .finishLoud trivial

/-- Around a class without a name nothing is quiet. -/
theorem anonymousClass_balances (hk : s.kind.isFlat = true) :
    Balances anonymousClass s [] True False fun r => r.1.NamesClasses := by
  refine .begin hk fun o => .bindStill argumentsIfAny_balances fun args t => ?_
  refine .bindStill heritage_balances fun r u => .bind classBody_balances fun body v => ?_
  exact .chain (.finish trivial nofun) fun n w => .pure trivial id

theorem interfaceDeclaration_balances (hk : s.kind.isFlat = true) :
    Balances interfaceDeclaration s [] True False fun _ => False := by
  refine .begin hk fun o => .bind identifier_balances fun name t => ?_
  refine .bindStill (namesAfter_balances rfl) fun parents u => ?_
  exact .bind classBody_balances fun body v => .finishLoud trivial

theorem traitDeclaration_balances (hk : s.kind.isFlat = true) :
    Balances traitDeclaration s [] True False fun _ => False := by
  refine .begin hk fun o => .bind identifier_balances fun name t => ?_
  exact .bind classBody_balances fun body u => .finishLoud trivial

end PhpSyntax.Grammar
