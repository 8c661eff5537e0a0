import PhpSyntax.Grammar.ClassLike
import PhpSyntax.Proofs.Typing.Makes

namespace PhpSyntax.Grammar

attribute [local simp] Production.places Production.fields Production.children Field.children
  Rule.slot

variable {c : Scope} {s : ParseState}

/-! ## Names -/

theorem identifierHere_makes : Makes c identifierHere s fun n _ => n.Fills c .any :=
  .begin fun _ _ => .some fun _ => .pass fun _ => .finish (by simp) rfl rfl

theorem identifier_makes : Makes c identifier s fun n _ => n.Fills c .any :=
  .isAt (fun _ => identifierHere_makes) fun _ => Makes.missing.mono fun _ _ h => h.fills _

theorem memberName_makes : Makes c memberName s fun n _ => n.Closed c := by
  refine .some fun _ => .some fun _ => .ite (fun _ => ?_) fun _ => ?_
  · refine .begin fun o t => .some fun _ => .pass fun u => ?_
    exact .finishClosed (by simp) rfl rfl (by simp)
  · exact Makes.missing.mono fun _ _ h => h.closed

theorem variableName_makes : Makes c variableName s fun n _ => n.Fills c .any := by
  refine .isAt (fun _ => ?_) fun _ => Makes.missing.mono fun _ _ h => h.fills _
  exact .begin fun o t => .some fun _ => .pass fun u => .finish (by simp) rfl rfl

def IsName (c : Scope) (n : Node) : Prop := n.Closed c ∧ Slot.name.accepts n = true

theorem IsName.fills {n : Node} (h : IsName c n) : n.Fills c .name := h.1.fillsSlot h.2

/-- What a name is before it is known to be formed. -/
theorem nameFrom_makes {o : Opened} {lead : String} {resolution : NameResolution} :
    Makes c (nameFrom o lead resolution) s
      fun n _ => n.Missing c ∨ ∃ word r, n.production = .name word r := by
  refine .isAt (fun _ => .some fun first => .pass fun t => ?_) fun _ => ?_
  · refine .bind (.call trivial) fun rest u _ => ?_
    exact Makes.finishBare.mono fun n v hn => Or.inr ⟨_, _, hn⟩
  · exact .bind .missing fun n t h => .abandon fun u _ => Or.inl (h.handTo o)

/-- A name that comes from its rule or is a keyword. -/
theorem isName_of_formed {info : NodeInfo} {word : String} {r : NameResolution}
    (h : (Production.name word r : Production Node).Formed c info.span) :
    IsName c ⟨info, .name word r⟩ := by
  refine ⟨⟨Node.wellFormed_mk (by simp) fun _ => h, rfl, ?_⟩, rfl⟩
  exact Node.not_endsInAssignment (by simp) (by simp [Production.tail?])

theorem name_makes : Makes c name s fun n _ => IsName c n := by
  have hrule : Makes c name s fun n _ => n.Missing c ∨ ∃ word r, n.production = .name word r := by
    refine .begin fun o t => .isAt (fun _ => ?_) fun _ => ?_
    · exact .pass fun u => .demand fun v => nameFrom_makes
    · exact .ifEat (fun u => nameFrom_makes) fun u => nameFrom_makes
  refine .of fun hs => hrule.yields.mono fun n t ⟨hn, hyields⟩ => ?_
  rcases hn with hn | ⟨word, r, hp⟩
  · exact ⟨hn.closed, (hn.fills _).suits.accepted⟩
  · obtain ⟨info, p⟩ := n
    subst hp
    have hnamed : (Node.mk info (.name word r)).Named c :=
      ⟨s, t, hs.options, hs.mode, hs.sound, hs.tokens, hyields⟩
    exact isName_of_formed (.name (Or.inl ⟨_, hnamed, rfl, rfl⟩))

/-- A keyword that stands for a name. -/
theorem keywordName_makes {word : String} (hs : s.Within c)
    (hk : s.kind ∈ TokenKind.nameKeywords) :
    Makes c (Parser.finish s.openNode.1 (.name word .unqualified)) s.openNode.2.advance
      fun n _ => IsName c n := by
  have heof : s.kind ≠ .eof := by
    intro e
    rw [e] at hk
    exact absurd hk (by decide)
  have htag : s.stream.atTag = false := by
    have hne : s.stream.current.kind ≠ .semicolon := by
      intro e
      rw [show s.kind = .semicolon from e] at hk
      exact absurd hk (by decide)
    simp [Stream.atTag, hne]
  have hprev : s.openNode.2.advance.stream.prev = s.stream.current.stop := by
    show s.stream.advance.prev = _
    simp [Stream.advance, htag]
  have hstop : (s.openNode.2.advance.finishNode s.openNode.1).1.span.stop =
      s.stream.current.stop := by
    show (if s.stream.current.start.offset ≤ s.openNode.2.advance.stream.prev.offset
      then s.openNode.2.advance.stream.prev else s.stream.current.start) = _
    rw [hprev, if_pos hs.sound.start_le]
  exact fun ht => ⟨ht.same rfl rfl,
    isName_of_formed (.name (Or.inr ⟨s.stream, hs.options, hs.sound, hs.tokens heof, hk, rfl, hstop⟩))⟩

theorem segments_makes : Makes c segments s fun _ _ => True := by
  refine .some fun _ => .some fun _ => .ite (fun _ => ?_) fun _ => .pure trivial
  refine .pass fun t => .some fun word => .pass fun u => ?_
  exact .bind (.call trivial) fun rest v _ => .pure trivial

/-! ## Lists -/

theorem separated_makes {mark : TokenKind} {item : Rule .node} (h : item.isPlain = true) :
    Makes c (separated mark item) s fun ns _ => ∀ n ∈ ns, n.Fills c item.slot := by
  refine .bind (.node h) fun n t hn => .ifEat (fun u => ?_) fun u => ?_
  · exact .bind (.separated h) fun ns v hns => .pure (List.forall_mem_cons.mpr ⟨hn, hns⟩)
  · exact .pure (List.forall_mem_singleton.mpr hn)

theorem delimited_makes {close : TokenKind} {item : Rule .node} (h : item.isPlain = true) :
    Makes c (delimited close item) s fun ns _ => ∀ n ∈ ns, n.Fills c item.slot := by
  refine .some fun _ => .some fun _ => .ite (fun _ => ?_) fun _ => ?_
  · exact .demand fun t => .pure (List.forall_mem_nil _)
  · refine .bind (.node h) fun n t hn => .ifEat (fun u => ?_) fun u => .demand fun v => ?_
    · exact .bind (.delimited h) fun ns v hns => .pure (List.forall_mem_cons.mpr ⟨hn, hns⟩)
    · exact .pure (List.forall_mem_singleton.mpr hn)

theorem statementList_makes {ends : ParseState → Bool} {statement : Parser Node}
    {rest : Rule .nodes} {k : Slot} (hstatement : Makes c statement s fun n _ => n.Fills c k)
    (hrest : ∀ t, Makes c (Parser.call rest) t fun ns _ => ∀ n ∈ ns, n.Fills c k) :
    Makes c (statementList (Parser.read ends) statement rest) s
      fun ns _ => ∀ n ∈ ns, n.Fills c k := by
  refine .some fun _ => .some fun _ => .ite (fun _ => .pure (List.forall_mem_nil _)) fun _ => ?_
  refine .read (.bind hstatement fun n t hn => .bind .forceProgress fun _ u _ => ?_)
  exact .bind (hrest u) fun ns v hns => .pure (List.forall_mem_cons.mpr ⟨hn, hns⟩)

structure AreStatements (c : Scope) (ns : List Node) : Prop where
  fills : ∀ n ∈ ns, n.Fills c .any
  listed : Slot.areCases ns = true ∨ Listed c ns

theorem areStatements_nil : AreStatements c [] := ⟨List.forall_mem_nil _, Or.inl rfl⟩

/-- What a rule for lists of statements yields is listed. -/
theorem listOf_makes {r : Rule .nodes} (hr : r.isStatementList = true)
    (h : Makes c (Parser.call r) s fun ns _ => ∀ n ∈ ns, n.Fills c .any) :
    Makes c (Parser.call r) s fun ns _ => AreStatements c ns := by
  refine .of fun hs => h.yields.mono fun ns t ⟨hns, hyields⟩ => ⟨hns, Or.inr ?_⟩
  exact ⟨r, s, t, hr, hs.mode, hs.sound, hs.tokens, Parser.yields_call.mp hyields⟩

/-- The statements between the marks of something. -/
theorem statementsOf_makes {stop : TokenSet} :
    Makes c (Parser.call (.statements stop)) s fun ns _ => AreStatements c ns :=
  listOf_makes rfl (.call (r := .statements stop) trivial)

/-- A block is formed where it starts in front of the end of the text. -/
theorem block_formed {span : Span} {ns : List Node} (hns : AreStatements c ns)
    (h : c.strict = true → span.start.offset < c.stop) : (Production.block ns).Formed c span where
  places := by simpa using fun n hn => (hns.fills n hn).suits
  operand := by simp [Production.infix?]
  flags := fun _ => rfl
  outermost := by simp [Production.isNamespace]
  hollow := fun hs _ => h hs
  made := fun hne => absurd rfl hne
  listed := hns.listed
  named := by simp [Production.isName]

/-- Statements as a block, where they may be one. -/
theorem finishBlock_makes {o : Opened} {ns : List Node} (hns : AreStatements c ns)
    (h : c.strict = true → o.start.offset < c.stop) :
    Makes c (Parser.finish o (.block ns)) s fun n _ => n.Fills c .block :=
  .finishFormed (by simpa using hns.fills) (fun _ => block_formed hns h)
    fun _ _ _ hn => ⟨hn, Slot.suits_of_admits rfl rfl⟩

theorem block_makes : Makes c block s fun n _ => n.Fills c .block := by
  refine .isAt (fun hk => ?_) fun _ => Makes.missing.mono fun _ _ h => h.fills _
  have hne : s.kind ≠ .eof := by simp [hk]
  refine .openNode fun o t _ ho => .pass fun u => ?_
  refine .bind statementsOf_makes fun ns v hns => .demand fun w => ?_
  exact finishBlock_makes hns fun _ => ho hne

theorem shortBlock_makes {close : TokenKind} :
    Makes c (shortBlock close) s fun n _ => n.Fills c .any := by
  refine .openNode fun o t ht ho => .bind .require fun _ u hcolon => ?_
  refine .bind statementsOf_makes fun ns v hns => .demand fun w => .close fun x => ?_
  refine (finishBlock_makes hns fun hs => ho ?_).mono fun n y h => h.any nofun
  rw [← ht, hcolon hs]
  simp

theorem condition_makes : Makes c condition s fun n _ => n.Fills c .any :=
  .demand fun _ => .bind .expressionAny fun _ _ h => .demand fun _ => .pure h

/-! ## Variables -/

theorem literalConstant_closed {n : Node} (h : n.Closed c) : (literalConstant n).Closed c := by
  suffices hsame : (literalConstant n).production.isTraitUse = false ∧
      ¬(literalConstant n).EndsInAssignment from
    ⟨h.wellFormed.literalConstant, hsame.1, hsame.2⟩
  have hleaf {info : NodeInfo} {p : Production Node} (hother : p.isTraitUse = false)
      (htail : p.tail? = none) (hp : ∀ op left right, p ≠ .assign op left right) :
      p.isTraitUse = false ∧ ¬(Node.mk info p).EndsInAssignment :=
    ⟨hother, Node.not_endsInAssignment (fun op left right e => absurd e (hp op left right))
      fun m hm => by simp [htail] at hm⟩
  unfold literalConstant
  split
  · split
    · exact hleaf rfl rfl (by simp)
    · exact hleaf rfl rfl (by simp)
    · exact hleaf rfl rfl (by simp)
    · exact ⟨h.other, h.closed⟩
  · exact ⟨h.other, h.closed⟩

theorem simpleVariable_makes : Makes c simpleVariable s fun n _ => n.Closed c := by
  refine .begin fun o t => .kind ?_
  split
  · refine .some fun word => .pass fun u => ?_
    exact .finishClosed (by simp) rfl rfl (by simp)
  · refine .pass fun u => .ifEat (fun v => ?_) fun v => ?_
    · refine .bind .expressionAny fun n w hn => .demand fun x => ?_
      exact .finishClosed (by simpa using hn) rfl rfl (by simp)
    · refine .bind (.node rfl) fun n w hn => ?_
      exact .finishClosed (by simpa using hn) rfl rfl (by simp)
  · exact .bind .missing fun n u h => .abandon fun v _ => (h.handTo o).closed

theorem lookupsOf_makes {base : Node} {readOnly : Bool} (h : base.Closed c) :
    Makes c (Parser.call (.lookups base readOnly)) s fun n _ => n.Closed c :=
  .call (r := .lookups base readOnly) h

theorem simpleVariableOf_makes :
    Makes c (Parser.call .simpleVariable) s fun n _ => n.Closed c :=
  .call (r := .simpleVariable) trivial

theorem variableOf_makes {readOnly : Bool} :
    Makes c (Parser.call (.variable readOnly)) s
      fun n _ => n.Closed c ∧ (s.kind = .amp → n.isAssigned = false) :=
  .call (r := .variable readOnly) trivial

theorem nameOf_makes : Makes c (Parser.call .name) s fun n _ => IsName c n :=
  .call (r := .name) trivial

/-- A variable, or a reference where an ampersand is in front of it. -/
theorem variableWithLookups_makes {readOnly : Bool} :
    Makes c (variableWithLookups readOnly) s
      fun n _ => n.Closed c ∧ (s.kind = .amp → n.isAssigned = false) := by
  have hplain {p : Parser Node} (hk : s.kind ≠ .amp) (h : Makes c p s fun n _ => n.Closed c) :
      Makes c p s fun n _ => n.Closed c ∧ (s.kind = .amp → n.isAssigned = false) :=
    h.mono fun n t hn => ⟨hn, fun e => absurd e hk⟩
  have hname (t : ParseState) :
      Makes c (Parser.call .name >>= fun n => Parser.kind >>= fun k =>
        Parser.call (.lookups (if k = .doubleColon || k = .lParen then n else literalConstant n)
          readOnly)) t fun n _ => n.Closed c := by
    refine .bind nameOf_makes fun n u hn => .some fun k => lookupsOf_makes ?_
    split
    · exact hn.1
    · exact literalConstant_closed hn.1
  refine .kind ?_
  split
  case h_1 =>
    refine .begin fun o t => .pass fun u => .bind variableOf_makes fun n v ⟨hn, _⟩ => ?_
    refine .finishFormed (by simpa using hn.fills) (.ordinary rfl) fun info w _ h => ?_
    exact ⟨⟨h, rfl, Node.not_endsInAssignment (by simp) (by simp [Production.tail?])⟩, fun _ => rfl⟩
  case h_2 hk | h_3 hk =>
    exact hplain (by simp [hk]) (.bind simpleVariableOf_makes fun n t hn => lookupsOf_makes hn)
  case h_4 hk =>
    have hkeyword : s.kind ∈ TokenKind.nameKeywords := by simp [hk, TokenKind.nameKeywords]
    refine hplain (by simp [hk]) (.of fun hs => .openHere (.step ?_))
    exact .bind (keywordName_makes hs hkeyword) fun n v hn => lookupsOf_makes hn.1
  case h_5 hk | h_6 hk | h_7 hk => exact hplain (by simp [hk]) (hname s)
  case h_8 => exact Makes.missing.mono fun n _ h => ⟨h.closed, fun _ => h.isAssigned⟩

theorem arguments_makes : Makes c arguments s fun ns _ => ∀ n ∈ ns, n.Fills c .any :=
  .ifExpect (fun _ => .delimited rfl) fun _ => .pure (List.forall_mem_nil _)

theorem argumentsIfAny_makes : Makes c argumentsIfAny s fun ns _ => ∀ n ∈ ns, n.Fills c .any :=
  .isAt (fun _ => arguments_makes) fun _ => .pure (List.forall_mem_nil _)

theorem argument_makes : Makes c argument s fun n _ => n.Fills c .any := by
  refine .isAt (fun _ => ?_) fun _ => .expressionAny
  refine .begin fun o t => .pass fun u => .bind .expressionAny fun n v hn => ?_
  exact .finish (by simpa using hn) rfl rfl

theorem memberOf_makes : Makes c memberOf s fun n _ => n.Closed c := by
  refine .kind ?_
  split
  · exact simpleVariableOf_makes
  · exact simpleVariableOf_makes
  · exact memberName_makes

theorem lookup?_makes {base : Node} {readOnly : Bool} (h : base.Closed c) :
    Makes c (lookup? base readOnly) s fun o _ => ∀ n ∈ o, n.Closed c := by
  have hnone (t : ParseState) :
      Makes c (pure (none : Option Node)) t fun o _ => ∀ n ∈ o, n.Closed c :=
    .pure fun n hn => nomatch hn
  have hsome {o : Opened} {p : Production Node} {t : ParseState}
      (hp : ∀ e ∈ p.places, e.2.Fills c e.1) (ho : p.isOrdinary = true) (htail : p.tail? = none)
      (hassign : ∀ op left right, p ≠ .assign op left right) :
      Makes c (some <$> Parser.finish o p) t fun o _ => ∀ n ∈ o, n.Closed c :=
    .map (.finishClosed hp ho htail hassign) fun n u hn m hm => Option.some.inj hm ▸ hn
  have hbase := h.fills
  refine .kind ?_
  split
  · refine .ite (fun _ => hnone s) fun _ => ?_
    refine .openAt fun o t => .bind arguments_makes fun args u hargs => ?_
    exact hsome (by simpa [hbase] using hargs) rfl rfl (by simp)
  · refine .openAt fun o t => .pass fun u => .some fun _ => ?_
    refine .bind (.optionally .expressionAny) fun offset v hoffset => .demand fun w => ?_
    exact hsome (by simpa [hbase] using hoffset) rfl rfl (by simp)
  · refine .ite (fun _ => ?_) fun _ => hnone s
    refine .openAt fun o t => .pass fun u => .bind .expressionAny fun offset v hoffset => ?_
    exact .demand fun w => hsome (by simp [hbase, hoffset]) rfl rfl (by simp)
  · refine .openAt fun o t => .pass fun u => .bind memberOf_makes fun member v hmember => ?_
    exact hsome (by simp [hbase, hmember.fills]) rfl rfl (by simp)
  · refine .openAt fun o t => .pass fun u => .ifEat (fun v => ?_) fun v => ?_
    · refine .bind .expressionAny fun member w hmember => .demand fun x => ?_
      exact hsome (by simp [hbase, hmember]) rfl rfl (by simp)
    · refine .bind memberOf_makes fun member w hmember => ?_
      exact hsome (by simp [hbase, hmember.fills]) rfl rfl (by simp)
  · exact hnone s

theorem lookups_makes {base : Node} {readOnly : Bool} (h : base.Closed c) :
    Makes c (lookups base readOnly) s fun n _ => n.Closed c := by
  refine .bind (lookup?_makes h) fun o t ho => ?_
  cases o with
  | none => exact .pure h
  | some n => exact lookupsOf_makes (ho n rfl)

/-! ## Functions -/

theorem typeName_makes : Makes c typeName s fun n _ => n.Fills c .name := by
  have hname (t : ParseState) : Makes c (Parser.call .name) t fun n _ => n.Fills c .name :=
    nameOf_makes.mono fun _ _ h => h.fills
  have hkeyword (h : s.kind ∈ TokenKind.nameKeywords) (word : String) :
      Makes c (do
        let o ← Parser.openNode
        Parser.advance
        Parser.finish o (.name word .unqualified)) s fun n _ => n.Fills c .name :=
    .of fun hs => .openHere (.step ((keywordName_makes hs h).mono fun _ _ hn => hn.fills))
  refine .kind ?_
  split
  case h_1 hk | h_2 hk => exact hkeyword (by simp [hk, TokenKind.nameKeywords]) _
  case h_3 => exact hname s

theorem returnType_makes : Makes c returnType s fun r _ => ∀ n ∈ r.1, n.Fills c .name := by
  refine .isAt (fun _ => ?_) fun _ => .pure fun n hn => nomatch hn
  refine .bind .requireOption fun _ t _ => .pass fun u => .bind .eat fun nullable v _ => ?_
  exact .bind typeName_makes fun n w hn => .pure fun m hm => Option.some.inj hm ▸ hn

theorem initialValue_makes : Makes c initialValue s fun o _ => ∀ n ∈ o, n.Fills c .any :=
  .after fun _ => .expressionAny

theorem parameter_makes : Makes c parameter s fun n _ => n.Fills c .parameter := by
  refine .begin fun o t => .bind .eat fun nullable u _ => .some fun k => ?_
  refine .bind (.optionally typeName_makes) fun type v htype => .bind .eat fun byRef w _ => ?_
  refine .bind .eat fun variadic x _ => .bind variableName_makes fun ident y hident => ?_
  refine .bind initialValue_makes fun default z hdefault => ?_
  exact .finish (by simpa [or_imp, forall_and, hident] using ⟨htype, hdefault⟩) rfl rfl

theorem parameters_makes : Makes c parameters s fun ns _ => ∀ n ∈ ns, n.Fills c .parameter :=
  .ifExpect (fun _ => delimited_makes rfl) fun _ => .pure (List.forall_mem_nil _)

theorem functionDeclaration_makes : Makes c functionDeclaration s fun n _ => n.Fills c .any := by
  refine .begin fun o t => .pass fun u => .bind .eat fun byRef v _ => ?_
  refine .bind identifier_makes fun ident w hident => .bind parameters_makes fun ps x hps => ?_
  refine .bind returnType_makes fun type y htype => .bind block_makes fun body z hbody => ?_
  exact .finish (by simpa [or_imp, forall_and, hident, hbody] using ⟨hps, htype⟩) rfl rfl

theorem method_makes {o : Opened} {modifiers : Modifiers} :
    Makes c (method o modifiers) s fun n _ => n.Fills c .member := by
  refine .pass fun t => .bind .eat fun byRef u _ => .some fun php7 => ?_
  refine .join (U := fun n _ => n.Fills c .any) (fun _ => ?_) (fun _ => identifier_makes)
    fun ident v hident => ?_
  · exact memberName_makes.mono fun _ _ h => h.fills
  refine .bind parameters_makes fun ps w hps => .bind returnType_makes fun type x htype => ?_
  refine .isAt (fun _ => .close fun y => ?_) fun _ => .bind block_makes fun body y hbody => ?_
  · exact .finish (by simpa [or_imp, forall_and, hident] using ⟨hps, htype⟩) rfl rfl
  · exact .finish (by simpa [or_imp, forall_and, hident, hbody] using ⟨hps, htype⟩) rfl rfl

theorem lexicalVariable_makes : Makes c lexicalVariable s fun n _ => n.Fills c .any := by
  have hvariable (t : ParseState) :
      Makes c (Parser.call .simpleVariable) t fun n _ => n.Fills c .any := .node rfl
  refine .isAt (fun _ => ?_) fun _ => hvariable s
  refine .begin fun o t => .pass fun u => .bind (hvariable u) fun n v hn => ?_
  exact .finish (by simpa using hn) rfl rfl

theorem lexicalVariables_makes : Makes c lexicalVariables s fun ns _ => ∀ n ∈ ns, n.Fills c .any :=
  .ifEat (fun _ => .ifExpect (fun _ => delimited_makes rfl) fun _ => .pure (List.forall_mem_nil _))
    fun _ => .pure (List.forall_mem_nil _)

theorem closure_makes {o : Opened} {isStatic : Bool} :
    Makes c (closure o isStatic) s fun n _ => n.Closed c := by
  refine .pass fun t => .bind .eat fun byRef u _ => .bind parameters_makes fun ps v hps => ?_
  refine .bind lexicalVariables_makes fun uses w huses => ?_
  refine .bind returnType_makes fun type x htype => .bind block_makes fun body y hbody => ?_
  refine .finishClosed ?_ rfl rfl (by simp)
  simpa [or_imp, forall_and, hbody] using ⟨hps, huses, htype⟩

theorem arrowFunction_makes {o : Opened} {isStatic : Bool} :
    Makes c (arrowFunction o isStatic) s fun n t => n.Whole c t := by
  refine .pass fun t => .bind .eat fun byRef u _ => .bind parameters_makes fun ps v hps => ?_
  refine .bind returnType_makes fun type w htype => .demand fun x => ?_
  refine .bind .expression fun body y ⟨hbody, _⟩ => .finishWhole ?_ (.ordinary rfl) rfl hbody
  simpa [or_imp, forall_and, hbody.fills] using ⟨hps, htype⟩

/-! ## Classes -/

theorem memberModifiers_makes {before : Modifiers} :
    Makes c (memberModifiers before) s fun _ _ => True := by
  refine .some fun _ => .ite (fun _ => .some fun k => ?_) fun _ => .pure trivial
  have hrest (t : ParseState) :
      Makes c (Parser.call (.memberModifiers (addModifier before k).1)) t fun _ _ => True :=
    .call (r := .memberModifiers _) trivial
  cases hm : (addModifier before k).2 with
  | some message =>
    simp only [hm]
    exact .bind .objection fun _ t _ => .pass fun u => hrest u
  | none =>
    simp only [hm]
    exact .pass fun t => hrest t

theorem constant_makes {reserved : Bool} : Makes c (constant reserved) s fun n _ => n.Fills c .any := by
  refine .begin fun o t => .join (U := fun n _ => n.Fills c .any) (fun _ => ?_)
    (fun _ => identifier_makes) fun ident u hident => .demand fun v => ?_
  · exact memberName_makes.mono fun _ _ h => h.fills
  refine .bind .expressionAny fun value w hvalue => ?_
  exact .finish (by simp [hident, hvalue]) rfl rfl

theorem property_makes : Makes c property s fun n _ => n.Fills c .any := by
  refine .begin fun o t => .bind variableName_makes fun ident u hident => ?_
  refine .bind initialValue_makes fun value v hvalue => ?_
  exact .finish (by simpa [or_imp, forall_and, hident] using hvalue) rfl rfl

theorem propertyStatement_makes {o : Opened} {modifiers : Modifiers} :
    Makes c (propertyStatement o modifiers) s fun n _ => n.Fills c .member := by
  have hrest (type : Option Node) (nullable : Bool) (htype : ∀ n ∈ type, n.Fills c .name)
      (t : ParseState) : Makes c (separated .comma .property >>= fun properties =>
        Parser.endStatement >>= fun _ =>
          Parser.finish o (.propertyStatement properties modifiers type nullable)) t
        fun n _ => n.Fills c .member := by
    refine .bind (separated_makes rfl) fun ps u hps => .close fun v => ?_
    exact .finish (by simpa [or_imp, forall_and] using ⟨htype, hps⟩) rfl rfl
  refine .isAt (fun _ => hrest none false (fun n hn => nomatch hn) s) fun _ => ?_
  refine .bind .requireOption fun _ t _ => .bind .eat fun nullable u _ => ?_
  refine .bind typeName_makes fun type v htype => hrest (some type) nullable ?_ v
  exact fun n hn => Option.some.inj hn ▸ htype

theorem classConstant_makes {o : Opened} {modifiers : Modifiers} :
    Makes c (classConstant o modifiers) s fun n _ => n.Fills c .member := by
  refine .pass fun t => .bind (separated_makes rfl) fun ns u hns => .close fun v => ?_
  exact .finish (by simpa using hns) rfl rfl

theorem braceGroup_makes {depth : Nat} : Makes c (braceGroup depth) s fun _ _ => True := by
  refine .some fun k => ?_
  split
  · exact .bind .missing fun _ _ _ => .pure trivial
  · refine .pass fun t => .ite (fun _ => .pure trivial) fun _ => ?_
    exact .call (r := .braceGroup _) trivial

theorem traitUse_makes (hk : s.kind = .kwUse) :
    Makes c traitUse s fun n _ => n.Fills c .member := by
  have hfinish {o : Opened} {ns : List Node} {adaptations : Option String} {t : ParseState}
      (hns : ∀ n ∈ ns, n.Fills c .name) :
      Makes c (Parser.finish o (.traitUse ns adaptations)) t
        fun n _ => n.Filled c [.kwUse] traitUse ∧ Slot.member.admits n.production = true := by
    refine Makes.finishBare.mono fun n u hn => ?_
    rw [hn]
    exact ⟨⟨hn ▸ rfl, hn ▸ List.mem_cons_self, hn ▸ by simpa using hns⟩, rfl⟩
  refine .yielded (List.mem_singleton.mpr hk) (by decide)
    (U := fun n _ => n.Filled c [.kwUse] traitUse ∧ Slot.member.admits n.production = true) ?_
    fun n t hn ⟨hfilled, hmember⟩ => 
      ⟨hfilled.wellFormed hn, Slot.accepts_of_admits hmember, fun _ => rfl⟩
  refine .begin fun o t => .pass fun u => .bind (separated_makes rfl) fun ns v hns => ?_
  refine .isAt (fun _ => .some fun start => ?_) fun _ => .close fun w => hfinish hns
  exact .bind (.call trivial) fun _ w _ => .some fun adaptations => hfinish hns

theorem memberAfter_makes {o : Opened} {m : Modifiers} :
    Makes c (memberAfter o m) s fun n _ => n.Fills c .member := by
  refine .some fun k => .ite (fun _ => classConstant_makes) fun _ => ?_
  refine .ite (fun _ => method_makes) fun _ => .ite (fun _ => propertyStatement_makes) fun _ => ?_
  refine .bind .missing fun n t hn => ?_
  refine .bind (.abandon (V := fun n _ => n.Missing c) fun u _ => hn.handTo o) fun n u hn => ?_
  exact .some fun k => .possibly (fun _ => .advance) fun v => .pure (hn.fills _)

theorem member_makes : Makes c member s fun n _ => n.Fills c .member := by
  refine .isAt traitUse_makes fun _ => .begin fun o t => ?_
  refine .ifEat (fun u => propertyStatement_makes) fun u => ?_
  exact .bind (.call trivial) fun m v _ => memberAfter_makes

theorem members_makes : Makes c members s fun ns _ => ∀ n ∈ ns, n.Fills c .member :=
  statementList_makes member_makes fun _ => .call (r := .members) trivial

theorem classFlags_makes {isAbstract isFinal : Bool}
    (h : c.strict = true → (isAbstract && isFinal) = false) :
    Makes c (classFlags isAbstract isFinal) s
      fun flags _ => c.strict = true → (flags.1 && flags.2) = false := by
  have hrest {isAbstract isFinal : Bool} (t : ParseState)
      (h : c.strict = true → (isAbstract && isFinal) = false) :
      Makes c (Parser.advance >>= fun _ => Parser.call (.classFlags isAbstract isFinal)) t
        fun flags _ => c.strict = true → (flags.1 && flags.2) = false :=
    .pass fun u => .call (r := .classFlags isAbstract isFinal) h
  -- Behind an objection the parse is tolerant, and without one the other flag is missing.
  have hobjection {isAbstract isFinal : Bool} {message : String} :
      Makes c (Parser.objection .unexpectedToken message >>= fun _ =>
        Parser.advance >>= fun _ => Parser.call (.classFlags isAbstract isFinal)) s
        fun flags _ => c.strict = true → (flags.1 && flags.2) = false :=
    .bind .objection fun _ t hmode => hrest t fun hs => by rw [hmode] at hs; cases hs
  refine .kind ?_
  split
  · refine .ite (fun _ => hobjection) fun _ => .ite (fun _ => hobjection) fun hfinal => ?_
    exact hrest s fun _ => by simpa using hfinal
  · refine .ite (fun _ => hobjection) fun _ => .ite (fun _ => hobjection) fun habstract => ?_
    exact hrest s fun _ => by simpa using habstract
  · exact .pure h

theorem classBody_makes : Makes c classBody s fun ns _ => ∀ n ∈ ns, n.Fills c .member := by
  refine .ifExpect (fun t => ?_) fun _ => .pure (List.forall_mem_nil _)
  exact .bind (.call (r := .members) trivial) fun ms u hms => .demand fun v => .pure hms

theorem names_makes {mark : TokenKind} :
    Makes c (separated mark .name) s fun ns _ => ∀ n ∈ ns, n.Fills c .name :=
  separated_makes rfl

theorem namesAfter_makes {k : TokenKind} :
    Makes c (namesAfter k) s fun ns _ => ∀ n ∈ ns, n.Fills c .name :=
  .ifEat (fun _ => names_makes) fun _ => .pure (List.forall_mem_nil _)

theorem heritage_makes :
    Makes c heritage s fun h _ => (∀ n ∈ h.1, n.Fills c .name) ∧ ∀ n ∈ h.2, n.Fills c .name := by
  refine .bind (.after fun t => nameOf_makes) fun parent t hparent => ?_
  refine .bind namesAfter_makes fun interfaces u hinterfaces => .pure ⟨?_, hinterfaces⟩
  exact fun n hn => (hparent n hn).fills

/-- A class is formed where it is not both abstract and final, and its rule has made it. -/
theorem class_formed {span : Span} {ident parent : Option Node} {implements body : List Node}
    {isAbstract isFinal isAnonymous : Bool}
    (hflags : c.strict = true → (isAbstract && isFinal) = false)
    (h : ∀ e ∈ (Production.class ident parent implements body isAbstract isFinal
      isAnonymous).places, e.1.Suits e.2)
    (hmade : (Production.class ident parent implements body isAbstract isFinal
      isAnonymous).Made c span) :
    (Production.class ident parent implements body isAbstract isFinal isAnonymous).Formed c span where
  places := h
  operand := by simp [Production.infix?]
  flags := hflags
  outermost := by simp [Production.isNamespace]
  hollow := by simp [Production.isHollow]
  made := fun _ => hmade
  listed := Or.inl rfl
  named := by simp [Production.isName]

/-- What a class is before it is known to be what its rule yields. -/
def IsClass (c : Scope) (n : Node) : Prop :=
  ∃ ident parent implements body isAbstract isFinal,
    n.production = .class ident parent implements body isAbstract isFinal false ∧
      (c.strict = true → (isAbstract && isFinal) = false) ∧
      ∀ e ∈ n.production.places, e.2.Fills c e.1

theorem IsClass.wellFormed {n : Node} (h : IsClass c n)
    (hn : n.Yielded c [.kwAbstract, .kwFinal, .kwClass] classDeclaration) : n.WellFormed c := by
  obtain ⟨ident, parent, implements, body, isAbstract, isFinal, hp, hflags, hfills⟩ := h
  have hmade : n.production.Made c n.span :=
    ⟨_, by rw [hp]; exact List.mem_cons_self, n, hn, rfl, rfl⟩
  obtain ⟨info, p⟩ := n
  obtain rfl : p = _ := hp
  exact Node.wellFormed_mk hfills fun h => class_formed hflags h hmade

theorem IsClass.other {n : Node} (h : IsClass c n) : n.production.isTraitUse = false := by
  obtain ⟨_, _, _, _, _, _, hp, _⟩ := h
  rw [hp]
  rfl

theorem classDeclaration_makes (hk : s.kind ∈ [.kwAbstract, .kwFinal, .kwClass]) :
    Makes c classDeclaration s fun n _ => n.Fills c .any := by
  refine .yielded hk (by decide) (U := fun n _ => n.Missing c ∨ IsClass c n) ?_ fun n t hn h => ?_
  · refine .begin fun o t => .bind (.call (r := .classFlags false false) fun _ => rfl) ?_
    intro flags u hflags
    refine .ifEat (fun v => ?_) fun v => ?_
    · refine .bind identifier_makes fun ident w hident => ?_
      refine .bind heritage_makes fun (parent, interfaces) x ⟨hparent, hinterfaces⟩ => ?_
      refine .bind classBody_makes fun body y hbody => Makes.finishBare.mono fun n z hn => ?_
      refine Or.inr ⟨_, _, _, _, _, _, hn, hflags, ?_⟩
      rw [hn]
      simpa [or_imp, forall_and, hident] using ⟨hparent, hinterfaces, hbody⟩
    · exact .bind .missing fun n w hn => .abandon fun x _ => Or.inl (hn.handTo o)
  · rcases h with h | h
    · exact h.fills _
    · exact (h.wellFormed hn).fills h.other

theorem anonymousClass_makes (hk : s.kind = .kwClass) :
    Makes c anonymousClass s fun r _ => r.1.Fills c .any ∧ ∀ n ∈ r.2, n.Fills c .any := by
  have hrule : Makes c anonymousClass s fun r _ =>
      r.1.Filled c [.kwClass] (do return (← anonymousClass).1) ∧ ∀ n ∈ r.2, n.Fills c .any := by
    refine .begin fun o t => .pass fun u => .bind argumentsIfAny_makes fun args v hargs => ?_
    refine .bind heritage_makes fun (parent, interfaces) w ⟨hparent, hinterfaces⟩ => ?_
    refine .bind classBody_makes fun body x hbody => ?_
    refine .bind (.finishFilled ?_ rfl (List.mem_cons_of_mem _ List.mem_cons_self))
      fun n y hn => .pure ⟨hn, hargs⟩
    simpa [or_imp, forall_and] using ⟨hparent, hinterfaces, hbody⟩
  refine .of fun hs => hrule.yields.mono fun r t ⟨⟨hfilled, hargs⟩, hyields⟩ => ⟨?_, hargs⟩
  have heof : s.kind ≠ .eof := by simp [hk]
  refine (hfilled.wellFormed ?_).fills (hfilled.other (by decide))
  exact ⟨s, t, hs.mode, hs.options, hs.sound, hs.tokens heof, List.mem_singleton.mpr hk,
    Parser.yields_bind.mpr ⟨r, t, hyields, Parser.yields_pure.mpr ⟨rfl, rfl⟩⟩⟩

theorem interfaceDeclaration_makes (hk : s.kind = .kwInterface) :
    Makes c interfaceDeclaration s fun n _ => n.Fills c .any := by
  refine .filled (List.mem_singleton.mpr hk) (by decide) (by decide) ?_
  refine .begin fun o t => .pass fun u => .bind identifier_makes fun ident v hident => ?_
  refine .bind namesAfter_makes fun parents w hparents =>
    .bind classBody_makes fun body x hbody => ?_
  refine .finishFilled ?_ rfl List.mem_cons_self
  simpa [or_imp, forall_and, hident] using ⟨hparents, hbody⟩

theorem traitDeclaration_makes (hk : s.kind = .kwTrait) :
    Makes c traitDeclaration s fun n _ => n.Fills c .any := by
  refine .filled (List.mem_singleton.mpr hk) (by decide) (by decide) ?_
  refine .begin fun o t => .pass fun u => .bind identifier_makes fun ident v hident => ?_
  refine .bind classBody_makes fun body w hbody => ?_
  refine .finishFilled ?_ rfl List.mem_cons_self
  simpa [or_imp, forall_and, hident] using hbody

end PhpSyntax.Grammar
