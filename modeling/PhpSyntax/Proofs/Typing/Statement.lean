import PhpSyntax.Grammar.Scope
import PhpSyntax.Proofs.Grammar.Loop
import PhpSyntax.Proofs.Typing.Expression

namespace PhpSyntax.Grammar

attribute [local simp] Production.places Production.fields Production.children Field.children
  Rule.slot

variable {c : Scope} {s : ParseState}

/-! ## Statements of one form -/

theorem expressionStatement_makes : Makes c expressionStatement s fun n _ => n.Fills c .any := by
  refine .begin fun o t => .bind .expressionAny fun n u hn => .close fun v => ?_
  exact .finish (by simpa using hn) rfl rfl

theorem withOptionalExpression_makes {p : Option Node → Production Node}
    (hp : ∀ n, (p n).places = n.toList.map (Slot.any, ·)) (ho : ∀ n, (p n).isOrdinary = true) :
    Makes c (withOptionalExpression p) s fun n _ => n.Fills c .any := by
  refine .begin fun o t => .pass fun u => .some fun _ => ?_
  refine .bind (.optionally .expressionAny) fun n v hn => .close fun w => ?_
  refine .finish ?_ rfl (ho n)
  rw [hp]
  simpa using hn

theorem withItems_makes {item : Rule .node} {p : List Node → Production Node}
    (hitem : item.isPlain = true) (hp : ∀ ns, (p ns).places = ns.map (item.slot, ·))
    (ho : ∀ ns, (p ns).isOrdinary = true) :
    Makes c (withItems item p) s fun n _ => n.Fills c .any := by
  refine .begin fun o t => .pass fun u => .bind (separated_makes hitem) fun ns v hns => ?_
  refine .close fun w => .finish ?_ rfl (ho ns)
  rw [hp]
  simpa using hns

theorem staticVariable_makes : Makes c staticVariable s fun n _ => n.Fills c .staticVariable := by
  refine .begin fun o t => .bind simpleVariableOf_makes fun target u htarget => ?_
  refine .bind initialValue_makes fun default v hdefault => ?_
  exact .finish (by simpa [or_imp, forall_and, htarget.fills] using hdefault) rfl rfl

theorem echoStatement_makes : Makes c echoStatement s fun n _ => n.Fills c .any :=
  .some fun _ => withItems_makes rfl (by simp) fun _ => rfl

theorem inlineHtml_makes : Makes c inlineHtml s fun n _ => n.Fills c .any :=
  .begin fun _ _ => .some fun _ => .pass fun _ => .finish (by simp) rfl rfl

theorem unsetStatement_makes : Makes c unsetStatement s fun n _ => n.Fills c .any := by
  refine .begin fun o t => .pass fun u => .bind .expect fun b v _ => ?_
  refine .join (U := fun ns _ => ∀ n ∈ ns, n.Fills c .any) (fun _ => delimited_makes rfl)
    (fun _ => .pure fun n hn => nomatch hn) fun ns w hns => .close fun x => ?_
  exact .finish (by simpa using hns) rfl rfl

theorem throwStatement_makes : Makes c throwStatement s fun n _ => n.Fills c .any := by
  refine .begin fun o t => .pass fun u => .bind .expressionAny fun n v hn => .close fun w => ?_
  exact .finish (by simpa using hn) rfl rfl

theorem gotoStatement_makes : Makes c gotoStatement s fun n _ => n.Fills c .any := by
  refine .begin fun o t => .pass fun u => .bind identifier_makes fun n v hn => .close fun w => ?_
  exact .finish (by simpa using hn) rfl rfl

theorem label_makes : Makes c label s fun n _ => n.Fills c .any := by
  refine .begin fun o t => .bind identifier_makes fun n u hn => .demand fun v => ?_
  exact .finish (by simpa using hn) rfl rfl

theorem emptyStatement_makes (hs : s.kind = .semicolon) :
    Makes c emptyStatement s fun n _ => n.Fills c .any := by
  have hne : s.kind ≠ .eof := by simp [hs]
  refine .openNode fun o t _ ho => .pass fun u => ?_
  exact .finishFormed (by simp) (fun _ => noop_formed fun _ => ho hne) fun _ _ _ h => h.fills rfl

/-! ## Conditionals -/

theorem shortElse_makes :
    Makes c shortElse s fun n t => (c.strict = true → t.kind ≠ .eof) → n.Fills c .any := by
  refine .pass fun t => .demand fun u => .openNode fun o v hv ho => ?_
  refine .follow statementsOf_makes fun ns w hw hns => .finishIf fun husable => ?_
  refine (finishBlock_makes hns fun hs => ho fun hend => ?_).mono fun n x h => h.any nofun
  exact husable hs (hw (hv.trans hend))

/-- The last branch may be opened at the end of the text.  In strict mode the keyword that
closes the conditional is missing there, so what a branch yields matters only where the text
goes on. -/
def AreBranches (c : Scope) (r : Node × Option Node) (t : ParseState) : Prop :=
  (c.strict = true → t.kind ≠ .eof) → r.1.Fills c .any ∧ ∀ n ∈ r.2, n.Fills c .any

theorem shortBranch_makes : Makes c shortBranch s (AreBranches c) := by
  refine .openNode fun o t ht ho => .follow statementsOf_makes fun ns u hu hns => ?_
  have hbody : Makes c (Parser.finish o (.block ns)) u
      fun n v => (c.strict = true → v.kind ≠ .eof) → n.Fills c .any := by
    refine .finishIf fun husable => ?_
    refine (finishBlock_makes hns fun hs => ho fun hend => ?_).mono fun n x h => h.any nofun
    exact husable hs (hu (ht.trans hend))
  refine .bind hbody fun body v hv => .kind ?_
  split
  case h_1 hk =>
    have hbody := hv fun _ => by simp [hk]
    have hkind : v.kind ∈ [.kwElseIf] := by simp [hk]
    refine .bind (.call (r := .shortElseIf) hkind) fun n w hn => .pure fun husable => ⟨hbody, ?_⟩
    exact fun m hm => Option.some.inj hm ▸ hn husable
  case h_2 hk =>
    have hbody := hv fun _ => by simp [hk]
    refine .bind shortElse_makes fun n w hn => .pure fun husable => ⟨hbody, ?_⟩
    exact fun m hm => Option.some.inj hm ▸ hn husable
  case h_3 => exact .pure fun husable => ⟨hv husable, fun n hn => nomatch hn⟩

theorem shortElseIf_makes (hk : s.kind ∈ [.kwElseIf]) :
    Makes c shortElseIf s fun n t => (c.strict = true → t.kind ≠ .eof) → n.Fills c .any := by
  refine .yielded hk (by decide)
    (U := fun n t => (c.strict = true → t.kind ≠ .eof) → n.Filled c [.kwElseIf] shortElseIf) ?_
    fun n t hn h husable =>
      ((h husable).wellFormed hn).fills ((h husable).other (by decide))
  refine .begin fun o t => .pass fun u => .bind condition_makes fun test v htest => ?_
  refine .demand fun w => .bind shortBranch_makes fun (body, alternate) x hbranches => ?_
  refine .finishIf fun husable => ?_
  obtain ⟨hbody, halternate⟩ := hbranches husable
  refine .finishFilled ?_ rfl (List.mem_cons_of_mem _ List.mem_cons_self)
  simpa [or_imp, forall_and] using ⟨htest, hbody, halternate⟩

theorem statementOf_makes : Makes c (Parser.call .statement) s fun n _ => n.Fills c .any :=
  .call (r := .statement) trivial

theorem ifOf_makes (hk : s.kind ∈ [.kwIf, .kwElseIf]) :
    Makes c (Parser.call .ifStatement) s fun n _ => n.Fills c .any :=
  .call (r := .ifStatement) hk

theorem ifStatement_makes (hk : s.kind ∈ [.kwIf, .kwElseIf]) :
    Makes c ifStatement s fun n _ => n.Fills c .any := by
  refine .filled hk (by decide) (by decide) (.begin fun o t => .pass fun u => ?_)
  refine .bind condition_makes fun test v htest => ?_
  refine .ifEat (fun w => ?_) fun w => .bind statementOf_makes fun body x hbody => .kind ?_
  · refine .bind shortBranch_makes fun (body, alternate) x hbranches => ?_
    refine .bind .require fun _ y hclose => .close fun z => ?_
    obtain ⟨hbody, halternate⟩ := hbranches fun hs => by simp [hclose hs]
    refine .finishFilled ?_ rfl List.mem_cons_self
    simpa [or_imp, forall_and] using ⟨htest, hbody, halternate⟩
  · split
    case h_1 hx =>
      refine .bind (ifOf_makes (by simp [hx])) fun alternate y halternate => ?_
      exact .finishFilled (by simp [htest, hbody, halternate]) rfl List.mem_cons_self
    case h_2 =>
      refine .pass fun y => .bind statementOf_makes fun alternate z halternate => ?_
      exact .finishFilled (by simp [htest, hbody, halternate]) rfl List.mem_cons_self
    case h_3 => exact .finishFilled (by simp [htest, hbody]) rfl List.mem_cons_self

/-! ## Choices -/

theorem caseTest_makes : Makes c caseTest s fun o _ => ∀ n ∈ o, n.Fills c .any := by
  refine .kind ?_
  split
  · refine .pass fun t => .bind .expressionAny fun n u hn => .pure fun m hm => ?_
    exact Option.some.inj hm ▸ hn
  · exact .pass fun t => .pure fun n hn => nomatch hn
  · exact .bind .missing fun n t hn => .pure fun m hm => Option.some.inj hm ▸ hn.fills _

def IsCase (c : Scope) (n : Node) : Prop := n.WellFormed c ∧ n.production.isCase = true

theorem IsCase.other {n : Node} (h : IsCase c n) : n.production.isTraitUse = false := by
  have hcase := h.2
  obtain ⟨info, p⟩ := n
  cases p with
  | case => rfl
  | _ => cases hcase

theorem caseClause_makes {close : TokenKind} :
    Makes c (caseClause close) s fun n _ => IsCase c n := by
  refine .begin fun o t => .bind caseTest_makes fun test u htest => .some fun k => ?_
  have hrest (t : ParseState) : Makes c
      (Parser.call (.statements (.ofList [.kwCase, .kwDefault, close])) >>= fun body =>
        Parser.finish o (.case test body)) t fun n _ => IsCase c n := by
    refine .bind statementsOf_makes fun body v hbody => ?_
    refine .finishFormed ?_ (fun h => .simple rfl h hbody.listed) fun _ _ _ h => ⟨h, rfl⟩
    simpa [or_imp, forall_and] using ⟨htest, hbody.fills⟩
  split
  · exact .pass fun v => hrest v
  · exact .pass fun v => hrest v
  · exact .bind .missing fun _ v _ => hrest v

theorem cases_makes {close : TokenKind} :
    Makes c (cases close) s fun ns _ => ∀ n ∈ ns, IsCase c n := by
  refine .some fun _ => .some fun _ => .ite (fun _ => .pure (List.forall_mem_nil _)) fun _ => ?_
  refine .bind caseClause_makes fun n t hn => .bind (.call (r := .cases close) trivial) ?_
  exact fun ns u hns => .pure (List.forall_mem_cons.mpr ⟨hn, hns⟩)

theorem openCases_makes :
    Makes c openCases s fun close _ => (c.strict = true → s.kind ≠ .eof) ∧ close ≠ .eof := by
  refine .kind ?_
  split
  case h_1 hk => exact .pass fun t => .pure ⟨fun _ => by simp [hk], by simp⟩
  case h_2 hk => exact .pass fun t => .pure ⟨fun _ => by simp [hk], by simp⟩
  case h_3 =>
    refine .bind .missing fun n t hn => .pure ⟨fun hs => ?_, by simp⟩
    rw [hn.mode] at hs
    cases hs

structure AreCases (c : Scope) (ns : List Node) : Prop where
  fills : ∀ n ∈ ns, n.Fills c .any
  cases : Slot.areCases ns = true

theorem AreCases.statements {ns : List Node} (h : AreCases c ns) : AreStatements c ns :=
  ⟨h.fills, Or.inl h.cases⟩

theorem areCases_of_isCase {ns : List Node} (h : ∀ n ∈ ns, IsCase c n) : AreCases c ns where
  fills := fun n hn => (h n hn).1.fills (h n hn).other
  cases := by
    rw [Slot.areCases, Bool.or_eq_true, List.all_eq_true]
    exact Or.inl fun n hn => (h n hn).2

theorem commentsAlone_makes :
    Makes c commentsAlone s fun ns t => (c.strict = true → t.kind ≠ .eof) → AreCases c ns := by
  have hnone : AreCases c [] := areCases_of_isCase (List.forall_mem_nil _)
  refine .some fun unread => .ite (fun _ => ?_) fun _ => .pure fun _ => hnone
  refine .openNode fun o t ht ho => .bind (.finishIf (P := fun n => AreCases c [n]) ?_) ?_
  · refine fun husable => .finishFormed (by simp) (fun _ => noop_formed fun hs => ?_) ?_
    · exact ho (ht ▸ husable hs)
    · exact fun info u _ h => ⟨List.forall_mem_singleton.mpr (h.fills rfl), rfl⟩
  · exact fun n u hn => .pure hn

theorem caseList_makes : Makes c caseList s fun n _ => n.Fills c .cases := by
  refine .openNode fun o t ht ho => .bind openCases_makes fun close u ⟨hopen, hclose⟩ => ?_
  refine .bind .eat fun _ v _ => .bind (.call (r := .cases close) trivial) fun ns w hns => ?_
  refine .join (U := fun ns x => (c.strict = true → x.kind ≠ .eof) → AreCases c ns)
    (fun _ => commentsAlone_makes) (fun _ => .pure fun _ => areCases_of_isCase hns) ?_
  intro children x hchildren
  refine .bind .require fun _ y hrequired => .possibly (fun _ => .endStatement) fun z => ?_
  have hcases := hchildren fun hs => hrequired hs ▸ hclose
  refine .finishFormed (by simpa using hcases.fills) (fun _ => ?_) fun _ _ _ h => ?_
  · exact block_formed hcases.statements fun hs => ho (ht ▸ hopen hs)
  · exact ⟨h, Slot.suits_of_admits hcases.cases rfl⟩

theorem switchStatement_makes : Makes c switchStatement s fun n _ => n.Fills c .any := by
  refine .begin fun o t => .pass fun u => .bind condition_makes fun test v htest => ?_
  refine .some fun shortform => .bind caseList_makes fun body w hbody => ?_
  exact .finish (by simp [htest, hbody]) rfl rfl

/-! ## Handlers -/

theorem handler_makes : Makes c handler s fun n _ => n.Fills c .handler := by
  refine .begin fun o t => .pass fun u => .demand fun v => .bind names_makes fun types w htypes => ?_
  refine .bind simpleVariableOf_makes fun var x hvar => .demand fun y => ?_
  refine .bind block_makes fun body z hbody => .finish ?_ rfl rfl
  simpa [or_imp, forall_and, hvar.fills, hbody] using htypes

theorem handlersOf_makes :
    Makes c (Parser.call .handlers) s fun ns _ => ∀ n ∈ ns, n.Fills c .handler :=
  .call (r := .handlers) trivial

theorem handlers_makes : Makes c handlers s fun ns _ => ∀ n ∈ ns, n.Fills c .handler := by
  refine .isAt (fun _ => ?_) fun _ => .pure (List.forall_mem_nil _)
  refine .bind handler_makes fun n t hn => .bind handlersOf_makes fun ns u hns => ?_
  exact .pure (List.forall_mem_cons.mpr ⟨hn, hns⟩)

theorem tryStatement_makes : Makes c tryStatement s fun n _ => n.Fills c .any := by
  refine .begin fun o t => .pass fun u => .bind block_makes fun body v hbody => ?_
  refine .bind handlersOf_makes fun catches w hcatches => ?_
  refine .bind (.after fun x => block_makes) fun always x halways => .finish ?_ rfl rfl
  simpa [or_imp, forall_and, hbody] using ⟨hcatches, halways⟩

/-! ## Loops -/

theorem anchored_makes {k : TokenKind} {width : Nat} :
    Makes c (anchored k width) s fun _ _ => True := by
  have hanchor (t : ParseState) : Makes c (anchorBehind width) t fun _ _ => True :=
    fun ht => ⟨ht.here, trivial⟩
  exact .bind .expect fun b t _ => (Makes.optionally (hanchor t)).mono fun _ _ _ => trivial

theorem loopBody_makes {close : TokenKind} :
    Makes c (loopBody close) s fun r _ => r.1.Fills c .any := by
  refine .isAt (fun _ => ?_) fun _ => ?_
  · exact .bind shortBlock_makes fun n t hn => .pure hn
  · exact .bind statementOf_makes fun n t hn => .pure hn

theorem whileStatement_makes : Makes c whileStatement s fun n _ => n.Fills c .any := by
  refine .begin fun o t => .pass fun u => .bind condition_makes fun test v htest => ?_
  refine .bind loopBody_makes fun (body, shortform) w hbody => ?_
  exact .finish (by simpa using ⟨htest, hbody⟩) rfl rfl

theorem doStatement_makes (hk : s.kind = .kwDo) :
    Makes c doStatement s fun n _ => n.Fills c .any := by
  refine .filled (List.mem_singleton.mpr hk) (by decide) (by decide)
    (.begin fun o t => .pass fun u => ?_)
  refine .bind statementOf_makes fun body v hbody => ?_
  refine .ifEat (fun w => .bind condition_makes fun test x htest => .close fun y => ?_) fun w => ?_
  · exact .finishFilled (by simp [htest, hbody]) rfl List.mem_cons_self
  · refine .bind .missing fun test x htest => ?_
    exact .finishFilled (by simp [htest.fills .any, hbody]) rfl List.mem_cons_self

theorem forPart_makes {close : TokenKind} :
    Makes c (forPart close) s fun r _ => ∀ n ∈ r.1, n.Fills c .any := by
  refine .some fun _ => .join (U := fun ns _ => ∀ n ∈ ns, n.Fills c .any)
    (fun _ => .pure fun n hn => nomatch hn) (fun _ => separated_makes rfl) fun ns t hns => ?_
  exact .bind anchored_makes fun anchor u _ => .pure hns

/-- A loop with anchors is filled where the loop without them is. -/
theorem withAnchors_makes {p q : Parser Node} {ks : List TokenKind}
    {anchors : List (Anchor × Option Position)} (h : Makes c p s fun n _ => n.Filled c ks q) :
    Makes c (p >>= fun n => pure (withAnchors n anchors)) s fun n _ => n.Filled c ks q :=
  .bind h fun _ _ hn => .pure ⟨hn.crafted, hn.maker, hn.fills⟩

theorem forStatement_makes (hk : s.kind = .kwFor) :
    Makes c forStatement s fun n _ => n.Fills c .any := by
  refine .filled (List.mem_singleton.mpr hk) (by decide) (by decide)
    (.begin fun o t => .pass fun u => ?_)
  refine .bind anchored_makes fun leftParen v _ => ?_
  refine .bind forPart_makes fun (init, first) w hinit => ?_
  refine .bind forPart_makes fun (test, second) x htest => ?_
  refine .bind forPart_makes fun (increment, rightParen) y hincrement => ?_
  refine .bind loopBody_makes fun (body, shortform) z hbody => ?_
  refine withAnchors_makes (.finishFilled ?_ rfl List.mem_cons_self)
  simpa [or_imp, forall_and] using ⟨hinit, htest, hincrement, hbody⟩

theorem loopVariable_makes : Makes c loopVariable s fun n _ => n.Fills c .any := by
  have hlist (hk : s.kind ∈ [.kwList, .lBracket]) :
      Makes c listPattern s fun n _ => n.Fills c .any :=
    (listPattern_makes hk).mono fun _ _ h => h.fills
  refine .kind ?_
  split
  case h_1 hk => exact hlist (by simp [hk])
  case h_2 hk => exact hlist (by simp [hk])
  case h_3 => exact .node rfl

theorem loopVariables_makes :
    Makes c loopVariables s fun vs _ => (∀ n ∈ vs.key, n.Fills c .any) ∧ vs.value.Fills c .any := by
  refine .ifEat (fun t => .some fun asAnchor => ?_) fun t => ?_
  · refine .bind loopVariable_makes fun first u hfirst => .ifEat (fun v => ?_) fun v => ?_
    · refine .some fun arrowAnchor => .bind loopVariable_makes fun value w hvalue =>
        .pure ⟨?_, hvalue⟩
      exact fun n hn => Option.some.inj hn ▸ hfirst
    · exact .pure ⟨fun n hn => (nomatch hn), hfirst⟩
  · exact .bind .missing fun n u hn => .pure ⟨fun n hn => (nomatch hn), hn.fills _⟩

/-- What is no destructuring list may be a key. -/
theorem fills_key {n : Node} (h : n.Fills c .any) (hn : isList n = false) : n.Fills c .key := by
  refine ⟨h.wellFormed, Slot.suits_of_admits ?_ (h.suits.other nofun)⟩
  obtain ⟨info, p⟩ := n
  cases p with
  | list => cases hn
  | _ => rfl

theorem foreachStatement_makes (hk : s.kind = .kwForeach) :
    Makes c foreachStatement s fun n _ => n.Fills c .any := by
  refine .filled (List.mem_singleton.mpr hk) (by decide) (by decide)
    (.begin fun o t => .pass fun u => ?_)
  refine .bind anchored_makes fun leftParen v _ => ?_
  refine .bind .expressionAny fun source w hsource => .bind loopVariables_makes fun vs x hvs => ?_
  refine .ite (fun _ => .fatal) fun hkey => .bind anchored_makes fun rightParen y _ => ?_
  have hkey : ∀ n ∈ vs.key, n.Fills c .key := by
    intro n hn
    refine fills_key (hvs.1 n hn) (Bool.eq_false_iff.mpr fun hlist => hkey ?_)
    rw [Option.mem_def.mp hn]
    exact hlist
  refine .bind loopBody_makes fun (body, shortform) z hbody => ?_
  refine withAnchors_makes (.finishFilled ?_ rfl List.mem_cons_self)
  simpa [or_imp, forall_and, hsource, hvs.2, hbody] using hkey

/-! ## Imports -/

theorem useKind_makes : Makes c useKind s fun _ _ => True := by
  refine .kind ?_
  split
  · exact .pass fun t => .pure trivial
  · exact .pass fun t => .pure trivial
  · exact .pure trivial

theorem useItemNamed_makes {o : Opened} {n : Node} {kind : UseKind} (hn : n.Fills c .name) :
    Makes c (useItemNamed o n kind) s fun n _ => n.Fills c .importItem := by
  refine .bind (.after fun t => identifier_makes) fun localName t hlocal => ?_
  exact .finish (by simpa [hn] using hlocal) rfl rfl

theorem useItem_makes {kind : UseKind} {mixed : Bool} :
    Makes c (useItem kind mixed) s fun n _ => n.Fills c .importItem := by
  refine .begin fun o t => ?_
  have hrest (kind : UseKind) (t : ParseState) :
      Makes c (Parser.call .name >>= fun n => useItemNamed o n kind) t
        fun n _ => n.Fills c .importItem :=
    .bind nameOf_makes fun n v hn => useItemNamed_makes hn.fills
  exact .ite (fun _ => .bind useKind_makes fun declared u _ => hrest _ u) fun _ => hrest _ t

theorem useStatement_makes : Makes c useStatement s fun n _ => n.Fills c .any := by
  refine .begin fun o t => .pass fun u => .bind useKind_makes fun declared v _ => ?_
  refine .begin fun first w => .bind nameOf_makes fun n x hn => ?_
  refine .some fun _ => .some fun _ => .ite (fun _ => ?_) fun _ => ?_
  · refine .bind (.abandon (V := fun n _ => n.Fills c .any) fun y _ => ?_) fun n y hn => ?_
    · exact (hn.1.wellFormed.handTo first).fills hn.1.other
    refine .bind .requireOption fun _ z _ => .pass fun t => .pass fun u => ?_
    refine .bind (delimited_makes rfl) fun items v hitems => .close fun w => ?_
    exact .finish (by simpa [hn] using hitems) rfl rfl
  · refine .bind (useItemNamed_makes hn.fills) fun item y hitem => .bind .eat fun b z _ => ?_
    refine .join (U := fun ns _ => ∀ n ∈ ns, n.Fills c .importItem) (fun _ => separated_makes rfl)
      (fun _ => .pure fun n hn => nomatch hn) fun items t hitems => .close fun u => ?_
    exact .finish (by simpa [hitem] using hitems) rfl rfl

/-! ## Namespaces and declare statements -/

theorem topStatementsOf_makes {stop : TokenSet} :
    Makes c (Parser.call (.topStatements stop)) s fun ns _ => AreStatements c ns :=
  listOf_makes rfl (.call (r := .topStatements stop) trivial)

theorem namespaceStatementsOf_makes :
    Makes c (Parser.call .namespaceStatements) s fun ns _ => AreStatements c ns :=
  listOf_makes rfl (.call (r := .namespaceStatements) trivial)

theorem namespaceBody_makes {anonymous : Bool} :
    Makes c (namespaceBody anonymous) s fun r _ => AreStatements c r.1 := by
  refine .ifEat (fun t => ?_) fun t => .ite (fun _ => ?_) fun _ => .close fun u => ?_
  · exact .bind topStatementsOf_makes fun ns u hns => .demand fun v => .pure hns
  · exact .bind .missing fun _ u _ => .pure areStatements_nil
  · exact .bind namespaceStatementsOf_makes fun ns v hns => .pure hns

/-- A namespace is formed where none is around it. -/
theorem namespace_formed {span : Span} {ident : Option Node} {children : List Node}
    {withBraces : Bool} (hdepth : c.strict = true → c.depth = 0)
    (hident : ∀ n ∈ ident, n.Fills c .name) (hchildren : AreStatements c.deeper children)
    (h : ∀ e ∈ (Production.namespace ident children withBraces).places, e.1.Suits e.2) :
    (Production.namespace ident children withBraces).Formed c span where
  places := h
  operand := by simp [Production.infix?]
  flags := fun _ => rfl
  outermost := by
    intro hs _
    refine ⟨hdepth hs, fun m hm => ?_⟩
    rw [Node.walkFrom_eq] at hm
    obtain ⟨n, hn, hm⟩ := List.mem_flatMap.mp hm
    have hn : n ∈ ident ∨ n ∈ children := by simpa using hn
    rcases hn with hn | hn
    · exact Slot.walk_of_accepts_name (hident n hn).suits.accepted m hm
    · exact (hchildren.fills n hn).wellFormed.isNamespace hs m hm
  hollow := by simp [Production.isHollow]
  made := fun hne => absurd rfl hne
  listed := hchildren.listed
  named := by simp [Production.isName]

theorem namespaceDeclaration_makes : Makes c namespaceDeclaration s fun n _ => n.Fills c .any := by
  refine .begin fun o t => .of fun ht => ?_
  have hrest (u : ParseState) (hdepth : c.strict = true → c.depth = 0) : Makes c (do
      Parser.advance
      let ident ← Parser.optionally (← Parser.isAt .identifier) (Parser.call .name)
      Parser.modify fun s => { s with namespaceDepth := s.namespaceDepth + 1 }
      let r ← namespaceBody ident.isNone
      Parser.modify fun s => { s with namespaceDepth := s.namespaceDepth - 1 }
      Parser.finish o (.namespace ident r.1 r.2)) u fun n _ => n.Fills c .any := by
    refine .pass fun v => .some fun _ => .bind (.optionally nameOf_makes) fun ident w hident => ?_
    refine .nest (fun x => namespaceBody_makes) fun r x y hchildren => ?_
    obtain ⟨children, withBraces⟩ := r
    have hident : ∀ n ∈ ident, n.Fills c .name := fun n hn => (hident n hn).fills
    refine .finishFormed ?_ (namespace_formed hdepth hident hchildren) fun _ _ _ h => h.fills rfl
    have houter : ∀ n ∈ children, n.Fills c .any := fun n hn =>
      (hchildren.fills n hn).wellFormed.outer.fills ((hchildren.fills n hn).suits.other nofun)
    simpa [or_imp, forall_and] using ⟨hident, houter⟩
  refine .read (.ite (fun _ => ?_) fun hout => hrest t fun _ => ?_)
  · refine .bind .objection fun _ u hmode => hrest u fun hs => ?_
    rw [hmode] at hs
    cases hs
  · have hdepth := ht.depth
    simp only [decide_eq_true_eq] at hout
    omega

theorem directive_makes : Makes c directive s fun n _ => n.Fills c .directive := by
  refine .begin fun o t => .bind identifier_makes fun key u hkey => .demand fun v => ?_
  refine .bind .expressionAny fun value w hvalue => ?_
  exact .finish (by simp [hkey, hvalue]) rfl rfl

theorem declareBody_makes : Makes c declareBody s fun r _ => AreStatements c r.1 := by
  refine .kind ?_
  split
  · refine .pass fun t => .bind statementsOf_makes fun ns u hns => .demand fun v => ?_
    exact .close fun w => .pure hns
  · exact .pass fun t => .bind topStatementsOf_makes fun ns u hns => .demand fun v => .pure hns
  · exact .close fun t => .bind topStatementsOf_makes fun ns u hns => .pure hns

theorem declareStatement_makes : Makes c declareStatement s fun n _ => n.Fills c .any := by
  refine .begin fun o t => .pass fun u => .bind .expect fun b v _ => ?_
  refine .join (U := fun ns _ => ∀ n ∈ ns, n.Fills c .directive) (fun _ => delimited_makes rfl)
    (fun _ => .pure fun n hn => nomatch hn) fun directives w hdirectives => ?_
  refine .bind declareBody_makes fun (children, mode) x hchildren => ?_
  refine .finishFormed ?_ (fun h => .simple rfl h hchildren.listed) fun _ _ _ h => h.fills rfl
  simpa [or_imp, forall_and] using ⟨hdirectives, hchildren.fills⟩

/-! ## The end of the code -/

theorem halt_makes : Makes c halt s fun _ _ => True := fun hs => ⟨hs.halt, trivial⟩

theorem haltCompiler_makes {outermost : Bool} :
    Makes c (haltCompiler outermost) s fun n _ => n.Fills c .any := by
  refine .possibly (fun _ => .mono .objection fun _ _ _ => trivial) fun t => .begin fun o u => ?_
  refine .pass fun v => .demand fun w => .demand fun x => .ite (fun _ => ?_) fun _ => ?_
  · refine .some fun _ => .possibly (fun _ => .mono .missing fun _ _ _ => trivial) fun y => ?_
    exact .bind halt_makes fun after z _ => .finish (by simp) rfl rfl
  · exact .close fun y => .finish (by simp) rfl rfl

/-! ## Statements by their first token -/

theorem statement_makes : Makes c statement s fun n _ => n.Fills c .any := by
  refine .some fun next => .kind ?_
  split
  case h_1 => exact block_makes.mono fun _ _ h => h.any nofun
  case h_2 hk => exact ifOf_makes (by simp [hk])
  case h_3 => exact switchStatement_makes
  case h_4 hk => exact forStatement_makes hk
  case h_5 hk => exact foreachStatement_makes hk
  case h_6 => exact whileStatement_makes
  case h_7 hk => exact doStatement_makes hk
  case h_8 | h_9 | h_10 => exact withOptionalExpression_makes (by simp) fun _ => rfl
  case h_11 => exact withItems_makes rfl (by simp) fun _ => rfl
  case h_12 =>
    refine .ite (fun _ => ?_) fun _ => expressionStatement_makes
    exact withItems_makes rfl (by simp) fun _ => rfl
  case h_13 => exact echoStatement_makes
  case h_14 => exact inlineHtml_makes
  case h_15 => exact unsetStatement_makes
  case h_16 => exact declareStatement_makes
  case h_17 => exact tryStatement_makes
  case h_18 => exact throwStatement_makes
  case h_19 => exact gotoStatement_makes
  case h_20 => exact .ite (fun _ => label_makes) fun _ => expressionStatement_makes
  case h_21 hk => exact emptyStatement_makes hk
  case h_22 => exact expressionStatement_makes

theorem innerStatement_makes : Makes c innerStatement s fun n _ => n.Fills c .any := by
  refine .some fun next => .kind ?_
  split
  case h_1 => exact .ite (fun _ => statementOf_makes) fun _ => functionDeclaration_makes
  case h_2 hk | h_3 hk | h_4 hk => exact classDeclaration_makes (by simp [hk])
  case h_5 hk => exact interfaceDeclaration_makes hk
  case h_6 hk => exact traitDeclaration_makes hk
  case h_7 => exact haltCompiler_makes
  case h_8 => exact statementOf_makes

theorem topStatement_makes : Makes c topStatement s fun n _ => n.Fills c .any := by
  refine .some fun _ => .ite (fun _ => namespaceDeclaration_makes) fun _ => .some fun k => ?_
  split
  · exact useStatement_makes
  · exact withItems_makes rfl (by simp) fun _ => rfl
  · exact haltCompiler_makes
  · exact innerStatement_makes

theorem statements_makes {stop : TokenSet} :
    Makes c (statements stop) s fun ns _ => ∀ n ∈ ns, n.Fills c .any :=
  statementList_makes innerStatement_makes fun _ => statementsOf_makes.mono fun _ _ h => h.fills

theorem topStatements_makes {stop : TokenSet} :
    Makes c (topStatements stop) s fun ns _ => ∀ n ∈ ns, n.Fills c .any :=
  statementList_makes topStatement_makes fun _ => topStatementsOf_makes.mono fun _ _ h => h.fills

theorem namespaceStatements_makes :
    Makes c namespaceStatements s fun ns _ => ∀ n ∈ ns, n.Fills c .any :=
  statementList_makes topStatement_makes fun _ => namespaceStatementsOf_makes.mono fun _ _ h => h.fills

end PhpSyntax.Grammar
