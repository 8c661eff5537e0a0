import PhpSyntax.Grammar.Scope
import PhpSyntax.Proofs.Account.Expression
import PhpSyntax.Proofs.Grammar.Loop

namespace PhpSyntax.Grammar

variable {x : Text} {e d : Notes} {s : ParseState}

/-! ## Conditionals -/

/-- A block that is opened where its statements begin has statements or is empty. -/
theorem block_begins {ns : List Node} {t : ParseState} (h : ns = [] → t.offset = s.offset) :
    (Production.block ns).children ≠ [] ∨ x.Marks s.stream.current.start ∨
      t.offset ≤ s.stream.current.start.offset := by
  cases ns with
  | nil => exact .inr (.inr (Nat.le_of_eq (h rfl)))
  | cons n ns => exact .inl (List.cons_ne_nil _ _)

theorem shortElse_tells (hk : s.kind.isMark = true) :
    Tells x e shortElse s fun f n _ => f = e + n.notes := by
  refine .pass hk fun t _ => .bind (.require rfl) fun f _ u hf => .openNode ?_
  refine .bind .statements fun g ns v ⟨hg, hns⟩ => ?_
  subst hf hg
  exact .finish (block_begins hns) rfl (by simp)

theorem shortBranch_tells : Tells x e shortBranch s fun f v _ =>
    f = e + (v.1.notes + notesOf v.2.toList) := by
  refine .openNode (.bind .statements fun f ns t h => ?_)
  refine .bind (.finish (d := e) (block_begins h.2) rfl ?_) fun g body u hg => .kind ?_
  · simp [h.1]
  split
  case h_1 hk =>
    refine .bind (.callNode (show u.kind.isMark = true from hk ▸ rfl) rfl) fun k n v hn => .pure ?_
    simp [hn.1, hg, add_assoc]
  case h_2 hk =>
    refine .bind (shortElse_tells (hk ▸ rfl)) fun k n v hn => .pure ?_
    simp [hn, hg, add_assoc]
  case h_3 => exact .pure (by simp [hg])

theorem shortElseIf_tells (hk : s.kind.isMark = true) :
    Tells x e shortElseIf s fun f n _ => f = e + n.notes := by
  refine .begin hk fun o t ho _ => .bind condition_tells fun f test u hf => ?_
  refine .bind (.require rfl) fun g _ v hg => ?_
  refine .bind shortBranch_tells fun k ⟨body, alternate⟩ y hk => ?_
  exact .finish (.inr (.inl ho)) rfl (by simp [hk, hg, hf, add_assoc])

/-- A statement that is part of another one. -/
theorem part_tells : Tells x e (Parser.call .statement) s fun f n _ => f = e + n.notes :=
  (Tells.callNode (r := .statement) trivial rfl).mono fun _ _ _ h => h.1

theorem ifStatement_tells (hk : s.kind.isMark = true) :
    Tells x e ifStatement s fun f n _ => f = e + n.notes ∧ n.after? = none := by
  refine .begin hk fun o t ho _ => .bind condition_tells fun f test u hf => ?_
  refine .ifEat rfl (fun _ v _ => ?_) fun _ => ?_
  · refine .bind shortBranch_tells fun g branch y hg => ?_
    obtain ⟨body, alternate⟩ := branch
    refine .bind (.require rfl) fun k₁ _ z₁ h₁ => .bind .endStatement fun k₂ _ z₂ h₂ => ?_
    exact .finishInert (.inr (.inl ho)) rfl rfl (by simp [h₂, h₁, hg, hf, add_assoc])
  · refine .bind part_tells fun g body v hg => .kind ?_
    split
    case h_1 hk =>
      refine .bind (.callNode (show v.kind.isMark = true from hk ▸ rfl) rfl)
        fun k alternate y hn => ?_
      exact .finishInert (.inr (.inl ho)) rfl rfl (by simp [hn.1, hg, hf, add_assoc])
    case h_2 hk =>
      refine .pass (hk ▸ rfl) fun y _ => .bind part_tells fun k alternate z hn => ?_
      exact .finishInert (.inr (.inl ho)) rfl rfl (by simp [hn, hg, hf, add_assoc])
    case h_3 =>
      exact .finishInert (.inr (.inl ho)) rfl rfl (by simp [hg, hf, add_assoc])

/-! ## Choices -/

theorem caseTest_tells : Tells x e caseTest s fun f v _ =>
    f = e + notesOf v.toList ∧ (v = none → s.kind.isMark = true) := by
  refine .kind ?_
  split
  case h_1 hk =>
    refine .pass (hk ▸ rfl) fun t _ => .bind .expression fun f n u hf => .pure ⟨?_, nofun⟩
    simp [hf]
  case h_2 hk => exact .pass (hk ▸ rfl) fun t _ => .pure ⟨by simp, fun _ => hk ▸ rfl⟩
  case h_3 => exact .bind .omission fun f n u hf => .pure ⟨by simp [hf], nofun⟩

theorem caseClause_tells {close : TokenKind} :
    Tells x e (caseClause close) s fun f n _ => f = e + n.notes := by
  refine .of fun hs => .openNode (.bind caseTest_tells fun f test t h => .kind ?_)
  obtain ⟨hf, htest⟩ := h
  have hrest {u : ParseState} : Tells x f (Parser.call (.statements
      (.ofList [.kwCase, .kwDefault, close])) >>= fun body =>
        Parser.finish s.openNode.1 (.case test body)) u fun f n _ => f = e + n.notes := by
    refine .bind .statements fun g body v hg => .finish ?_ rfl ?_
    · cases test with
      | none => exact .inr (.inl (hs.marks (htest rfl)))
      | some test => exact .inl (List.cons_ne_nil _ _)
    · simp [hg.1, hf, add_assoc]
  split
  case h_1 hk | h_2 hk => exact .pass (hk ▸ rfl) fun u _ => hrest
  case h_3 => exact .bind .missing fun g n u hg => hg.1 ▸ hrest

theorem cases_tells {close : TokenKind} :
    Tells x e (cases close) s fun f ns _ => f = e + notesOf ns := by
  refine .atEnd (.sees (.ite (fun _ => .pure (by simp)) fun _ => ?_))
  refine .bind caseClause_tells fun f n t hf => ?_
  refine .bind (.callList trivial rfl fun _ _ _ h => h) fun g ns u hg => .pure ?_
  rw [hg, hf, notesOf_cons, add_assoc]

theorem openCases_tells : Tells x e openCases s fun f close _ =>
    f = e ∧ close.isMark = true ∧ x.Marks s.stream.current.start := by
  refine .of fun hs => .kind ?_
  split
  case h_1 hk | h_2 hk =>
    have hmark : s.kind.isMark = true := hk ▸ rfl
    exact .pass hmark fun t _ => .pure ⟨rfl, rfl, hs.marks hmark⟩
  case h_3 => exact .bind .missing fun f n t ⟨hf, hn⟩ => .pure ⟨hf, rfl, hn.marks⟩

theorem commentsAlone_tells : Tells x e commentsAlone s fun f ns _ => f = e + notesOf ns := by
  refine .read (.ite (fun _ => .openNode ?_) fun _ => .pure (by simp)) fun _ _ => rfl
  refine .bind (.finish (d := e) (.inr (.inr (Nat.le_refl _))) rfl ?_) fun f n t hf => .pure ?_
  · simp
  · simp [hf]

theorem caseList_tells : Tells x e caseList s fun f n _ => f = e + n.notes := by
  refine .openNode (.bind openCases_tells fun f close t ⟨hf, hclose, ho⟩ => ?_)
  refine .bind (.eatAny rfl) fun g _ u hg => ?_
  refine .bind (.callList trivial rfl fun _ _ _ h => h) fun k ns v hk => ?_
  have hrest {k : Notes} {children : List Node} {y : ParseState} (hk : k = e + notesOf children) :
      Tells x k (Parser.require close >>= fun _ =>
        if close = .kwEndSwitch then Parser.endStatement >>= fun _ =>
          Parser.finish s.openNode.1 (.block children)
        else Parser.finish s.openNode.1 (.block children)) y fun f n _ => f = e + n.notes := by
    refine .bind (.require hclose) fun g _ z hg => .possibly (P := fun f _ => f = k)
      (fun _ => Tells.endStatement.mono fun _ _ _ h => h.trans hg) (fun _ => hg) fun f z' hf => ?_
    exact .finish (.inr (.inl ho)) rfl (by simp [hf, hk])
  have hns : k = e + notesOf ns := by rw [hk, hg, hf]
  refine .ite (fun hempty => ?_) fun _ => hrest hns
  refine .bind commentsAlone_tells fun g children y hg => hrest ?_
  rw [hg, hns, List.isEmpty_iff.mp hempty, notesOf_nil, add_zero]

theorem switchStatement_tells (hk : s.kind.isMark = true) :
    Tells x e switchStatement s fun f n _ => f = e + n.notes ∧ n.after? = none := by
  refine .begin hk fun o t ho _ => .bind condition_tells fun f test u hf => .sees ?_
  refine .bind caseList_tells fun g body v hg => ?_
  exact .finishInert (.inr (.inl ho)) rfl rfl (by simp [hg, hf, add_assoc])

/-! ## Handlers -/

theorem handler_tells (hk : s.kind.isMark = true) :
    Tells x e handler s fun f n _ => f = e + n.notes := by
  refine .begin hk fun o t ho _ => .bind (.require rfl) fun f _ u hf => ?_
  refine .bind (separated_tells ⟨rfl, rfl⟩) fun g₁ types u₁ ⟨⟨h₁, _⟩, _⟩ => ?_
  refine .bind (.callPlain rfl) fun g₂ var u₂ ⟨h₂, _⟩ => .bind (.require rfl) fun g₃ _ u₃ h₃ => ?_
  refine .bind block_tells fun g₄ body u₄ ⟨h₄, _⟩ => ?_
  exact .finish (.inr (.inl ho)) rfl (by simp [h₄, h₃, h₂, h₁, hf, add_assoc])

theorem handlers_tells : Tells x e handlers s fun f ns _ => f = e + notesOf ns := by
  refine .isAt (fun hk => ?_) fun _ => .pure (by simp)
  refine .bind (handler_tells (hk ▸ rfl)) fun f n t hf => ?_
  refine .bind (.callList trivial rfl fun _ _ _ h => h) fun g ns u hg => .pure ?_
  rw [hg, hf, notesOf_cons, add_assoc]

theorem tryStatement_tells (hk : s.kind.isMark = true) :
    Tells x e tryStatement s fun f n _ => f = e + n.notes ∧ n.after? = none := by
  refine .begin hk fun o t ho _ => .bind block_tells fun f body u ⟨hf, _⟩ => ?_
  refine .bind (.callList trivial rfl fun _ _ _ h => h) fun g catches v hg => ?_
  refine .bind (.after rfl fun y => block_tells.mono fun _ _ _ h => h.1) fun k always z hk => ?_
  exact .finishInert (.inr (.inl ho)) rfl rfl (by simp [hk, hg, hf, add_assoc])

/-! ## Loops -/

theorem notes_withAnchors (n : Node) (anchors : List (Anchor × Option Position)) :
    (withAnchors n anchors).notes = n.notes := by
  obtain ⟨hstart, hstop⟩ := Span.setAnchors_ends anchors n.span
  exact Node.notes_congr hstart hstop rfl

theorem anchored_tells {j : TokenKind} {width : Nat} (hj : j.isMark = true) :
    Tells x e (anchored j width) s fun f _ _ => f = e := by
  refine .bind (.expect hj) fun f c t ⟨hf, _⟩ => .ite (fun _ => ?_) fun _ => .pure hf
  exact .read (.pure hf) fun _ _ => rfl

theorem loopBody_tells {close : TokenKind} (hc : close.isMark = true) :
    Tells x e (loopBody close) s fun f v _ => f = e + v.1.notes := by
  refine .isAt (fun _ => ?_) fun _ => ?_
  · exact .bind (shortBlock_tells hc) fun f n t hf => .pure hf
  · exact .bind part_tells fun f n t hf => .pure hf

theorem whileStatement_tells (hk : s.kind.isMark = true) :
    Tells x e whileStatement s fun f n _ => f = e + n.notes ∧ n.after? = none := by
  refine .begin hk fun o t ho _ => .bind condition_tells fun f test u hf => ?_
  refine .bind (loopBody_tells rfl) fun g ⟨body, shortform⟩ v hg => ?_
  exact .finishInert (.inr (.inl ho)) rfl rfl (by simp [hg, hf, add_assoc])

theorem doStatement_tells (hk : s.kind.isMark = true) :
    Tells x e doStatement s fun f n _ => f = e + n.notes ∧ n.after? = none := by
  refine .begin hk fun o t ho _ => .bind part_tells fun f body u hf => ?_
  refine .ifEat rfl (fun _ v _ => ?_) fun _ => ?_
  · refine .bind condition_tells fun g test y hg => .bind .endStatement fun k _ z hk => ?_
    refine .finishInert (.inr (.inl ho)) rfl rfl ?_
    simp [hk, hg, hf, add_assoc, add_comm]
  · refine .bind .omission fun g test v hg => .finishInert (.inr (.inl ho)) rfl rfl ?_
    simp [hg, hf, add_assoc, add_comm]

theorem forPart_tells {close : TokenKind} (hc : close.isMark = true) :
    Tells x e (forPart close) s fun f v _ => f = e + notesOf v.1 := by
  have hrest {f : Notes} {exprs : List Node} {t : ParseState} (hf : f = e + notesOf exprs) :
      Tells x f (anchored close 1 >>= fun anchor => pure (exprs, anchor)) t
        fun f v _ => f = e + notesOf v.1 :=
    .bind (anchored_tells hc) fun g anchor u hg => .pure (hg.trans hf)
  refine .isAt (fun _ => hrest (by simp)) fun _ => ?_
  exact .bind (separated_tells ⟨rfl, rfl⟩) fun f exprs t ⟨⟨hf, _⟩, _⟩ => hrest hf

theorem forStatement_tells (hk : s.kind.isMark = true) :
    Tells x e forStatement s fun f n _ => f = e + n.notes ∧ n.after? = none := by
  refine .begin hk fun o t ho _ => .bind (anchored_tells rfl) fun f leftParen u hf => ?_
  refine .bind (forPart_tells rfl) fun g₁ ⟨init, first⟩ u₁ h₁ => ?_
  refine .bind (forPart_tells rfl) fun g₂ ⟨test, second⟩ u₂ h₂ => ?_
  refine .bind (forPart_tells rfl) fun g₃ ⟨increment, rightParen⟩ u₃ h₃ => ?_
  refine .bind (loopBody_tells rfl) fun g₄ ⟨body, shortform⟩ u₄ h₄ => ?_
  refine .bind (.finishInert (d := e) (.inr (.inl ho)) rfl rfl ?_) fun g₅ n u₅ ⟨h₅, hn⟩ => .pure ?_
  · simp [h₄, h₃, h₂, h₁, hf, add_assoc]
  · exact ⟨by rw [notes_withAnchors, h₅], hn⟩

theorem loopVariable_tells : Tells x e loopVariable s fun f n _ => f = e + n.notes := by
  refine .kind ?_
  split
  case h_1 hk | h_2 hk => exact listPattern_tells (hk ▸ rfl)
  case h_3 => exact (Tells.callPlain rfl).mono fun _ _ _ h => h.1

theorem loopVariables_tells : Tells x e loopVariables s fun f vs _ =>
    f = e + (notesOf vs.key.toList + vs.value.notes) := by
  refine .ifEat rfl (fun _ t _ => .read ?_ fun _ _ => rfl) fun _ => ?_
  · refine .bind loopVariable_tells fun f first u hf => .ifEat rfl (fun _ v _ => ?_) fun _ => ?_
    · refine .read (.bind loopVariable_tells fun g value y hg => .pure ?_) fun _ _ => rfl
      simp [hg, hf, add_assoc]
    · exact .pure (by simp [hf])
  · exact .bind .omission fun f n t hf => .pure (by simp [hf])

theorem foreachStatement_tells (hk : s.kind.isMark = true) :
    Tells x e foreachStatement s fun f n _ => f = e + n.notes ∧ n.after? = none := by
  refine .begin hk fun o t ho _ => .bind (anchored_tells rfl) fun f leftParen u hf => ?_
  refine .bind .expression fun g₁ source u₁ h₁ => .bind loopVariables_tells fun g₂ vs u₂ h₂ => ?_
  refine .ite (fun _ => .fatal) fun _ => .bind (anchored_tells rfl) fun g₃ rightParen u₃ h₃ => ?_
  refine .bind (loopBody_tells rfl) fun g₄ ⟨body, shortform⟩ u₄ h₄ => ?_
  refine .bind (.finishInert (d := e) (.inr (.inl ho)) rfl rfl ?_) fun g₅ n u₅ ⟨h₅, hn⟩ => .pure ?_
  · simp [h₄, h₃, h₂, h₁, hf, add_assoc]
  · exact ⟨by rw [notes_withAnchors, h₅], hn⟩

/-! ## Other statements -/

theorem expressionStatement_tells : Tells x e expressionStatement s fun f n t =>
    (f = e + n.notes ∧ n.after? = none) ∧ s.Eats x t := by
  refine .openNode (.bindEats (.callKeen rfl rfl) fun f n t hf =>
    .bind .endStatement fun g _ u hg => ?_)
  exact .finishInert (.inl (List.cons_ne_nil _ _)) rfl rfl (by simp [hg, hf])

theorem withOptionalExpression_tells {p : Option Node → Production Node}
    (hl : ∀ n, (p n).leaf = .other) (hp : ∀ n k, (p n).due k = notesOf n.toList)
    (hn : ∀ n, (Node.mk default (p n)).after? = none) (hk : s.kind.isMark = true) :
    Tells x e (withOptionalExpression p) s fun f n _ => f = e + n.notes ∧ n.after? = none := by
  refine .begin hk fun o t ho _ => .read ?_ fun _ _ => rfl
  refine .bind (.optionally fun _ => .expression) fun f n u hf =>
    .bind .endStatement fun g _ v hg => ?_
  exact .finishInert (.inr (.inl ho)) (by rw [hl]; rfl) (hn n) (by rw [hp, hg, hf])

theorem withItems_tells {item : Rule .node} {p : List Node → Production Node}
    (hi : item.isPlain = true) (hl : ∀ ns, (p ns).leaf = .other)
    (hp : ∀ ns k, (p ns).due k = notesOf ns) (hn : ∀ ns, (Node.mk default (p ns)).after? = none)
    (hk : s.kind.isMark = true) :
    Tells x e (withItems item p) s fun f n _ => f = e + n.notes ∧ n.after? = none := by
  refine .begin hk fun o t ho _ => .bind (separated_tells ⟨rfl, hi⟩) fun f ns u ⟨⟨hf, _⟩, _⟩ => ?_
  refine .bind .endStatement fun g _ v hg => ?_
  exact .finishInert (.inr (.inl ho)) (by rw [hl]; rfl) (hn ns) (by rw [hp, hg, hf])

theorem staticVariable_tells : Tells x e staticVariable s fun f n _ => f = e + n.notes := by
  refine .openNode (.bind (.callPlain rfl) fun f target t ⟨hf, _⟩ => ?_)
  refine .bind initialValue_tells fun g default u hg => ?_
  exact .finish (.inl (List.cons_ne_nil _ _)) rfl (by simp [hg, hf, add_assoc])

theorem echoStatement_tells (hk : s.kind.isMark = true) :
    Tells x e echoStatement s fun f n _ => f = e + n.notes ∧ n.after? = none :=
  .text <| withItems_tells rfl (fun _ => rfl) (fun _ _ => by simp)
    (fun _ => rfl) hk

theorem inlineHtml_tells (hk : s.kind = .inlineHtml) : Tells x e inlineHtml s fun f n t =>
    (f = e + n.notes ∧ n.after? = none) ∧ s.Eats x t :=
  .openNode (.text (.leafInert rfl ⟨hk, rfl⟩ rfl fun _ => by simp))

theorem unsetStatement_tells (hk : s.kind.isMark = true) :
    Tells x e unsetStatement s fun f n _ => f = e + n.notes ∧ n.after? = none := by
  refine .begin hk fun o t ho _ => ?_
  have hrest {f : Notes} {vs : List Node} {u : ParseState} (hf : f = e + notesOf vs) :
      Tells x f (Parser.endStatement >>= fun _ => Parser.finish o (.unset vs)) u fun f n _ =>
        f = e + n.notes ∧ n.after? = none := by
    refine .bind .endStatement fun g _ v hg => ?_
    exact .finishInert (.inr (.inl ho)) rfl rfl (by simp [hg, hf])
  refine .ifExpect rfl (fun u => ?_) fun u => hrest (by simp)
  exact .bind (delimited_tells ⟨rfl, rfl⟩) fun f vs v hf => hrest hf

theorem throwStatement_tells (hk : s.kind.isMark = true) :
    Tells x e throwStatement s fun f n _ => f = e + n.notes ∧ n.after? = none := by
  refine .begin hk fun o t ho _ => .bind .expression fun f n u hf =>
    .bind .endStatement fun g _ v hg => ?_
  exact .finishInert (.inr (.inl ho)) rfl rfl (by simp [hg, hf])

theorem gotoStatement_tells (hk : s.kind.isMark = true) :
    Tells x e gotoStatement s fun f n _ => f = e + n.notes ∧ n.after? = none := by
  refine .begin hk fun o t ho _ => .bind identifier_tells fun f n u hf =>
    .bind .endStatement fun g _ v hg => ?_
  exact .finishInert (.inr (.inl ho)) rfl rfl (by simp [hg, hf])

theorem label_tells : Tells x e label s fun f n _ => f = e + n.notes ∧ n.after? = none := by
  refine .openNode (.bind identifier_tells fun f n t hf => .bind (.require rfl) fun g _ u hg => ?_)
  exact .finishInert (.inl (List.cons_ne_nil _ _)) rfl rfl (by simp [hg, hf])

theorem emptyStatement_tells (hk : s.kind.isMark = true) :
    Tells x e emptyStatement s fun f n _ => f = e + n.notes ∧ n.after? = none :=
  .begin hk fun o t ho _ => .finishInert (.inr (.inl ho)) rfl rfl (by simp)

/-! ## Imports -/

theorem useKind_tells : Tells x e useKind s fun f _ _ => f = e := by
  refine .kind ?_
  split
  case h_1 hk | h_2 hk => exact .pass (hk ▸ rfl) fun t _ => .pure rfl
  case h_3 => exact .pure rfl

theorem useItemNamed_tells {o : Opened} {n : Node} {k : UseKind} (he : e = d + n.notes) :
    Tells x e (useItemNamed o n k) s fun f m _ => f = d + m.notes := by
  refine .bind (.after rfl fun t => identifier_tells) fun f localName t hf => ?_
  exact .finish (.inl (List.cons_ne_nil _ _)) rfl (by simp [hf, he, add_assoc])

/-- The name of an import. -/
theorem importName_tells : Tells x e (Parser.call .name) s fun f n _ => f = e + n.notes :=
  (Tells.callPlain rfl).mono fun _ _ _ h => h.1

theorem useItem_tells {k : UseKind} {mixed : Bool} :
    Tells x e (useItem k mixed) s fun f n _ => f = e + n.notes := by
  have hrest {f : Notes} (o : Opened) (k : UseKind) {t : ParseState} (hf : f = e) :
      Tells x f (Parser.call .name >>= fun n => useItemNamed o n k) t fun f n _ =>
        f = e + n.notes :=
    .bind importName_tells fun g n u hg => useItemNamed_tells (by rw [hg, hf])
  refine .openNode (.ite (fun _ => ?_) fun _ => hrest _ _ rfl)
  exact .bind useKind_tells fun f k t hf => hrest _ _ hf

theorem useStatement_tells (hk : s.kind.isMark = true) :
    Tells x e useStatement s fun f n _ => f = e + n.notes ∧ n.after? = none := by
  refine .begin hk fun o t ho _ => .bind useKind_tells fun f declared u hf => .openNode ?_
  refine .bind importName_tells fun g n v hg => .sees (.peek (.ite (fun hc => ?_) fun _ => ?_))
  · obtain ⟨hsep, hbrace⟩ := Bool.and_eq_true_iff.mp hc
    refine .bind (.abandon hg) fun g₁ n u₁ h₁ => ?_
    obtain ⟨h₁, _, hu₁⟩ := h₁
    refine .bind (.requireOption .php7 fun _ => rfl) fun g₂ _ u₂ h₂ => ?_
    obtain ⟨h₂, hcurrent, hpeek⟩ := h₂
    have hmark : u₂.kind.isMark = true := by
      rw [ParseState.kind, hcurrent, hu₁, ← ParseState.kind, of_decide_eq_true hsep]
      rfl
    refine .pass hmark fun u₃ h₃ => ?_
    have hmark : u₃.kind.isMark = true := by
      have hkind : u₃.kind = u₂.stream.peek := by
        rw [h₃]
        exact Stream.advance_kind _
      rw [hkind, hpeek, hu₁, of_decide_eq_true hbrace]
      rfl
    refine .pass hmark fun u₄ _ => .bind (delimited_tells ⟨rfl, rfl⟩) fun g₅ items u₅ h₅ => ?_
    refine .bind .endStatement fun g₆ _ u₆ h₆ => .finishInert (.inr (.inl ho)) rfl rfl ?_
    simp [h₆, h₅, h₂, h₁, hf, add_assoc, Multiset.add_cons]
  · have hrest {k : Notes} {item : Node} {items : List Node} {y : ParseState}
        (hk : k = e + (item.notes + notesOf items)) :
        Tells x k (Parser.endStatement >>= fun _ =>
          Parser.finish o (.useGroup none (declared.getD .class) (item :: items))) y
          fun f n _ => f = e + n.notes ∧ n.after? = none := by
      refine .bind .endStatement fun g _ z hg => .finishInert (.inr (.inl ho)) rfl rfl ?_
      simp [hg, hk]
    refine .bind (useItemNamed_tells hg) fun g₁ item u₁ h₁ =>
      .ifEat rfl (fun _ u₂ _ => ?_) fun _ => ?_
    · refine .bind (separated_tells ⟨rfl, rfl⟩) fun g₂ items u₃ h₂ => hrest ?_
      rw [h₂.1.1, h₁, hf, add_assoc]
    · exact hrest (by simp [h₁, hf])

/-! ## Namespaces -/

theorem namespaceBody_tells {anonymous : Bool} :
    Tells x e (namespaceBody anonymous) s fun f v _ => f = e + (notesOf v.1 + tailsOf v.1) := by
  refine .ifEat rfl (fun _ t _ => ?_) fun _ => .ite (fun _ => ?_) fun _ => ?_
  · refine .bind .topStatements fun f children u hf => .bind (.require rfl) fun g _ v hg => .pure ?_
    rw [hg, hf]
  · exact .bind .missing fun f _ t ⟨hf, _⟩ => .pure (by simp [hf])
  · refine .bind .endStatement fun f _ t hf => .bind (.namespaceStatements) fun g children u hg =>
      .pure ?_
    rw [hg, hf]

theorem namespaceDeclaration_tells (hk : s.kind.isMark = true) :
    Tells x e namespaceDeclaration s fun f n _ => f = e + n.notes ∧ n.after? = none := by
  refine .of fun hs => .openNode (.read ?_ fun _ _ => rfl)
  refine .possibly (P := fun f t => f = e ∧ t.stream = s.stream)
    (fun _ => Tells.objection.mono fun _ _ _ h => ⟨h.1, h.2.2⟩) (fun _ => ⟨rfl, rfl⟩)
    fun f t h => ?_
  obtain ⟨hf, ht⟩ := h
  refine .pass (by rwa [ParseState.kind, ht]) fun u _ => .sees ?_
  refine .bind (.optionally fun _ => importName_tells) fun g name v hg => ?_
  refine .bind (.nest (· + 1)) fun g₁ _ v₁ h₁ => ?_
  refine .bind namespaceBody_tells fun g₂ body v₂ h₂ => ?_
  obtain ⟨children, withBraces⟩ := body
  refine .bind (.nest (· - 1)) fun g₃ _ v₃ h₃ => ?_
  refine .finishInert (.inr (.inl (hs.marks hk))) rfl rfl ?_
  simp [h₃, h₂, h₁, hg, hf, add_assoc, add_comm, add_left_comm]

/-! ## Declare statements -/

theorem directive_tells : Tells x e directive s fun f n _ => f = e + n.notes := by
  refine .openNode (.bind identifier_tells fun f key t hf =>
    .bind (.require rfl) fun g _ u hg => ?_)
  refine .bind .expression fun k value v hk => ?_
  exact .finish (.inl (List.cons_ne_nil _ _)) rfl
    (by simp [hk, hg, hf, add_assoc])

theorem declareBody_tells : Tells x e declareBody s fun f v _ =>
    f = e + (notesOf v.1 + tailsOf (if v.2 = .short then [] else v.1)) := by
  refine .kind ?_
  split
  case h_1 hk =>
    refine .pass (hk ▸ rfl) fun t _ => .bind .statements fun f children u ⟨hf, _⟩ => ?_
    refine .bind (.require rfl) fun g _ v hg => .bind .endStatement fun k _ y hk => .pure ?_
    simp [hk, hg, hf]
  case h_2 hk =>
    refine .pass (hk ▸ rfl) fun t _ => .bind .topStatements fun f children u hf => ?_
    exact .bind (.require rfl) fun g _ v hg => .pure (by simp [hg, hf])
  case h_3 =>
    refine .bind .endStatement fun f _ t hf => .bind .topStatements fun g children u hg => .pure ?_
    simp [hg, hf]

theorem declareStatement_tells (hk : s.kind.isMark = true) :
    Tells x e declareStatement s fun f n _ => f = e + n.notes ∧ n.after? = none := by
  refine .begin hk fun o t ho _ => ?_
  have hrest {f : Notes} {directives : List Node} {u : ParseState}
      (hf : f = e + notesOf directives) :
      Tells x f (declareBody >>= fun v => Parser.finish o (.declare directives v.1 v.2)) u
        fun f n _ => f = e + n.notes ∧ n.after? = none := by
    refine .bind declareBody_tells fun g v y hg => .finishInert (.inr (.inl ho)) rfl rfl ?_
    simp [hg, hf, add_assoc, add_comm]
  refine .ifExpect rfl (fun u => ?_) fun u => hrest (by simp)
  exact .bind (delimited_tells ⟨rfl, rfl⟩) fun f directives v hf => hrest hf

/-! ## The end of the code -/

/-- What stands between the keyword and the end of the code. -/
def haltMark : Parser Unit := do
  Parser.advance
  Parser.require .lParen
  Parser.require .rParen
  if !(← Parser.isAt .semicolon) then
    let _ ← Parser.missing (.kind .semicolon)

theorem haltCompiler_eq : haltCompiler true =
    Parser.openNode >>= fun o => (haltMark >>= fun _ => halt) >>= fun after =>
      Parser.finish o (.haltCompiler after) := by
  simp only [haltCompiler, haltMark, Parser.bind_bind, Parser.ite_bind, Parser.pure_bind,
    Bool.not_true, Bool.false_eq_true, if_false, if_true]

/-- In strict mode a semicolon is the last token of the code. -/
theorem haltMark_tells (hk : s.kind.isMark = true) : Tells x e haltMark s fun f _ t =>
    f = e ∧ (x.strict = true → t.kind = .semicolon) := by
  refine .pass hk fun t _ => .bind (.require rfl) fun f _ u hf =>
    .bind (.require rfl) fun g _ v hg => ?_
  refine .sees (.ite (fun _ => ?_) fun hc => .pure ⟨hg.trans hf, fun _ => by simpa using hc⟩)
  refine .bind .missing fun k n y ⟨hk, hn⟩ => .pure ⟨hk.trans (hg.trans hf), fun hx => ?_⟩
  rw [hn.tolerant] at hx
  cases hx

/-- The text behind the end of the code is noted with the statement that ends it. -/
theorem halt_tells (hk : s.kind.isMark = true) :
    Tells x e (haltMark >>= fun _ => halt) s fun f after _ => f = e + {.tail after} := by
  intro answer ha hs
  have htold := haltMark_tells (e := e) hk answer ha hs
  have heval (u : ParseState) : ((haltMark >>= fun _ => halt) u).eval answer =
      ((haltMark u).eval answer).andThen fun _ t => (halt t).eval answer :=
    Step.eval_bind_eq answer (haltMark u) fun _ => halt
  have hne : s.kind ≠ .eof := TokenKind.ne_eof_of_isMark hk
  rw [heval, heval]
  cases hp : (haltMark s).eval answer with
  | ok at' =>
    obtain ⟨_, t⟩ := at'
    obtain ⟨f, hpass, hf, hmark⟩ := htold.ok hp
    rw [add_eq_left.mp hf] at hpass
    have hhalt := hpass.halt hne hmark
    refine ⟨fun ho => ?_, fun hx _ _ ho => ?_, fun _ _ _ _ ho => ?_⟩
    · cases ho
      exact ⟨_, hhalt, rfl⟩
    · cases ho
      rw [htold.lift hx hp]
      rfl
    · cases ho
  | error fault =>
    refine ⟨fun ho => ?_, fun _ _ _ ho => ?_, fun hx _ after u ho hm => ?_⟩
    · cases ho
    · cases ho
    · cases hm' : (haltMark s.modern).eval answer with
      | error fault' =>
        rw [hm'] at hm
        cases hm
      | ok at' =>
        obtain ⟨_, t⟩ := at'
        obtain ⟨f, _, ⟨hf, _⟩, gate, hgate, _⟩ := htold.shut hx hp hm'
        rw [add_eq_left.mp hf] at hgate
        exact absurd hgate (Multiset.notMem_zero _)

theorem haltCompiler_tells (hk : s.kind.isMark = true) :
    Tells x e (haltCompiler true) s fun f n _ => f = e + (n.notes + tailsOf [n]) := by
  rw [haltCompiler_eq]
  refine .of fun hs => .openNode (.bind (halt_tells hk) fun f after t hf => ?_)
  refine (Tells.finishAs (d := f) (.inr (.inl (hs.marks hk))) rfl ?_).mono
    fun g n _ ⟨hg, hn, _⟩ => ?_
  · simp
  · have htail : tailsOf [n] = {.tail after} := by
      simp [tailsOf, Node.after?, hn]
    rw [hg, hf, htail, add_assoc, add_comm n.notes]

/-- Inside of a scope the end of the code is an error, and nothing ends. -/
theorem innerHaltCompiler_tells (hk : s.kind.isMark = true) :
    Tells x e (haltCompiler false) s fun f n _ => f = e + n.notes := by
  refine .bind .objection fun f _ t ⟨hf, _, ht⟩ => ?_
  have hmark : t.kind.isMark = true := by rwa [ParseState.kind, ht]
  refine .begin hmark fun o u ho _ => .bind (.require rfl) fun g _ v hg => ?_
  refine .bind (.require rfl) fun g₁ _ v₁ h₁ => .bind .endStatement fun g₂ _ v₂ h₂ => ?_
  exact .finish (.inr (.inl ho)) rfl (by simp [h₂, h₁, hg, hf])

/-! ## Statements by their first token -/

theorem statement_tells : Tells x e statement s fun f n t =>
    (f = e + n.notes ∧ n.after? = none) ∧ s.Eats x t := by
  have hkeyword {p : Parser Node} {j : TokenKind} (hj : s.kind = j) (hm : j.isMark = true)
      (h : s.kind.isMark = true → Tells x e p s fun f n _ => f = e + n.notes ∧ n.after? = none) :
      Tells x e p s fun f n t => (f = e + n.notes ∧ n.after? = none) ∧ s.Eats x t :=
    .atMark (hj ▸ hm) (h (hj ▸ hm))
  refine .peek (.kind ?_)
  split
  case h_1 hk => exact hkeyword hk rfl fun _ => block_tells
  case h_2 hk =>
    exact hkeyword hk rfl fun hm =>
      (Tells.callInert (r := .ifStatement) hm rfl rfl).mono fun _ _ _ h => h.1
  case h_3 hk => exact hkeyword hk rfl switchStatement_tells
  case h_4 hk => exact hkeyword hk rfl forStatement_tells
  case h_5 hk => exact hkeyword hk rfl foreachStatement_tells
  case h_6 hk => exact hkeyword hk rfl whileStatement_tells
  case h_7 hk => exact hkeyword hk rfl doStatement_tells
  case h_8 hk | h_9 hk | h_10 hk =>
    exact hkeyword hk rfl (withOptionalExpression_tells (fun _ => rfl)
      (fun _ _ => by simp) fun _ => rfl)
  case h_11 hk =>
    exact hkeyword hk rfl (withItems_tells rfl (fun _ => rfl)
      (fun _ _ => by simp) fun _ => rfl)
  case h_12 hk =>
    refine .ite (fun _ => hkeyword hk rfl ?_) fun _ => expressionStatement_tells
    exact withItems_tells rfl (fun _ => rfl) (fun _ _ => by simp) fun _ => rfl
  case h_13 hk => exact hkeyword hk rfl echoStatement_tells
  case h_14 hk => exact inlineHtml_tells hk
  case h_15 hk => exact hkeyword hk rfl unsetStatement_tells
  case h_16 hk => exact hkeyword hk rfl declareStatement_tells
  case h_17 hk => exact hkeyword hk rfl tryStatement_tells
  case h_18 hk => exact hkeyword hk rfl throwStatement_tells
  case h_19 hk => exact hkeyword hk rfl gotoStatement_tells
  case h_20 hk =>
    exact .ite (fun _ => hkeyword hk rfl fun _ => label_tells) fun _ => expressionStatement_tells
  case h_21 hk => exact hkeyword hk rfl emptyStatement_tells
  case h_22 => exact expressionStatement_tells

theorem innerStatement_tells : Tells x e innerStatement s fun f n t =>
    (f = e + n.notes ∧ (s.kind ≠ .kwHaltCompiler → n.after? = none)) ∧ s.Eats x t := by
  have hstatement : Tells x e (Parser.call .statement) s fun f n t =>
      (f = e + n.notes ∧ (s.kind ≠ .kwHaltCompiler → n.after? = none)) ∧ s.Eats x t :=
    (Tells.callInert (r := .statement) trivial rfl rfl).mono
      fun _ _ _ ⟨⟨hf, hn⟩, heats⟩ => ⟨⟨hf, fun _ => hn⟩, heats rfl⟩
  have hdeclaration {p : Parser Node} {j : TokenKind} (hj : s.kind = j) (hm : j.isMark = true)
      (h : s.kind.isMark = true → Tells x e p s fun f n _ => f = e + n.notes ∧ n.after? = none) :
      Tells x e p s fun f n t =>
        (f = e + n.notes ∧ (s.kind ≠ .kwHaltCompiler → n.after? = none)) ∧ s.Eats x t :=
    .atMark (hj ▸ hm) ((h (hj ▸ hm)).mono fun _ _ _ ⟨hf, hn⟩ => ⟨hf, fun _ => hn⟩)
  refine .peek (.kind ?_)
  split
  case h_1 hk =>
    exact .ite (fun _ => hstatement) fun _ => hdeclaration hk rfl functionDeclaration_tells
  case h_2 hk | h_3 hk | h_4 hk => exact hdeclaration hk rfl fun _ => classDeclaration_tells
  case h_5 hk => exact hdeclaration hk rfl interfaceDeclaration_tells
  case h_6 hk => exact hdeclaration hk rfl traitDeclaration_tells
  case h_7 hk =>
    have hmark : s.kind.isMark = true := hk ▸ rfl
    exact .atMark hmark ((innerHaltCompiler_tells hmark).mono
      fun _ _ _ hf => ⟨hf, fun hne => absurd hk hne⟩)
  case h_8 => exact hstatement

/-- Whether a namespace declaration starts here does not depend on the version. -/
theorem atNamespace_modern (hs : s.stream.Of x) (hx : x.HasNoFn) :
    (decide (s.modern.kind = .kwNamespace) && decide (s.modern.stream.peek ≠ .nsSeparator)) =
      (decide (s.kind = .kwNamespace) && decide (s.stream.peek ≠ .nsSeparator)) := by
  rw [show s.modern.stream.peek = s.stream.peek from Stream.peek_modern hs hx]
  rfl

theorem topStatement_tells : Tells x e topStatement s fun f n t =>
    f = e + (n.notes + tailsOf [n]) ∧ s.Eats x t := by
  have hinert {f : Notes} {n : Node} (hf : f = e + n.notes) (hn : n.after? = none) :
      f = e + (n.notes + tailsOf [n]) := by
    have htail : tailsOf [n] = 0 := by simp [tailsOf, hn]
    rw [htail, add_zero, hf]
  have hscope {p : Parser Node} {j : TokenKind} (hj : s.kind = j) (hm : j.isMark = true)
      (h : s.kind.isMark = true → Tells x e p s fun f n _ => f = e + n.notes ∧ n.after? = none) :
      Tells x e p s fun f n t => f = e + (n.notes + tailsOf [n]) ∧ s.Eats x t :=
    .atMark (hj ▸ hm) ((h (hj ▸ hm)).mono fun _ _ _ h => hinert h.1 h.2)
  refine .read (.ite (fun hns => ?_) fun _ => .kind ?_) atNamespace_modern
  · exact hscope (of_decide_eq_true (Bool.and_eq_true_iff.mp hns).1) rfl namespaceDeclaration_tells
  · split
    case h_1 hk => exact hscope hk rfl useStatement_tells
    case h_2 hk =>
      exact hscope hk rfl
        (withItems_tells rfl (fun _ => rfl) (fun _ _ => by simp) fun _ => rfl)
    case h_3 hk => exact .atMark (hk ▸ rfl) (haltCompiler_tells (hk ▸ rfl))
    case h_4 _ _ hne =>
      exact innerStatement_tells.mono fun _ _ _ h => ⟨hinert h.1.1 (h.1.2 hne), h.2⟩

theorem statements_tells {stop : TokenSet} : Tells x e (statements stop) s fun f ns t =>
    f = e + notesOf ns ∧ (ns = [] → t.offset = s.offset) := by
  refine statementList_tells notesOf notesOf_nil (fun n ns => by simp) (fun _ _ => rfl) ?_
    fun e t => Tells.statements.mono fun _ _ _ h => h.1
  exact innerStatement_tells.mono fun _ _ _ h => ⟨by simpa using h.1.1, h.2⟩

theorem topStatementList_tells {ends : ParseState → Bool} {rest : Rule .nodes}
    (hends : s.stream.Of x → x.HasNoFn → ends s.modern = ends s)
    (hrest : ∀ e t, Tells x e (Parser.call rest) t fun f ns _ =>
      f = e + (notesOf ns + tailsOf ns)) :
    Tells x e (statementList (Parser.read ends) topStatement rest) s fun f ns _ =>
      f = e + (notesOf ns + tailsOf ns) := by
  refine (statementList_tells (fun ns => notesOf ns + tailsOf ns) (by simp)
    (fun n ns => ?_) hends ?_
    hrest).mono fun _ _ _ h => h.1
  · rw [tailsOf_cons]
    simp [add_assoc, add_comm, add_left_comm]
  · exact topStatement_tells.mono fun _ _ _ h => ⟨by simpa using h.1, h.2⟩

theorem topStatements_tells {stop : TokenSet} : Tells x e (topStatements stop) s fun f ns _ =>
    f = e + (notesOf ns + tailsOf ns) :=
  topStatementList_tells (fun _ _ => rfl) fun _ _ => .topStatements

theorem namespaceStatements_tells : Tells x e namespaceStatements s fun f ns _ =>
    f = e + (notesOf ns + tailsOf ns) :=
  topStatementList_tells atNamespace_modern fun _ _ => .namespaceStatements

end PhpSyntax.Grammar
