import PhpSyntax.Grammar.Operation
import PhpSyntax.Proofs.Typing.Declaration

namespace PhpSyntax.Grammar

attribute [local simp] Production.places Production.fields Production.children Field.children
  Rule.slot

variable {c : Scope} {s : ParseState}

/-! ## Arrays and lists -/

theorem entriesOf_makes {close : TokenKind} {isPattern : Bool} :
    Makes c (Parser.call (.entries close isPattern)) s
      fun ns _ => ∀ n ∈ ns, n.Fills c (if isPattern then .element else .entry) :=
  .call (r := .entries close isPattern) trivial

theorem openEntries_makes {shortform : Bool} :
    Makes c (openEntries shortform) s fun _ _ => True :=
  .pass fun _ => .ite (fun _ => .pure trivial) fun _ => .demand fun _ => .pure trivial

/-- An array or a list is an operand where it is known to be what its rule yields. -/
theorem collection_makes {p : Parser Node} {ks : List TokenKind} (hk : s.kind ∈ ks)
    (hne : TokenKind.eof ∉ ks) (huse : TokenKind.kwUse ∉ ks)
    (h : Makes c p s fun n _ => n.Filled c ks p ∧ n.production.tail? = none ∧
      ∀ op left right, n.production ≠ .assign op left right) :
    Makes c p s fun n _ => n.Closed c := by
  refine h.yielded hk hne fun n t hn ⟨hfilled, htail, hassign⟩ =>
    ⟨hfilled.wellFormed hn, hfilled.other huse, ?_⟩
  obtain ⟨info, q⟩ := n
  refine Node.not_endsInAssignment (fun op left right e => absurd e (hassign op left right)) ?_
  intro m hm
  rw [htail] at hm
  cases hm

theorem arrayLiteral_makes (hk : s.kind ∈ [.kwArray, .lBracket]) :
    Makes c arrayLiteral s fun n _ => n.Closed c := by
  refine collection_makes hk (by decide) (by decide) ?_
  refine .begin fun o t => .some fun shortform => .bind openEntries_makes fun close u _ => ?_
  refine .bind entriesOf_makes fun items v hitems => ?_
  refine Makes.finishBare.mono fun n w hn => ?_
  rw [hn]
  exact ⟨⟨hn ▸ rfl, hn ▸ List.mem_cons_self, hn ▸ by simpa using hitems⟩, rfl, nofun⟩

theorem listPattern_makes (hk : s.kind ∈ [.kwList, .lBracket]) :
    Makes c listPattern s fun n _ => n.Closed c := by
  refine collection_makes hk (by decide) (by decide) ?_
  refine .begin fun o t => .some fun shortform => .bind openEntries_makes fun close u _ => ?_
  refine .bind entriesOf_makes fun items v hitems => ?_
  refine Makes.finishBare.mono fun n w hn => ?_
  rw [hn]
  exact ⟨⟨hn ▸ rfl, hn ▸ List.mem_cons_self, hn ▸ by simpa using hitems⟩, rfl, nofun⟩

theorem entryPart_makes {isPattern : Bool} :
    Makes c (entryPart isPattern) s fun n _ => n.Fills c .any := by
  have hlist (hk : s.kind ∈ [.kwList, .lBracket]) :
      Makes c listPattern s fun n _ => n.Fills c .any :=
    (listPattern_makes hk).mono fun _ _ h => h.fills
  refine .kind ?_
  split
  case h_1 => exact .node rfl
  case h_2 hk => exact .ite (fun _ => hlist (by simp [hk])) fun _ => .expressionAny
  case h_3 hk => exact .ite (fun _ => hlist (by simp [hk])) fun _ => .expressionAny
  case h_4 => exact .expressionAny

theorem entry_makes {isPattern : Bool} : Makes c (entry isPattern) s fun n _ =>
    n.Fills c .entry := by
  refine .begin fun o t => .isAt (fun _ => ?_) fun _ => ?_
  · refine .bind .requireOption fun _ u _ => .pass fun v => .bind .expressionAny fun n w hn => ?_
    exact .finish (by simpa using hn) rfl rfl
  · refine .bind entryPart_makes fun first u hfirst => ?_
    refine .bind (.after fun v => entryPart_makes) fun value v hvalue => ?_
    cases value with
    | none => exact .finish (by simpa using hfirst) rfl rfl
    | some value => exact .finish (by simpa using ⟨hfirst, hvalue value rfl⟩) rfl rfl

/-- A skipped place stands in front of a comma. -/
theorem noop_formed {span : Span} (h : c.strict = true → span.start.offset < c.stop) :
    (Production.noop : Production Node).Formed c span where
  places := by simp
  operand := by simp [Production.infix?]
  flags := fun _ => rfl
  outermost := by simp [Production.isNamespace]
  hollow := fun hs _ => h hs
  made := fun hne => absurd rfl hne
  listed := Or.inl rfl
  named := by simp [Production.isName]

theorem entries_makes {close : TokenKind} {isPattern : Bool} :
    Makes c (entries close isPattern) s
      fun ns _ => ∀ n ∈ ns, n.Fills c (if isPattern then .element else .entry) := by
  refine .some fun _ => .some fun _ => .ite (fun _ => ?_) fun _ => ?_
  · exact .demand fun t => .pure (List.forall_mem_nil _)
  refine .read (.ite (fun hcomma => ?_) fun _ => ?_)
  · obtain ⟨hpattern, hkind⟩ := Bool.and_eq_true_iff.mp hcomma
    have hne : s.kind ≠ .eof := by
      have hkind : s.kind = .comma := of_decide_eq_true hkind
      simp [hkind]
    subst hpattern
    refine .openNode fun o t _ ho => .bind (.finishFormed (V := fun n _ => n.Fills c .element)
      (by simp) (fun _ => noop_formed fun _ => ho hne) fun info u _ h =>
        ⟨h, Slot.suits_of_admits rfl rfl⟩) ?_
    refine fun n u hn => .pass fun v => ?_
    exact .bind entriesOf_makes fun ns w hns => .pure (List.forall_mem_cons.mpr ⟨hn, hns⟩)
  · refine .bind entry_makes fun n t hn => ?_
    have hn : n.Fills c (if isPattern then .element else .entry) := by
      split
      · exact ⟨hn.wellFormed, hn.suits.element⟩
      · exact hn
    refine .ifEat (fun u => ?_) fun u => .demand fun v => .pure (List.forall_mem_singleton.mpr hn)
    exact .bind entriesOf_makes fun ns v hns => .pure (List.forall_mem_cons.mpr ⟨hn, hns⟩)

/-- A literal of one token has no children and is an operand. -/
theorem literal?_plain {k : TokenKind} {raw : String} {p : Production Node}
    (h : literal? k raw = some p) :
    p.children = [] ∧ p.isOrdinary = true ∧ p.tail? = none ∧
      ∀ op left right, p ≠ .assign op left right := by
  unfold literal? at h
  split at h
  case h_5 =>
    cases h
    unfold heredocLiteral
    split
    · exact ⟨rfl, rfl, rfl, by simp⟩
    · exact ⟨rfl, rfl, rfl, by simp⟩
  case h_6 =>
    split at h
    · cases h
      exact ⟨rfl, rfl, rfl, by simp⟩
    · cases h
  all_goals
    cases h
    exact ⟨rfl, rfl, rfl, by simp [stringLiteral]⟩

theorem scalar_makes : Makes c scalar s fun n _ => n.Closed c := by
  refine .kind ?_
  split
  case h_1 hk => exact arrayLiteral_makes (by simp [hk])
  case h_2 hk => exact arrayLiteral_makes (by simp [hk])
  case h_3 =>
    refine .some fun raw => ?_
    split
    · next p hp =>
      obtain ⟨hchildren, hordinary, htail, hassign⟩ := literal?_plain hp
      refine .begin fun o t => .pass fun u => .finishClosed ?_ hordinary htail hassign
      intro e he
      have hmem := Production.mem_children_of_mem_places he
      rw [hchildren] at hmem
      cases hmem
    · exact Makes.missing.mono fun _ _ h => h.closed

/-! ## Operators between operands -/

theorem operandOf_makes : Makes c (Parser.call .operand) s fun n t => n.Whole c t :=
  .call (r := .operand) trivial

theorem expressionOf_makes {min : Nat} :
    Makes c (Parser.call (.expression min)) s fun n t => n.Whole c t ∧ t.StopsAt min :=
  .call (r := .expression min) trivial

theorem infixesOf_makes {min : Nat} {left : Node} (h : left.Whole c s) :
    Makes c (Parser.call (.infixes min left)) s fun n t => n.Whole c t ∧ t.StopsAt min :=
  .call (r := .infixes min left) h

theorem expressionFrom_makes {min : Nat} :
    Makes c (expressionFrom min) s fun n t => n.Whole c t ∧ t.StopsAt min :=
  .bind operandOf_makes fun _ _ h => infixesOf_makes h

/-- An operation from its operator on: its operands, the right one at its end. -/
structure Operates (c : Scope) (op : Infix) (left : Node) (p : Production Node) (t : ParseState) :
    Prop where
  places : ∀ e ∈ p.places, e.2.Fills c e.1
  operation : ∃ right, p.infix? = some (op, left, right) ∧ p.tail? = some right ∧ right.Whole c t

/-- An operation is formed where what is to the left does not end in an assignment. -/
theorem Operates.formed {op : Infix} {left : Node} {p : Production Node} {t : ParseState}
    {span : Span} (h : Operates c op left p t) (hleft : ¬left.EndsInAssignment)
    (hplaces : ∀ e ∈ p.places, e.1.Suits e.2) : p.Formed c span := by
  obtain ⟨right, hop, _, _⟩ := h.operation
  have hoperand (op' : Infix) (l r : Node) (e : p.infix? = some (op', l, r)) :
      ¬l.EndsInAssignment := by
    rw [hop] at e
    cases e
    exact hleft
  cases p with
  | bin | ternary | coalesce =>
    exact ⟨hplaces, hoperand, fun _ => rfl, fun _ e => (nomatch e), fun _ e => (nomatch e),
      fun hne => absurd rfl hne, Or.inl rfl, fun e => (nomatch e)⟩
  | _ => cases hop

theorem infixOperation_makes {op : Infix} {left : Node} (hleft : left.Fills c .any) :
    Makes c (infixOperation op left) s fun p t => Operates c op left p t := by
  have hright {p : Node → Production Node} {t : ParseState}
      (hp : ∀ right, (p right).infix? = some (op, left, right) ∧ (p right).tail? = some right)
      (hplaces : ∀ right, right.Fills c .any → ∀ e ∈ (p right).places, e.2.Fills c e.1) :
      Makes c (Parser.call (.expression op.rightMin) >>= fun right => pure (p right)) t
        fun p t => Operates c op left p t :=
    .bind expressionOf_makes fun right u ⟨h, _⟩ =>
      .pure ⟨hplaces right h.fills, right, (hp right).1, (hp right).2, h⟩
  cases op with
  | binary op =>
    refine .possibly (fun _ => .requireOption) fun t => .pass fun u => ?_
    exact hright (fun _ => ⟨rfl, rfl⟩) fun right h => by simp [hleft, h]
  | coalesce =>
    refine .bind .requireOption fun _ t _ => .pass fun u => ?_
    exact hright (fun _ => ⟨rfl, rfl⟩) fun right h => by simp [hleft, h]
  | ternary =>
    refine .pass fun t => .ifEat (fun u => ?_) fun u => ?_
    · exact hright (fun _ => ⟨rfl, rfl⟩) fun right h => by simp [hleft, h]
    · refine .bind .expressionAny fun middle v hmiddle => .demand fun w => ?_
      exact hright (fun _ => ⟨rfl, rfl⟩) fun right h => by simp [hleft, hmiddle, h]

theorem infixes_makes {min : Nat} {left : Node} (h : left.Whole c s) :
    Makes c (infixes min left) s fun n t => n.Whole c t ∧ t.StopsAt min := by
  refine .kind ?_
  cases hop : Infix.ofToken? s.kind with
  | none =>
    refine .pure ⟨h, fun op e => ?_⟩
    rw [hop] at e
    cases e
  | some op =>
    refine .ite (fun hlt => .pure ⟨h, fun op' e => ?_⟩) fun _ => .openAt fun o t => ?_
    · rw [hop] at e
      exact Option.some.inj e ▸ hlt
    · have hleft : ¬left.EndsInAssignment := fun he =>
        Nat.not_lt_zero _ (h.ends he op hop)
      refine .bind (infixOperation_makes h.fills) fun p u hp => ?_
      obtain ⟨right, _, htail, hright⟩ := hp.operation
      refine .bind (.finishWhole hp.places (hp.formed hleft) htail hright) fun n v hn => ?_
      exact infixesOf_makes hn

/-! ## Assignment -/

theorem assignment_makes {left : Node} {op : AssignOp} (hleft : left.Fills c .any) :
    Makes c (assignment left op) s fun n t => n.Whole c t := by
  refine .openAt fun o t => .possibly (fun _ => ?_) fun u => .possibly (fun _ => ?_) fun v => ?_
  · exact Makes.missing.mono fun _ _ _ => trivial
  · exact .requireOption
  refine .pass fun w => .read (.join (U := fun right x => right.Fills c .any ∧
    (right.isAssigned = true → x.StopsAt 0)) (fun hc => ?_) (fun _ => ?_) fun right x hright => ?_)
  · have hamp : w.kind = .amp := of_decide_eq_true (Bool.and_eq_true_iff.mp hc).2
    refine variableOf_makes.mono fun n y ⟨hn, href⟩ => ⟨hn.fills, fun e => ?_⟩
    rw [href hamp] at e
    cases e
  · exact Makes.expression.mono fun n y ⟨hn, hstop⟩ => ⟨hn.fills, fun _ => hstop⟩
  · refine .finishFormed (by simpa using ⟨hleft, hright.1⟩) (.ordinary rfl) fun info y hy h => ?_
    refine ⟨h, rfl, fun he => ?_⟩
    cases he with
    | assign hassigned => exact fun op' e => hright.2 hassigned op' (hy ▸ e)
    | tail htail => cases htail

theorem destructuring_makes {list : Node} (h : list.Fills c .any) :
    Makes c (destructuring list) s fun n t => n.Whole c t := by
  refine .isAt (fun _ => assignment_makes h) fun _ => .openAt fun o t => ?_
  refine .bind .missing fun n u hn => ?_
  refine .finishFormed (by simpa using ⟨h, hn.fills .any⟩) (.ordinary rfl) fun info v _ hformed => ?_
  refine ⟨hformed, rfl, fun he => absurd he (Node.not_endsInAssignment ?_ (by simp [Production.tail?]))⟩
  intro op left right e
  cases e
  exact hn.isAssigned

theorem assignable_makes : Makes c assignable s fun n t => n.Whole c t := by
  refine .bind variableOf_makes fun target t ⟨htarget, _⟩ => .some fun k => ?_
  split
  · exact assignment_makes htarget.fills
  · split
    · refine .openAt fun o u => .pass fun v => ?_
      refine Makes.mono (.finishClosed ?_ rfl rfl (by simp)) fun n w hn => Node.Closed.whole hn w
      simpa using htarget.fills
    · exact .pure (htarget.whole t)

theorem literal_makes : Makes c literal s fun n t => n.Whole c t := by
  refine .some fun short => .bind scalar_makes fun n t hn => .some fun _ => ?_
  refine .ite (fun _ => assignment_makes (hn.wellFormed.asPattern.fills ?_)) fun _ => ?_
  · rw [Node.isTraitUse_asPattern, hn.other]
  have hlookups : Makes c (Parser.call (.lookups n false)) t fun n t => n.Whole c t :=
    (lookupsOf_makes hn).mono fun n u h => h.whole u
  split
  · exact hlookups
  · exact hlookups
  · exact .pure (hn.whole t)

/-! ## Operators and keywords before an operand -/

/-- A production of one operand, which is at its end. -/
structure IsPrefix (p : Node → Production Node) : Prop where
  places : ∀ n, (p n).places = [(Slot.any, n)]
  ordinary : ∀ n, (p n).isOrdinary = true
  tail : ∀ n, (p n).tail? = some n

theorem IsPrefix.finish {p : Node → Production Node} (hp : IsPrefix p) {o : Opened} {n : Node}
    (hn : n.Whole c s) : Makes c (Parser.finish o (p n)) s fun n t => n.Whole c t := by
  refine .finishWhole ?_ (.ordinary (hp.ordinary n)) (hp.tail n) hn
  rw [hp.places]
  exact List.forall_mem_singleton.mpr hn.fills

theorem withOperand_makes {min : Nat} {p : Node → Production Node} (hp : IsPrefix p) :
    Makes c (withOperand min p) s fun n t => n.Whole c t :=
  .begin fun _ _ => .pass fun _ => .bind expressionOf_makes fun _ _ ⟨hn, _⟩ => hp.finish hn

theorem withCondition_makes {p : Node → Production Node}
    (hplaces : ∀ n, (p n).places = [(Slot.any, n)]) (hordinary : ∀ n, (p n).isOrdinary = true)
    (htail : ∀ n, (p n).tail? = none) (hassign : ∀ n op left right, p n ≠ .assign op left right) :
    Makes c (withCondition p) s fun n _ => n.Closed c := by
  refine .begin fun o t => .pass fun u => .bind condition_makes fun n v hn => ?_
  refine .finishClosed ?_ (hordinary n) (htail n) (hassign n)
  rw [hplaces]
  exact List.forall_mem_singleton.mpr hn

theorem yieldOperation_makes : Makes c yieldOperation s fun n t => n.Whole c t := by
  refine .begin fun o t => .pass fun u => .some fun k => .ite (fun _ => ?_) fun _ => ?_
  · exact Makes.mono (.finishClosed (by simp) rfl rfl (by simp)) fun n w hn =>
      Node.Closed.whole hn w
  · refine .bind expressionOf_makes fun first v hfirst => ?_
    obtain ⟨hfirst, _⟩ := hfirst
    refine .bind (.afterOr hfirst fun w => expressionOf_makes) fun value w hvalue => ?_
    obtain ⟨hvalue, hnone⟩ := hvalue
    cases value with
    | none => exact .finishWhole (by simpa using hfirst.fills) (.ordinary rfl) rfl (hnone rfl)
    | some value =>
      obtain ⟨hvalue, _⟩ := hvalue value rfl
      refine .finishWhole ?_ (.ordinary rfl) rfl hvalue
      simpa using ⟨hfirst.fills, hvalue.fills⟩

theorem issetOperation_makes : Makes c issetOperation s fun n _ => n.Closed c := by
  refine .begin fun o t => .pass fun u => .bind .expect fun b v _ => ?_
  refine .join (U := fun ns _ => ∀ n ∈ ns, n.Fills c .any) (fun _ => delimited_makes rfl)
    (fun _ => .pure fun n hn => nomatch hn) fun ns w hns => ?_
  exact .finishClosed (by simpa using hns) rfl rfl (by simp)

theorem exitOperation_makes : Makes c exitOperation s fun n _ => n.Closed c := by
  refine .begin fun o t => .some fun word => .pass fun u => .ifEat (fun v => ?_) fun v => ?_
  · refine .some fun _ => .bind (.optionally .expressionAny) fun status w hstatus => ?_
    exact .demand fun x => .finishClosed (by simpa using hstatus) rfl rfl (by simp)
  · exact .finishClosed (by simp) rfl rfl (by simp)

theorem instantiated_makes : Makes c instantiated s fun n _ => n.Fills c .any := by
  have hvariable : Makes c (Parser.call (.variable true)) s fun n _ => n.Fills c .any := .node rfl
  have hname : Makes c (Parser.call .name) s fun n _ => n.Fills c .any :=
    nameOf_makes.mono fun _ _ h => h.1.fills
  refine .kind ?_
  split
  · exact hvariable
  · exact hvariable
  · exact hvariable
  · exact hname
  · exact hname
  · exact hname
  · exact Makes.missing.mono fun _ _ h => h.fills _

theorem newOperation_makes : Makes c newOperation s fun n _ => n.Closed c := by
  refine .begin fun o t => .pass fun u => .isAt (fun hk => ?_) fun _ => ?_
  · refine .bind (anonymousClass_makes hk) fun (n, args) v ⟨hn, hargs⟩ => ?_
    exact .finishClosed (by simpa using ⟨hn, hargs⟩) rfl rfl (by simp)
  · refine .bind instantiated_makes fun n v hn => .bind argumentsIfAny_makes fun args w hargs => ?_
    exact .finishClosed (by simpa using ⟨hn, hargs⟩) rfl rfl (by simp)

theorem closureWhole_makes {o : Opened} {isStatic : Bool} :
    Makes c (closure o isStatic) s fun n t => n.Whole c t :=
  closure_makes.mono fun _ t h => h.whole t

theorem staticFunction_makes : Makes c staticFunction s fun n t => n.Whole c t :=
  .begin fun _ _ => .pass fun _ => .isAt (fun _ => closureWhole_makes) fun _ => arrowFunction_makes

theorem parenthesis_makes : Makes c parenthesis s fun n _ => n.Closed c := by
  refine .begin fun o t => .pass fun u => .bind .expressionAny fun inner v hinner => ?_
  refine .demand fun w => .bind (.finishClosed ?_ rfl rfl (by simp)) fun n x hn => ?_
  · simpa using hinner
  · exact lookupsOf_makes hn

theorem noOperand_makes : Makes c noOperand s fun n _ => n.Closed c :=
  .bind .missing fun _ _ hn => .some fun _ => .possibly (fun _ => .advance) fun _ => .pure hn.closed

theorem simpleOperand_makes : Makes c simpleOperand s fun n t => n.Whole c t := by
  refine .some fun _ => .ite (fun _ => assignable_makes) fun _ => ?_
  refine .some fun _ => .ite (fun _ => literal_makes) fun _ => ?_
  exact noOperand_makes.mono fun _ t h => h.whole t

theorem keywordOperand_makes {k : TokenKind} (hk : s.kind = k) :
    Makes c (keywordOperand k) s fun n t => n.Whole c t := by
  have hwhole {p : Parser Node} (h : Makes c p s fun n _ => n.Closed c) :
      Makes c p s fun n t => n.Whole c t := h.mono fun _ t h => h.whole t
  have hupdate (op : UpdateOp) : Makes c (preUpdate op) s fun n t => n.Whole c t := by
    refine hwhole (.begin fun o t => .pass fun u => .bind variableOf_makes fun n v ⟨hn, _⟩ => ?_)
    exact .finishClosed (by simpa using hn.fills) rfl rfl (by simp)
  unfold keywordOperand
  split
  case h_2 =>
    refine .begin fun o t => .pass fun u => .bind operandOf_makes fun n v hn => ?_
    exact .finishWhole (by simpa using hn.fills) (.ordinary rfl) rfl hn
  case h_8 => exact yieldOperation_makes
  case h_10 => exact hwhole parenthesis_makes
  case h_11 =>
    refine hwhole (.begin fun o t => .some fun raw => .pass fun u => ?_)
    exact .finishClosed (by simp) rfl rfl (by simp)
  case h_12 =>
    exact .bind (listPattern_makes (by simp [hk])) fun list t h => destructuring_makes h.fills
  case h_13 | h_14 => exact hupdate _
  case h_15 => exact hwhole newOperation_makes
  case h_16 => exact hwhole issetOperation_makes
  case h_17 | h_18 =>
    exact hwhole (withCondition_makes (fun _ => rfl) (fun _ => rfl) (fun _ => rfl) (by simp))
  case h_19 => exact hwhole exitOperation_makes
  case h_20 => exact .begin fun o t => closureWhole_makes
  case h_21 => exact .begin fun o t => arrowFunction_makes
  case h_22 =>
    exact .some fun next => .ite (fun _ => staticFunction_makes) fun _ => simpleOperand_makes
  case h_23 => exact simpleOperand_makes
  all_goals exact withOperand_makes ⟨fun _ => rfl, fun _ => rfl, fun _ => rfl⟩

theorem operand_makes : Makes c operand s fun n t => n.Whole c t := by
  refine .kind ?_
  split
  · exact withOperand_makes ⟨fun _ => rfl, fun _ => rfl, fun _ => rfl⟩
  · refine .some fun raw => withOperand_makes ⟨fun _ => rfl, fun _ => rfl, fun _ => rfl⟩
  · exact keywordOperand_makes rfl

end PhpSyntax.Grammar
