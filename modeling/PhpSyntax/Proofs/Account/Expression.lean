import PhpSyntax.Grammar.Operation
import PhpSyntax.Proofs.Account.Declaration
import PhpSyntax.Proofs.Grammar.Literal

namespace PhpSyntax

/-- An array literal answers for the same when it is read as a list. -/
theorem Node.notes_asPattern (n : Node) : n.asPattern.notes = n.notes := by
  induction n using Node.induction with
  | step n ih =>
    obtain ⟨info, p⟩ := n
    cases p with
    | array items shortform =>
      cases shortform with
      | false => rfl
      | true =>
        have hitems : notesOf (items.map asPattern) = notesOf items := notesOf_map fun c hc =>
          ih c (by
            simpa [children, Production.children, Production.fields, Field.children] using hc)
        rw [asPattern, Production.asPattern, allAsPattern_eq, notes_eq, notes_eq]
        simp [bare, isBare, children, Production.children, Production.leaf,
          Field.children, hitems]
    | entry key value unpack =>
      have hvalue : value.asPattern.notes = value.notes :=
        ih value (by simp [children, Production.children, Field.children])
      rw [asPattern, Production.asPattern, notes_eq, notes_eq]
      simp [bare, isBare, children, Production.children, Production.leaf,
        Field.children, hvalue]
    | _ => rfl

namespace Grammar

variable {x : Text} {e d : Notes} {s : ParseState}

/-! ## Arrays and lists -/

theorem openEntries_tells {shortform : Bool} (hk : s.kind.isMark = true) :
    Tells x e (openEntries shortform) s fun f close _ => f = e ∧ close.isMark = true := by
  refine .pass hk fun t _ => .ite (fun _ => .pure ⟨rfl, rfl⟩) fun _ => ?_
  exact .bind (.require rfl) fun f _ u hf => .pure ⟨hf, rfl⟩

theorem entryList_tells {close : TokenKind} {isPattern : Bool} (hc : close.isMark = true) :
    Tells x e (Parser.call (.entries close isPattern)) s fun f ns _ => f = e + notesOf ns :=
  .callList hc rfl fun _ _ _ h => h

theorem arrayLiteral_tells (hk : s.kind.isMark = true) :
    Tells x e arrayLiteral s fun f n _ => f = e + n.notes := by
  refine .of fun hs => .openNode (.sees (.bind (openEntries_tells hk) fun f close t ⟨hf, hc⟩ => ?_))
  refine .bind (entryList_tells hc) fun g items u hg => ?_
  subst hf hg
  exact .finish (.inr (.inl (hs.marks hk))) rfl (by simp)

theorem listPattern_tells (hk : s.kind.isMark = true) :
    Tells x e listPattern s fun f n _ => f = e + n.notes := by
  refine .of fun hs => .openNode (.sees (.bind (openEntries_tells hk) fun f close t ⟨hf, hc⟩ => ?_))
  refine .bind (entryList_tells hc) fun g items u hg => ?_
  subst hf hg
  exact .finish (.inr (.inl (hs.marks hk))) rfl (by simp)

theorem entryPart_tells {isPattern : Bool} :
    Tells x e (entryPart isPattern) s fun f n _ => f = e + n.notes := by
  refine .kind ?_
  split
  case h_1 => exact (Tells.callPlain rfl).mono fun _ _ _ h => h.1
  case h_2 hk | h_3 hk =>
    exact .ite (fun _ => listPattern_tells (hk ▸ rfl)) fun _ => .expression
  case h_4 => exact .expression

theorem entry_tells {isPattern : Bool} :
    Tells x e (entry isPattern) s fun f n _ => f = e + n.notes := by
  refine .openNode (.isAt (fun hk => ?_) fun _ => ?_)
  · refine .bind (.requireOption .php74 fun _ => rfl) fun f _ t ⟨hf, ht, _⟩ => ?_
    have hmark : t.kind.isMark = true := by
      rw [ParseState.kind, ht, ← ParseState.kind, hk]
      rfl
    refine .pass hmark fun u _ => .bind .expression fun g value v hg => ?_
    subst hf hg
    exact .finish (.inl (List.cons_ne_nil _ _)) rfl (by simp [add_assoc])
  · refine .bind entryPart_tells fun f first t hf => ?_
    refine .bind (.after rfl fun u => entryPart_tells) fun g value u hg => ?_
    subst hf hg
    cases value with
    | some value =>
      exact .finish (.inl (List.cons_ne_nil _ _)) rfl (by simp [add_assoc])
    | none => exact .finish (.inl (List.cons_ne_nil _ _)) rfl (by simp)

theorem entries_tells {close : TokenKind} {isPattern : Bool} (hc : close.isMark = true) :
    Tells x e (entries close isPattern) s fun f ns _ => f = e + notesOf ns := by
  refine .sees (.atEnd (.ite (fun _ => ?_) fun _ => .sees (.ite (fun hcomma => ?_) fun _ => ?_)))
  · exact .bind (.require hc) fun f _ t hf => .pure (by simp [hf])
  · have hk : s.kind = .comma := of_decide_eq_true (Bool.and_eq_true_iff.mp hcomma).2
    refine .openNode (.bind (.finishAs (d := e) (.inr (.inr (Nat.le_refl _))) rfl ?_)
      fun f n t ⟨hf, _, ht⟩ => .pass ?_ fun u _ => ?_)
    · simp
    · have hmark : s.kind.isMark = true := hk ▸ rfl
      rwa [ParseState.kind, ht]
    · refine .bind (entryList_tells hc) fun g ns v hg => .pure ?_
      rw [hg, hf, notesOf_cons, add_assoc]
  · refine .bind entry_tells fun f n t hf => .ifEat rfl (fun _ u _ => ?_) fun _ => ?_
    · refine .bind (entryList_tells hc) fun g ns v hg => .pure ?_
      rw [hg, hf, notesOf_cons, add_assoc]
    · exact .bind (.require hc) fun g _ u hg => .pure (by simp [hg, hf])

/-! ## Literals of one token -/

/-- A literal of one token records the token, or stands where it does. -/
theorem leaf_of_literal? {t : Token} {p : Production Node} (h : literal? t.kind t.text = some p) :
    p.children = [] ∧ (∀ k, p.due k = 0) ∧
      (p.leaf.Keeps t ∨ t.kind.isMark = true ∧ p.leaf = .other) := by
  unfold literal? at h
  split at h
  case h_1 hk =>
    cases h
    exact ⟨rfl, fun _ => by simp, Or.inl ⟨Or.inl hk, rfl⟩⟩
  case h_2 hk =>
    cases h
    exact ⟨rfl, fun _ => by simp, Or.inl ⟨Or.inr hk, rfl⟩⟩
  case h_3 hk =>
    cases h
    exact ⟨rfl, fun _ => by simp [stringLiteral], Or.inl ⟨hk, rfl⟩⟩
  case h_4 hk =>
    cases h
    exact ⟨rfl, fun _ => by simp, Or.inl ⟨Or.inl hk, rfl⟩⟩
  case h_5 hk =>
    cases h
    unfold heredocLiteral
    split
    · exact ⟨rfl, fun _ => by simp, Or.inl ⟨hk, rfl⟩⟩
    · exact ⟨rfl, fun _ => by simp, Or.inl ⟨Or.inr (Or.inl hk), rfl⟩⟩
  case h_6 =>
    split at h
    · next hmagic =>
      cases h
      have hall : ∀ k ∈ TokenKind.magicConstants, k.isMark = true := by decide
      exact ⟨rfl, fun _ => by simp, Or.inr ⟨hall _ hmagic, rfl⟩⟩
    · cases h

theorem scalar_tells : Tells x e scalar s fun f n t => f = e + n.notes ∧ s.Eats x t := by
  refine .of fun hs => .kind ?_
  split
  case h_1 hk | h_2 hk => exact .atMark (hk ▸ rfl) (arrayLiteral_tells (hk ▸ rfl))
  case h_3 =>
    refine .text ?_
    split
    case h_1 p hp =>
      obtain ⟨hchildren, hdue, hkeeps | ⟨hmark, hother⟩⟩ := leaf_of_literal? hp
      · exact .openNode (.leafNode rfl hkeeps hchildren hdue)
      · refine .atMark hmark (.openNode (.pass hmark fun t _ => ?_))
        exact .finish (.inr (.inl (hs.marks hmark))) (by rw [hother]; rfl) (by rw [hdue, add_zero])
    case h_2 => exact .missingNode

/-! ## Operators between operands -/

theorem expressionFrom_tells {min : Nat} :
    Tells x e (expressionFrom min) s fun f n t => f = e + n.notes ∧ s.Eats x t := by
  refine .bindEats (.callKeen rfl rfl) fun f left t hf => ?_
  exact .infixes hf

/-- What an operation answers for beside its operands is noted at its operator. -/
theorem infixOperation_tells {op : Infix} {left : Node} (hk : s.kind.isMark = true)
    (he : e = d + left.notes) :
    Tells x e (infixOperation op left) s fun f p _ =>
      (∀ k, f = d + p.due k) ∧ p.children ≠ [] ∧ p.leaf = .other := by
  have hright {e : Notes} {t : ParseState} :
      Tells x e (Parser.call (.expression op.rightMin)) t fun f n _ => f = e + n.notes :=
    (Tells.callPlain rfl).mono fun _ _ _ h => h.1
  have hstay {t : ParseState} (ht : t.stream.current = s.stream.current) :
      t.kind.isMark = true := by
    rwa [ParseState.kind, ht]
  cases op with
  | binary op =>
    refine .possibly (P := fun f t => f = e + Gate.php7.due (op = .spaceship) ∧
      t.stream.current = s.stream.current) (fun hop => ?_) (fun hop => ?_) fun f t h => ?_
    · refine (Tells.requireOption .php7 fun _ => rfl).mono fun _ _ _ h => ⟨?_, h.2.1⟩
      rw [h.1, decide_eq_true hop, Gate.due_true]
    · rw [decide_eq_false hop, Gate.due_false, add_zero]
      exact ⟨rfl, rfl⟩
    · refine .pass (hstay h.2) fun u _ => .bind hright fun g right v hg => .pure ?_
      obtain ⟨rfl, -⟩ := h
      subst hg he
      refine ⟨fun k => ?_, List.cons_ne_nil _ _, rfl⟩
      simp [add_assoc, add_comm, add_left_comm]
  | coalesce =>
    refine .bind (.requireOption .php7 fun _ => rfl) fun f _ t h => ?_
    refine .pass (hstay h.2.1) fun u _ => .bind hright fun g right v hg => .pure ?_
    obtain ⟨rfl, -⟩ := h
    subst hg he
    refine ⟨fun k => ?_, List.cons_ne_nil _ _, rfl⟩
    simp [Multiset.add_cons, add_assoc]
  | ternary =>
    refine .pass hk fun t _ => .ifEat rfl (fun _ u _ => ?_) fun _ => ?_
    · refine .bind hright fun g right v hg => .pure ⟨fun k => ?_, List.cons_ne_nil _ _, rfl⟩
      simp [hg, he, add_assoc]
    · refine .bind .expression fun f middle u hf => .bind (.require rfl) fun g _ v hg => ?_
      refine .bind hright fun g' right y hg' => .pure ⟨fun k => ?_, List.cons_ne_nil _ _, rfl⟩
      simp [hf, hg, hg', he, add_assoc]

theorem infixes_tells {min : Nat} {left : Node} (he : e = d + left.notes) :
    Tells x e (infixes min left) s fun f n _ => f = d + n.notes := by
  refine .kind ?_
  split
  case h_1 => exact .pure he
  case h_2 op hop =>
    have hmark : s.kind.isMark = true := TokenKind.isMark_of_some (by decide) hop
    refine .ite (fun _ => .pure he) fun _ => .openAt fun o t _ ht => ?_
    have hmark : t.kind.isMark = true := by rwa [ParseState.kind, ht]
    refine .bind (infixOperation_tells hmark he) fun f p u h => ?_
    obtain ⟨hf, hne, hother⟩ := h
    exact .bind (.finish (.inl hne) (by rw [hother]; rfl) (hf _)) fun g n v hg => .infixes hg

/-! ## Assignment -/

theorem assignment_tells {left : Node} {op : AssignOp} (hk : s.kind.isMark = true)
    (he : e = d + left.notes) :
    Tells x e (assignment left op) s fun f n _ => f = d + n.notes := by
  refine .openAt fun o t _ ht => ?_
  refine .possibly (P := fun f u => f = e ∧ u.stream.current = s.stream.current)
    (fun _ => ?_) (fun _ => ⟨rfl, by rw [ht]⟩) fun f u ⟨hf, hu⟩ => ?_
  · exact Tells.missing.mono fun _ _ _ ⟨hf, hn⟩ => ⟨hf, by rw [hn.stream, ht]⟩
  refine .possibly (P := fun f v => f = e + Gate.php74.due (op = .coalesce) ∧
    v.stream.current = s.stream.current) (fun hop => ?_) (fun hop => ?_) fun g v ⟨hg, hv⟩ => ?_
  · refine (Tells.requireOption .php74 fun _ => rfl).mono
      fun _ _ _ ⟨hg, hv, _⟩ => ⟨?_, hv.trans hu⟩
    rw [hg, hf, decide_eq_true hop, Gate.due_true]
  · rw [decide_eq_false hop, Gate.due_false, add_zero]
    exact ⟨hf, hu⟩
  · have hmark : v.kind.isMark = true := by rwa [ParseState.kind, hv]
    refine .pass hmark fun y _ =>
      .sees (.join (fun _ => ?_) (fun _ => .expression) fun k right z hk => ?_)
    · exact (Tells.callPlain rfl).mono fun _ _ _ h => h.1
    · subst hg hk he
      refine .finish (.inl (List.cons_ne_nil _ _)) rfl ?_
      simp [add_assoc, add_comm, add_left_comm]

theorem destructuring_tells {list : Node} (he : e = d + list.notes) :
    Tells x e (destructuring list) s fun f n _ => f = d + n.notes := by
  refine .isAt (fun hk => assignment_tells (hk ▸ rfl) he) fun _ => .openAt fun o t _ _ => ?_
  refine .bind .omission fun f right u hf => ?_
  subst hf he
  exact .finish (.inl (List.cons_ne_nil _ _)) rfl (by simp [add_assoc])

theorem assignable_tells : Tells x e assignable s fun f n t => f = e + n.notes ∧ s.Eats x t := by
  refine .bindEats (.callKeen rfl rfl) fun f target t hf => .kind ?_
  split
  case h_1 op hop => exact assignment_tells (TokenKind.isMark_of_some (by decide) hop) hf
  case h_2 =>
    split
    case h_1 op hop =>
      refine .extend (TokenKind.isMark_of_some (by decide) hop) fun o u => ?_
      exact .finish (.inl (List.cons_ne_nil _ _)) rfl (by simp [hf])
    case h_2 => exact .pure hf

theorem literal_tells : Tells x e literal s fun f n t => f = e + n.notes ∧ s.Eats x t := by
  refine .sees (.bindEats scalar_tells fun f n t hf => .sees (.ite (fun hc => ?_) fun _ => ?_))
  · have hk : t.kind = .equal := of_decide_eq_true (Bool.and_eq_true_iff.mp hc).2
    exact assignment_tells (hk ▸ rfl) (by rw [hf, Node.notes_asPattern])
  · split
    · exact .lookups hf
    · exact .lookups hf
    · exact .pure hf

/-! ## Operators and keywords before an operand -/

theorem withOperand_tells {min : Nat} {p : Node → Production Node}
    (hl : ∀ n, (p n).leaf = .other) (hp : ∀ n k, (p n).due k = n.notes)
    (hk : s.kind.isMark = true) :
    Tells x e (withOperand min p) s fun f n _ => f = e + n.notes := by
  refine .begin hk fun o t ho _ => .bind (.callPlain rfl) fun f n u ⟨hf, _⟩ => ?_
  exact .finish (.inr (.inl ho)) (by rw [hl]; rfl) (by rw [hp, hf])

theorem yieldOperation_tells (hk : s.kind.isMark = true) :
    Tells x e yieldOperation s fun f n _ => f = e + n.notes := by
  have hoperand {e : Notes} {t : ParseState} :
      Tells x e (Parser.call (.expression keywordOperandMin)) t fun f n _ => f = e + n.notes :=
    (Tells.callPlain rfl).mono fun _ _ _ h => h.1
  refine .begin hk fun o t ho _ => .kind (.ite (fun _ => ?_) fun _ => ?_)
  · exact .finish (.inr (.inl ho)) rfl (by simp)
  refine .bind hoperand fun f first u hf =>
    .bind (.after rfl fun v => hoperand) fun g value v hg => ?_
  subst hf hg
  cases value with
  | some value => exact .finish (.inr (.inl ho)) rfl (by simp [add_assoc])
  | none => exact .finish (.inr (.inl ho)) rfl (by simp)

theorem preUpdate_tells {op : UpdateOp} (hk : s.kind.isMark = true) :
    Tells x e (preUpdate op) s fun f n _ => f = e + n.notes := by
  refine .begin hk fun o t ho _ => .bind (.callPlain rfl) fun f n u ⟨hf, _⟩ => ?_
  exact .finish (.inr (.inl ho)) rfl (by simp [hf])

theorem withCondition_tells {p : Node → Production Node}
    (hl : ∀ n, (p n).leaf = .other) (hp : ∀ n k, (p n).due k = n.notes)
    (hk : s.kind.isMark = true) :
    Tells x e (withCondition p) s fun f n _ => f = e + n.notes := by
  refine .begin hk fun o t ho _ => .bind condition_tells fun f n u hf => ?_
  exact .finish (.inr (.inl ho)) (by rw [hl]; rfl) (by rw [hp, hf])

theorem issetOperation_tells (hk : s.kind.isMark = true) :
    Tells x e issetOperation s fun f n _ => f = e + n.notes := by
  refine .begin hk fun o t ho _ => .ifExpect rfl (fun u => ?_) fun u => ?_
  · refine .bind (delimited_tells ⟨rfl, rfl⟩) fun f vs v hf => ?_
    exact .finish (.inr (.inl ho)) rfl (by simp [hf])
  · exact .finish (.inr (.inl ho)) rfl (by simp)

theorem exitOperation_tells (hk : s.kind.isMark = true) :
    Tells x e exitOperation s fun f n _ => f = e + n.notes := by
  refine .of fun hs => .openNode (.text (.pass hk fun t _ => ?_))
  have ho := hs.marks hk
  refine .ifEat rfl (fun _ u _ => .sees ?_) fun _ => ?_
  · refine .bind (.optionally fun _ => .expression) fun f status v hf => ?_
    refine .bind (.require rfl) fun g _ y hg => ?_
    exact .finish (.inr (.inl ho)) rfl (by simp [hg, hf])
  · exact .finish (.inr (.inl ho)) rfl (by simp)

theorem instantiated_tells : Tells x e instantiated s fun f n _ => f = e + n.notes := by
  refine .kind ?_
  split
  case h_7 => exact .omission
  all_goals exact (Tells.callPlain rfl).mono fun _ _ _ h => h.1

theorem newOperation_tells (hk : s.kind.isMark = true) :
    Tells x e newOperation s fun f n _ => f = e + n.notes := by
  refine .begin hk fun o t ho _ => .isAt (fun hc => ?_) fun _ => ?_
  · refine .bind (anonymousClass_tells (hc ▸ rfl)) fun f ⟨n, args⟩ u hf => ?_
    exact .finish (.inr (.inl ho)) rfl (by simp [hf])
  · refine .bind instantiated_tells fun f n u hf => .bind argumentsIfAny_tells fun g args v hg => ?_
    exact .finish (.inr (.inl ho)) rfl (by simp [hg, hf, add_assoc])

theorem staticFunction_tells (hk : s.kind.isMark = true)
    (hnext : s.stream.peek = .kwFunction ∨ s.stream.peek = .kwFn) :
    Tells x e staticFunction s fun f n _ => f = e + n.notes := by
  refine .openNode (.pass hk fun t ht => ?_)
  have hkind : t.kind = s.stream.peek := by
    rw [ht]
    exact Stream.advance_kind _
  have hmark : t.kind.isMark = true := by
    rw [hkind]
    rcases hnext with hnext | hnext
    · exact hnext ▸ rfl
    · exact hnext ▸ rfl
  exact .isAt (fun _ => closure_tells hmark) fun _ => arrowFunction_tells hmark

theorem parenthesis_tells (hk : s.kind.isMark = true) :
    Tells x e parenthesis s fun f n _ => f = e + n.notes := by
  refine .begin hk fun o t ho _ => .bind .expression fun f inner u hf => ?_
  refine .bind (.require rfl) fun g _ v hg => ?_
  refine .bind (.finish (d := e) (.inr (.inl ho)) rfl ?_) fun k n y hk => .lookups hk
  simp [hg, hf]

theorem shellCommand_tells (hk : s.kind = .shellCommand) :
    Tells x e shellCommand s fun f n t => f = e + n.notes ∧ s.Eats x t := by
  refine .openNode (.text (.leafNode rfl ⟨Or.inr (Or.inr hk), rfl⟩ rfl fun _ => ?_))
  simp

theorem noOperand_tells : Tells x e noOperand s fun f n t => f = e + n.notes ∧ s.Eats x t := by
  refine .bind .missing fun f n t ⟨hf, hn⟩ => ?_
  refine (Tells.skip hn.tolerant).mono fun _ _ _ ⟨hg, hm⟩ => ⟨?_, .of_tolerant hn.tolerant⟩
  rw [hg, hm, hf, hn.notes, add_zero]

theorem simpleOperand_tells :
    Tells x e simpleOperand s fun f n t => f = e + n.notes ∧ s.Eats x t :=
  .isIn (fun _ => assignable_tells) fun _ => .isIn (fun _ => literal_tells) fun _ => noOperand_tells

theorem keywordOperand_tells {j : TokenKind} (hj : s.kind = j) :
    Tells x e (keywordOperand j) s fun f n t => f = e + n.notes ∧ s.Eats x t := by
  have hoperand {p : Parser Node} (hm : j.isMark = true)
      (h : s.kind.isMark = true → Tells x e p s fun f n _ => f = e + n.notes) :
      Tells x e p s fun f n t => f = e + n.notes ∧ s.Eats x t :=
    .atMark (hj ▸ hm) (h (hj ▸ hm))
  unfold keywordOperand
  split
  case h_11 => exact shellCommand_tells hj
  case h_23 => exact simpleOperand_tells
  case h_1 | h_3 | h_4 | h_5 | h_6 | h_7 | h_9 =>
    exact hoperand rfl (withOperand_tells (fun _ => rfl) fun _ _ => by simp)
  case h_2 =>
    refine hoperand rfl fun hm => .begin hm fun o t ho _ => ?_
    refine .bind (.callPlain rfl) fun f n u h => ?_
    exact .finish (.inr (.inl ho)) rfl (by simp [h.1])
  case h_8 => exact hoperand rfl yieldOperation_tells
  case h_10 => exact hoperand rfl parenthesis_tells
  case h_12 =>
    exact hoperand rfl fun hm => .bind (listPattern_tells hm) fun f n t hf => destructuring_tells hf
  case h_13 | h_14 => exact hoperand rfl preUpdate_tells
  case h_15 => exact hoperand rfl newOperation_tells
  case h_16 => exact hoperand rfl issetOperation_tells
  case h_17 | h_18 =>
    exact hoperand rfl (withCondition_tells (fun _ => rfl) fun _ _ => by simp)
  case h_19 => exact hoperand rfl exitOperation_tells
  case h_20 => exact hoperand rfl fun hm => .openNode (closure_tells hm)
  case h_21 => exact hoperand rfl fun hm => .openNode (arrowFunction_tells hm)
  case h_22 =>
    refine .peek (.ite (fun hnext => ?_) fun _ => simpleOperand_tells)
    simp only [Bool.or_eq_true, decide_eq_true_eq] at hnext
    exact hoperand rfl fun hm => staticFunction_tells hm hnext

theorem operand_tells : Tells x e operand s fun f n t => f = e + n.notes ∧ s.Eats x t := by
  refine .kind ?_
  split
  case h_1 op hop =>
    have hmark : s.kind.isMark = true := TokenKind.isMark_of_some (by decide) hop
    exact .atMark hmark
      (withOperand_tells (fun _ => rfl) (fun _ _ => by simp) hmark)
  case h_2 type hop htype =>
    have hmark : s.kind.isMark = true := TokenKind.isMark_of_some (by decide) htype
    exact .text (.atMark hmark
      (withOperand_tells (fun _ => rfl) (fun _ _ => by simp) hmark))
  case h_3 => exact keywordOperand_tells rfl

end Grammar
end PhpSyntax
