import PhpSyntax.Grammar.Operation
import PhpSyntax.Proofs.Grammar.ClassLike
import PhpSyntax.Proofs.Grammar.Literal
import PhpSyntax.Proofs.Precedence.Operand

namespace PhpSyntax.Grammar

variable {b k l : Nat} {x : Bench × ParseState} {w : Bench} {s : ParseState}

/-! ## Operators between operands -/

theorem expressionFrom_sat {min : Nat} (h : Stage b k l x w s) (hk : 2 < k) :
    Sat b (expressionFrom min) s fun n t => Stage b k (max l s.offset) x (.node n :: w) t := by
  have hoperand := (Sat.callPlain (r := .operand) rfl h hk).given fun _ _ hn => hn
  refine .bind hoperand fun left t ⟨h₁, hleft⟩ => ?_
  have hfits : left.Fits min t := Node.IsAtom.fits hleft min t
  exact (Sat.call (.infixes min left) h₁ (Nat.zero_lt_of_lt hk) hfits).mono fun _ _ h₂ => h₂.1

theorem infixOperation_sat {op : Infix} {left : Node} (h : Stage b k l x (.node left :: w) s)
    (hk : s.kind.IsSolid) :
    Sat b (infixOperation op left) (s.openAt left.span.start).2 fun p t =>
      Stage b 32 (max l s.offset) x (p.lay (.opened (.startingAt left.span.start) :: w)) t := by
  -- What stands to the right is read behind the operator, with any credit.
  have hright {u : Bench} {l' : Nat} {t : ParseState} (h₁ : Stage b 32 l' x u t) :
      Sat b (Parser.call (.expression op.rightMin)) t fun n t =>
        Stage b 32 l' x (.node n :: u) t :=
    .forget (.callPlain rfl h₁ (show 3 < 32 by omega))
  cases op with
  | binary op =>
    refine .possibly (fun _ => .requireOptionBehind rfl h) (fun _ => ⟨s, rfl, rfl, h⟩) ?_
    rintro _ ⟨r, rfl, hr, h₁⟩
    refine .bind (.extendFrom hr hk h₁) fun _ u h₂ => ?_
    exact .bind (hright h₂) fun right v h₃ => .pure h₃
  | coalesce =>
    refine .bind (.requireOptionBehind rfl h) ?_
    rintro _ _ ⟨r, rfl, hr, h₁⟩
    refine .bind (.extendFrom hr hk h₁) fun _ u h₂ => ?_
    exact .bind (hright h₂) fun right v h₃ => .pure h₃
  | ternary =>
    refine .bind (.extendFrom rfl hk h) fun _ t h₁ => ?_
    refine .ifEat h₁ (by decide) (fun u h₂ => ?_) ?_
    · exact .bind (hright h₂) fun right v h₃ => .pure h₃
    · refine .bind (.forget (.expression h₁ (by omega))) fun middle u h₂ => ?_
      refine .bind (.require h₂ (by decide)) fun _ v h₃ => ?_
      exact .bind (hright h₃) fun right y h₄ => .pure h₄

/-- An operator between operands that are tight enough for it. -/
theorem isProper_of_infix {p : Production Node} {op : Infix} {left right : Node}
    (hp : p.infix? = some (op, left, right)) (hleft : left.binds op.leftMin = true)
    (hright : right.binds op.rightMin = true) : p.isProper = true := by
  have herror : p.isError = false := by
    cases p with
    | error => cases hp
    | _ => rfl
  simp [Production.isProper, herror, hp, hleft, hright]

theorem infixes_sat {min : Nat} {left : Node} (hfits : left.Fits min s)
    (h : Stage b k l x (.node left :: w) s) :
    Sat b (infixes min left) s fun n t => Stage b k l x (.node n :: w) t := by
  have hleft : left.span.start.offset ≤ s.offset := h.starts _ List.mem_cons_self
  refine .kind ?_
  split
  case h_1 => exact .pure h
  case h_2 op hop =>
    refine .ite (fun _ => .pure h) fun hmin => .openAt ?_
    have hsolid : s.kind.IsSolid := TokenKind.isSolid_of_some rfl rfl hop
    have hmin : min ≤ op.precedence := Nat.le_of_not_lt hmin
    have hinfix := (infixOperation_sat h hsolid).given (infixOperation_gives op left _)
    refine .bind hinfix fun p t hpt => ?_
    obtain ⟨h₁, ⟨right, hp, hright⟩, hstop⟩ := hpt
    have hproper := isProper_of_infix hp (hfits.left op hop hmin) hright
    have hguard : left.span.start.offset ≤ max l s.offset :=
      Nat.le_trans hleft (Nat.le_max_right _ _)
    have hfinish := (Sat.finishInPlace h₁ (.inr hguard) hproper).given
      (V := fun n _ => n.operator? = some op) (show _ = _ by rw [Node.operator?, hp]; rfl)
    refine .bind hfinish fun n u hnu => ?_
    obtain ⟨⟨hu, h₂⟩, hn⟩ := hnu
    have hnext : n.Fits min u := by
      refine fits_behind hn hmin ?_
      rw [ParseState.StopsAt, ParseState.kind_eq hu]
      exact hstop
    have h₃ := h₂.lower (Nat.le_max_left l s.offset)
    exact (Sat.call (.infixes min n) h₃ (show 0 < 32 by omega) hnext).mono
      fun _ _ h₄ => h₄.1.spend h.limit

/-! ## Assignment -/

theorem assignment_sat {left : Node} {op : AssignOp} (h : Stage b k l x (.node left :: w) s)
    (hk : s.kind.IsSolid) :
    Sat b (assignment left op) s fun n t => Stage b k (max l s.offset) x (.node n :: w) t := by
  have hleft : left.span.start.offset ≤ s.offset := h.starts _ List.mem_cons_self
  have hguard : left.span.start.offset ≤ max l s.offset :=
    Nat.le_trans hleft (Nat.le_max_right _ _)
  refine .openAt (.possibly (fun _ => .omittedBehind h) (fun _ => ⟨s, rfl, rfl, h⟩) ?_)
  rintro _ ⟨t, rfl, ht, h₁⟩
  refine .possibly (fun _ => .requireOptionBehind rfl h₁) (fun _ => ⟨t, rfl, rfl, h₁⟩) ?_
  rintro _ ⟨u, rfl, hu, h₂⟩
  refine .bind (.extendFrom (hu.trans ht) hk h₂) fun _ v h₃ => .sees ?_
  refine .join (fun _ => .forget (.callPlain rfl h₃ (show 1 < 32 by omega)))
    (fun _ => .forget (.expression h₃ (by omega))) fun right y h₄ => ?_
  exact (Sat.finish h₄ (.inr hguard) rfl).spend h.limit

/-- Where the equals sign of a destructuring is missing, an error stands to the right. -/
theorem destructuring_sat {list : Node} (h : Stage b k l x (.node list :: w) s)
    (hcovered : list.span.start.offset ≤ s.stream.prev.offset) :
    Sat b (destructuring list) s fun n t => Stage b k l x (.node n :: w) t := by
  have hlist : list.span.start.offset ≤ s.offset := h.starts _ List.mem_cons_self
  refine .isAt (fun hk => .forget (assignment_sat h (hk ▸ by decide))) fun _ => .openAt ?_
  have hguard : list.span.start.offset ≤ max l s.offset :=
    Nat.le_trans hlist (Nat.le_max_right _ _)
  refine .bind (.missing (max l s.offset) (h.openAt hcovered)) fun right t h₁ => ?_
  exact .forget (.finish h₁ (.inr hguard) rfl)

theorem assignable_sat (h : Stage b k l x w s) (hk : 1 < k) :
    Sat b assignable s fun n t => Stage b k (max l s.offset) x (.node n :: w) t := by
  refine .bind (.callPlain rfl h hk) fun target t h₁ => .kind ?_
  split
  case h_1 op hop => exact .forget (assignment_sat h₁ (TokenKind.isSolid_of_some rfl rfl hop))
  case h_2 =>
    split
    case h_1 op hop =>
      refine .extend h₁ (TokenKind.isSolid_of_some rfl rfl hop) fun o u ho h₂ => ?_
      exact .forget ((Sat.finish h₂ (.inr ho) rfl).spend h.limit)
    case h_2 => exact .pure h₁

theorem literal_sat (h : Stage b k l x w s) (hk : 0 < k) :
    Sat b literal s fun n t => Stage b k (max l s.offset) x (.node n :: w) t := by
  refine .sees (.bind (scalar_sat h) fun n t h₁ => .sees (.ite (fun hc => ?_) fun _ => ?_))
  · have hkind : t.kind = .equal := of_decide_eq_true (Bool.and_eq_true_iff.mp hc).2
    have h₂ := h₁.relabel n.asPattern_resembles
    exact .forget (assignment_sat h₂ (hkind ▸ by decide))
  · split
    · exact .lookups h₁ hk
    · exact .lookups h₁ hk
    · exact .pure h₁

/-! ## Operators and keywords before an operand -/

theorem withOperand_sat {min : Nat} {p : Node → Production Node}
    (hp : ∀ n w, (p n).lay w = .node n :: w) (he : ∀ n, (p n).isProper = true)
    (h : Stage b k l x w s) (hk : s.kind.IsSolid) :
    Sat b (withOperand min p) s fun n t => Stage b k (max l s.offset) x (.node n :: w) t := by
  refine .begin h hk fun o t ho h₁ => ?_
  refine .bind (.forget (.callPlain rfl h₁ (show 3 < 32 by omega))) fun n u h₂ => ?_
  rw [← hp] at h₂
  exact .finish h₂ (.inr ho) (he n)

theorem yieldOperation_sat (h : Stage b k l x w s) (hk : s.kind.IsSolid) :
    Sat b yieldOperation s fun n t => Stage b k (max l s.offset) x (.node n :: w) t := by
  have hoperand {l' : Nat} {u : Bench} {t : ParseState} (h₁ : Stage b 32 l' x u t) :
      Sat b (Parser.call (.expression keywordOperandMin)) t fun n t =>
        Stage b 32 l' x (.node n :: u) t :=
    .forget (.callPlain rfl h₁ (show 3 < 32 by omega))
  refine .begin h hk fun o t ho h₁ => .kind (.ite (fun _ => .finish h₁ (.inr ho) rfl) fun _ => ?_)
  refine .bind (hoperand h₁) fun first u h₂ => ?_
  refine .bind (.after h₂ (by decide) fun v h₃ => hoperand h₃) fun value v h₃ => ?_
  cases value with
  | some value => exact .finish h₃ (.inr ho) rfl
  | none => exact .finish h₃ (.inr ho) rfl

theorem preUpdate_sat {op : UpdateOp} (h : Stage b k l x w s) (hk : s.kind.IsSolid) :
    Sat b (preUpdate op) s fun n t => Stage b k (max l s.offset) x (.node n :: w) t := by
  refine .begin h hk fun o t ho h₁ => ?_
  refine .bind (.forget (.callPlain rfl h₁ (show 1 < 32 by omega))) fun n u h₂ => ?_
  exact .finish h₂ (.inr ho) rfl

theorem withCondition_sat {p : Node → Production Node}
    (hp : ∀ n w, (p n).lay w = .node n :: w) (he : ∀ n, (p n).isProper = true)
    (h : Stage b k l x w s) (hk : s.kind.IsSolid) :
    Sat b (withCondition p) s fun n t => Stage b k (max l s.offset) x (.node n :: w) t := by
  refine .begin h hk fun o t ho h₁ => ?_
  refine .bind (condition_sat h₁ (by omega)) fun n u h₂ => ?_
  rw [← hp] at h₂
  exact .finish h₂ (.inr ho) (he n)

theorem issetOperation_sat (h : Stage b k l x w s) (hk : s.kind.IsSolid) :
    Sat b issetOperation s fun n t => Stage b k (max l s.offset) x (.node n :: w) t := by
  refine .begin h hk fun o t ho h₁ => ?_
  refine .ifExpect h₁ (by decide) (fun u h₂ => ?_) fun u h₂ => .finish h₂ (.inr ho) rfl
  exact .bind (delimited_sat ⟨by decide, rfl⟩ h₂ (show 1 < 32 by omega))
    fun vs v h₃ => .finish h₃ (.inr ho) rfl

theorem exitOperation_sat (h : Stage b k l x w s) (hk : s.kind.IsSolid) :
    Sat b exitOperation s fun n t => Stage b k (max l s.offset) x (.node n :: w) t := by
  have ho : s.openNode.1.start.offset ≤ max l s.offset := Nat.le_max_right _ _
  refine .openNode (.text fun word => .consume h.openNode hk fun t _ h₁ => ?_)
  refine .ifEat h₁ (by decide) (fun u h₂ => .sees ?_) (.finish h₁ (.inr ho) rfl)
  refine .bind (.optionally h₂ fun _ => .forget (.expression h₂ (by omega))) fun status v h₃ => ?_
  exact .bind (.require h₃ (by decide)) fun _ y h₄ => .finish h₄ (.inr ho) rfl

theorem instantiated_sat (h : Stage b k l x w s) (hk : 1 < k) :
    Sat b instantiated s fun n t => Stage b k l x (.node n :: w) t := by
  refine .kind ?_
  split
  case h_1 | h_2 | h_3 => exact .forget (.callPlain rfl h hk)
  case h_4 | h_5 | h_6 => exact .forget (.callPlain rfl h (Nat.zero_lt_of_lt hk))
  case h_7 => exact .missing _ h

theorem newOperation_sat (h : Stage b k l x w s) (hk : s.kind.IsSolid) :
    Sat b newOperation s fun n t => Stage b k (max l s.offset) x (.node n :: w) t := by
  refine .begin h hk fun o t ho h₁ => .isAt (fun hclass => ?_) fun _ => ?_
  · refine .bind (.forget (anonymousClass_sat h₁ (hclass ▸ by decide))) fun ⟨n, args⟩ u h₂ => ?_
    exact .finish h₂ (.inr ho) rfl
  · refine .bind (instantiated_sat h₁ (by omega)) fun n u h₂ => ?_
    exact .bind (argumentsIfAny_sat h₂) fun args v h₃ => .finish h₃ (.inr ho) rfl

theorem staticFunction_sat (h : Stage b k l x w s) (hk : s.kind.IsSolid)
    (hnext : s.stream.peek = .kwFunction ∨ s.stream.peek = .kwFn) :
    Sat b staticFunction s fun n t => Stage b k (max l s.offset) x (.node n :: w) t := by
  refine .openNode (.consume h.openNode hk fun t ht h₁ => ?_)
  have hkind : t.kind = s.stream.peek := by
    rw [ht]
    exact Stream.advance_kind _
  have hsolid : t.kind.IsSolid := by
    rw [hkind]
    rcases hnext with hnext | hnext
    · exact hnext ▸ by decide
    · exact hnext ▸ by decide
  refine .isAt (fun _ => ?_) fun _ => ?_
  · exact .forget (closure_sat h₁ hsolid)
  · exact .forget (arrowFunction_sat h₁ hsolid)

theorem parenthesis_sat (h : Stage b k l x w s) (hk : s.kind.IsSolid) :
    Sat b parenthesis s fun n t => Stage b k (max l s.offset) x (.node n :: w) t := by
  refine .begin h hk fun o t ho h₁ => ?_
  refine .bind (.forget (.expression h₁ (by omega))) fun inner u h₂ => ?_
  refine .bind (.require h₂ (by decide)) fun _ v h₃ => ?_
  exact .bind (.finish h₃ (.inr ho) rfl) fun n y h₄ => .lookups h₄ (by omega)

theorem shellCommand_sat (h : Stage b k l x w s) (hk : s.kind.IsSolid) :
    Sat b shellCommand s fun n t => Stage b k (max l s.offset) x (.node n :: w) t := by
  refine .openNode (.text fun raw => .consume h.openNode hk fun t _ h₁ => ?_)
  exact .finish h₁ (.inr (Nat.le_max_right _ _)) rfl

theorem noOperand_sat (h : Stage b k l x w s) :
    Sat b noOperand s fun n t => Stage b k (max l s.offset) x (.node n :: w) t := by
  exact .bind (.missing (max l s.offset) h) fun n t h₁ => skip_sat h₁

theorem simpleOperand_sat (h : Stage b k l x w s) (hk : 1 < k) :
    Sat b simpleOperand s fun n t => Stage b k (max l s.offset) x (.node n :: w) t := by
  refine .isIn (fun _ => assignable_sat h hk) fun _ => ?_
  refine .isIn (fun _ => literal_sat h (Nat.zero_lt_of_lt hk)) fun _ => noOperand_sat h

theorem keywordOperand_sat {j : TokenKind} (hj : s.kind = j) (h : Stage b k l x w s)
    (hk : 1 < k) :
    Sat b (keywordOperand j) s fun n t => Stage b k (max l s.offset) x (.node n :: w) t := by
  unfold keywordOperand
  split
  case h_1 => exact withOperand_sat (fun _ _ => rfl) (fun _ => rfl) h (hj ▸ by decide)
  case h_2 =>
    refine .begin h (hj ▸ by decide) fun o t ho h₁ => ?_
    refine .bind (.forget (.callPlain rfl h₁ (by decide))) fun n u h₂ => ?_
    exact .finish h₂ (.inr ho) rfl
  case h_3 | h_4 | h_5 | h_6 | h_7 | h_9 =>
    exact withOperand_sat (fun _ _ => rfl) (fun _ => rfl) h (hj ▸ by decide)
  case h_8 => exact yieldOperation_sat h (hj ▸ by decide)
  case h_10 => exact parenthesis_sat h (hj ▸ by decide)
  case h_11 => exact shellCommand_sat h (hj ▸ by decide)
  case h_12 =>
    exact .bind (listPattern_covered h (hj ▸ by decide)) fun n t ⟨h₁, hn⟩ =>
      destructuring_sat h₁ hn
  case h_13 | h_14 => exact preUpdate_sat h (hj ▸ by decide)
  case h_15 => exact newOperation_sat h (hj ▸ by decide)
  case h_16 => exact issetOperation_sat h (hj ▸ by decide)
  case h_17 | h_18 => exact withCondition_sat (fun _ _ => rfl) (fun _ => rfl) h (hj ▸ by decide)
  case h_19 => exact exitOperation_sat h (hj ▸ by decide)
  case h_20 =>
    have hsolid : s.kind.IsSolid := hj ▸ by decide
    exact .openNode (closure_sat h.openNode hsolid)
  case h_21 =>
    have hsolid : s.kind.IsSolid := hj ▸ by decide
    exact .openNode (arrowFunction_sat h.openNode hsolid)
  case h_22 =>
    refine .peek (.ite (fun hnext => ?_) fun _ => simpleOperand_sat h hk)
    simp only [Bool.or_eq_true, decide_eq_true_eq] at hnext
    exact staticFunction_sat h (hj ▸ by decide) hnext
  case h_23 => exact simpleOperand_sat h hk

theorem operand_sat (h : Stage b k l x w s) (hk : 1 < k) :
    Sat b operand s fun n t => Stage b k (max l s.offset) x (.node n :: w) t := by
  refine .kind ?_
  split
  case h_1 op hop =>
    exact withOperand_sat (fun _ _ => rfl) (fun _ => rfl) h
      (TokenKind.isSolid_of_some rfl rfl hop)
  case h_2 type hop htype =>
    exact .text fun raw => withOperand_sat (fun _ _ => rfl) (fun _ => rfl) h
      (TokenKind.isSolid_of_some rfl rfl htype)
  case h_3 => exact keywordOperand_sat rfl h hk

end PhpSyntax.Grammar
