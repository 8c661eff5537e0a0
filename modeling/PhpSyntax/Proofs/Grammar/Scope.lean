import PhpSyntax.Grammar.Scope
import PhpSyntax.Proofs.Grammar.Statement

namespace PhpSyntax.Grammar

variable {b k l : Nat} {x : Bench × ParseState} {w : Bench} {s : ParseState}

/-! ## Imports -/

theorem useKind_sat (h : Stage b k l x w s) :
    Sat b useKind s fun _ t => Stage b k l x w t := by
  refine .kind ?_
  split
  case h_1 hkind | h_2 hkind =>
    have hne : s.kind ≠ .eof := by simp [hkind]
    exact .bind (.advance h hne) fun _ t ⟨_, h₁⟩ => .pure (h₁.spend h.limit)
  case h_3 => exact .pure h

theorem useItemNamed_sat {o : Opened} {n : Node} {kind : UseKind}
    (h : Stage b k l x (.node n :: .opened o :: w) s) (ho : o.start.offset ≤ l) :
    Sat b (useItemNamed o n kind) s fun n t => Stage b k l x (.node n :: w) t := by
  refine .bind (.after h (by decide) fun t h₁ => .forget (identifier_sat h₁)) fun localName t h₁ => ?_
  exact .finish h₁ (.inr ho) rfl

theorem useItem_sat {kind : UseKind} {mixed : Bool} (h : Stage b k l x w s) (hk : 0 < k) :
    Sat b (useItem kind mixed) s fun n t => Stage b k (max l s.offset) x (.node n :: w) t := by
  have hrest {kind : UseKind} {t : ParseState}
      (h₁ : Stage b k l x (.opened s.openNode.1 :: w) t) :
      Sat b (Parser.call .name >>= fun n => useItemNamed s.openNode.1 n kind) t
        fun n u => Stage b k (max l s.offset) x (.node n :: w) u := by
    have ho : s.offset ≤ t.offset := h₁.starts _ List.mem_cons_self
    refine .bind (.callPlain rfl h₁ hk) fun n u h₂ => ?_
    have hle : max l s.offset ≤ max l t.offset := by omega
    exact useItemNamed_sat (h₂.lower hle) (Nat.le_max_right _ _)
  refine .openNode (.ite (fun _ => ?_) fun _ => hrest h.openNode)
  exact .bind (useKind_sat h.openNode) fun declared t h₁ => hrest h₁

theorem useStatement_sat (h : Stage b k l x w s) (hk : s.kind.IsSolid) :
    Sat b useStatement s fun n t => Stage b k (max l s.offset) x (.node n :: w) t := by
  refine .begin h hk fun o t ho h₁ => ?_
  refine .bind (useKind_sat h₁) fun declared u h₂ => .openNode ?_
  refine .bind (.callPlain rfl h₂.openNode (by decide)) fun n v h₃ => ?_
  have hgroup := h₃.lower (Nat.le_max_left (max l s.offset) _)
  refine .sees (.peek (.ite (fun hc => ?_) fun _ => ?_))
  · obtain ⟨hsep, hbrace⟩ := Bool.and_eq_true_iff.mp hc
    refine .bind (.abandonInPlace hgroup) fun n t₁ ⟨e₁, h₄⟩ => ?_
    refine .bind (.requireOption rfl h₄) fun _ t₂ ⟨e₂, h₅⟩ => ?_
    have hstream : t₂.stream = v.stream := e₂.trans e₁
    have hkind : t₂.kind ≠ .eof := by
      rw [ParseState.kind_eq hstream, of_decide_eq_true hsep]
      decide
    refine .bind (.advance h₅ hkind) fun _ t₃ ⟨e₃, h₆⟩ => ?_
    have hnext : t₃.kind ≠ .eof := by
      have hpeek : t₃.kind = v.stream.peek := by
        rw [e₃, ← hstream]
        exact Stream.advance_kind _
      rw [hpeek, of_decide_eq_true hbrace]
      decide
    refine .bind (.advance h₆ hnext) fun _ t₄ ⟨_, h₇⟩ => ?_
    refine .bind (delimited_sat ⟨by decide, rfl⟩ h₇ (show 4 < 32 by omega)) fun items t₅ h₈ => ?_
    exact .bind (.endStatement h₈) fun _ t₆ h₉ => .finish h₉ (.inr ho) rfl
  · have hrest {item : Node} {items : List Node} {t : ParseState}
        (h₅ : Stage b 32 (max l s.offset) x (stack items (.node item :: .opened o :: w)) t) :
        Sat b (Parser.endStatement >>= fun _ =>
          Parser.finish o (.useGroup none (declared.getD .class) (item :: items))) t
          fun n t => Stage b 32 (max l s.offset) x (.node n :: w) t :=
      .bind (.endStatement h₅) fun _ _ h₆ => .finish h₆ (.inr ho) rfl
    refine .bind (useItemNamed_sat h₃ (Nat.le_max_right _ _)) fun item t₁ h₄ => ?_
    have h₄ := h₄.lower (Nat.le_max_left (max l s.offset) _)
    refine .ifEat h₄ (by decide) (fun t₂ h₅ => ?_) (hrest h₄)
    exact .bind (.forget (separated_sat ⟨by decide, rfl⟩ h₅ (show 4 < 32 by omega)))
      fun items t₃ h₆ => hrest h₆

/-! ## Namespaces -/

theorem namespaceBody_sat {anonymous : Bool} (h : Stage b k l x w s) (hk : 6 < k) :
    Sat b (namespaceBody anonymous) s fun v t => Stage b k l x (stack v.1 w) t := by
  refine .ifEat h (by decide) (fun t h₁ => ?_) ?_
  · refine .bind (.topStatements h₁ (by omega)) fun children u h₂ => ?_
    exact .bind (.require h₂ (by decide)) fun _ v h₃ => .pure (h₃.spend h.limit)
  · refine .ite (fun _ => ?_) fun _ => ?_
    · exact .bind (.omitted l h) fun _ t ⟨_, h₁⟩ => .pure h₁
    · refine .bind (.endStatement h) fun _ t h₁ => ?_
      exact .bind (.call .namespaceStatements h₁ hk trivial) fun children u ⟨h₂, _⟩ => .pure h₂

theorem namespaceDeclaration_sat (h : Stage b k l x w s) (hk : s.kind.IsSolid) :
    Sat b namespaceDeclaration s fun n t => Stage b k (max l s.offset) x (.node n :: w) t := by
  refine .openNode (.read (.possibly (fun _ => .objection rfl h.openNode)
    (fun _ => ⟨rfl, h.openNode⟩) fun t ⟨ht, h₁⟩ => ?_) rfl)
  refine .bind (.advanceFrom ht hk h₁) fun _ u h₂ => .sees ?_
  refine .bind (.optionally h₂ fun _ => .forget (.callPlain rfl h₂ (by decide))) fun name v h₃ => ?_
  refine .bind (.nest (· + 1) h₃) fun _ y h₄ => ?_
  refine .bind (namespaceBody_sat h₄ (by omega)) fun ⟨children, withBraces⟩ z h₅ => ?_
  refine .bind (.nest (· - 1) h₅) fun _ z' h₆ => ?_
  exact (Sat.finish h₆ (.inr (Nat.le_max_right _ _)) rfl).spend h.limit

/-! ## Declare statements -/

theorem directive_sat (h : Stage b k l x w s) (hk : 3 < k) :
    Sat b directive s fun n t => Stage b k (max l s.offset) x (.node n :: w) t := by
  refine .openNode (.bind (identifier_sat h.openNode) fun key t h₁ => ?_)
  refine .bind (.require h₁ (by decide)) fun _ u h₂ => ?_
  refine .bind (.forget (.expression h₂ hk)) fun value v h₃ => ?_
  exact .finish h₃ (.inr (Nat.le_max_right _ _)) rfl

theorem declareBody_sat (h : Stage b k l x w s) (hk : 6 < k) :
    Sat b declareBody s fun v t => Stage b k l x (stack v.1 w) t := by
  refine .kind ?_
  split
  case h_1 hkind =>
    have hne : s.kind ≠ .eof := by simp [hkind]
    refine .bind (.advance h hne) fun _ t ⟨_, h₁⟩ => ?_
    refine .bind (.statements h₁ (by omega)) fun children u h₂ => ?_
    refine .bind (.require h₂ (by decide)) fun _ v h₃ => ?_
    exact .bind (.endStatement h₃) fun _ y h₄ => .pure (h₄.spend h.limit)
  case h_2 hkind =>
    have hne : s.kind ≠ .eof := by simp [hkind]
    refine .bind (.advance h hne) fun _ t ⟨_, h₁⟩ => ?_
    refine .bind (.topStatements h₁ (by omega)) fun children u h₂ => ?_
    exact .bind (.require h₂ (by decide)) fun _ v h₃ => .pure (h₃.spend h.limit)
  case h_3 =>
    refine .bind (.endStatement h) fun _ t h₁ => ?_
    exact .bind (.topStatements h₁ hk) fun children u h₂ => .pure h₂

theorem declareStatement_sat (h : Stage b k l x w s) (hk : s.kind.IsSolid) :
    Sat b declareStatement s fun n t => Stage b k (max l s.offset) x (.node n :: w) t := by
  refine .begin h hk fun o t ho h₁ => ?_
  have hrest {directives : List Node} {u : ParseState}
      (h₂ : Stage b 32 (max l s.offset) x (stack directives (.opened o :: w)) u) :
      Sat b (declareBody >>= fun v => Parser.finish o (.declare directives v.1 v.2)) u
        fun n v => Stage b 32 (max l s.offset) x (.node n :: w) v :=
    .bind (declareBody_sat h₂ (by omega)) fun v y h₃ => .finish h₃ (.inr ho) rfl
  refine .ifExpect h₁ (by decide) (fun u h₂ => ?_) fun u h₂ => hrest h₂
  exact .bind (delimited_sat ⟨by decide, rfl⟩ h₂ (by decide)) fun directives v h₃ =>
    hrest h₃

/-! ## The end of the code -/

theorem halt_sat (h : Stage b k l x w s) : Sat b halt s fun _ t => Stage b k l x w t :=
  .of_update (g := fun s => (s.stream.halt.1, s.halt)) rfl rfl rfl (.single .halt) h.halt

theorem haltCompiler_sat {outermost : Bool} (h : Stage b k l x w s) (hk : s.kind.IsSolid) :
    Sat b (haltCompiler outermost) s fun n t =>
      Stage b k (max l s.offset) x (.node n :: w) t := by
  refine .possibly (fun _ => .objection rfl h) (fun _ => ⟨rfl, h⟩) fun t ⟨ht, h₁⟩ => ?_
  rw [← ParseState.offset_eq ht]
  refine .begin h₁ (ParseState.kind_eq ht ▸ hk) fun o u ho h₂ => ?_
  refine .bind (.require h₂ (by decide)) fun _ v h₃ => ?_
  refine .bind (.require h₃ (by decide)) fun _ y h₄ => .ite (fun _ => ?_) fun _ => ?_
  · refine .sees (.possibly (fun _ => ?_) (fun _ => h₄) fun z h₅ => ?_)
    · exact (Sat.omitted _ h₄).mono fun _ _ h₅ => h₅.2
    · exact .bind (halt_sat h₅) fun after z' h₆ => .finish h₆ (.inr ho) rfl
  · exact .bind (.endStatement h₄) fun _ z h₅ => .finish h₅ (.inr ho) rfl

/-! ## Statements by their first token -/

theorem statement_sat (h : Stage b k l x w s) (hk : 3 < k) :
    Sat b statement s fun n t => Stage b k l x (.node n :: w) t := by
  refine .peek (.kind ?_)
  split
  case h_1 => exact .forget (block_sat h)
  case h_2 hkind =>
    have hready : s.kind.IsSolid := hkind ▸ by decide
    exact .forget ((Sat.call .ifStatement h (Nat.zero_lt_of_lt hk) hready).mono fun _ _ h₁ => h₁.1)
  case h_3 hkind => exact .forget (switchStatement_sat h (hkind ▸ by decide))
  case h_4 hkind => exact .forget (forStatement_sat h (hkind ▸ by decide))
  case h_5 hkind => exact .forget (foreachStatement_sat h (hkind ▸ by decide))
  case h_6 hkind => exact .forget (whileStatement_sat h (hkind ▸ by decide))
  case h_7 hkind => exact .forget (doStatement_sat h (hkind ▸ by decide))
  case h_8 hkind | h_9 hkind | h_10 hkind =>
    exact .forget (withOptionalExpression_sat (fun _ _ => rfl) (fun _ => rfl) h (hkind ▸ by decide))
  case h_11 hkind =>
    exact .forget (withItems_sat rfl (by decide) (fun _ _ => rfl) (fun _ => rfl) h
      (hkind ▸ by decide))
  case h_12 hkind =>
    refine .ite (fun _ => ?_) fun _ => expressionStatement_sat h hk
    exact .forget (withItems_sat rfl (by decide) (fun _ _ => rfl) (fun _ => rfl) h
      (hkind ▸ by decide))
  case h_13 hkind => exact .forget (echoStatement_sat h (hkind ▸ by decide))
  case h_14 hkind => exact .forget (inlineHtml_sat h (hkind ▸ by decide))
  case h_15 hkind => exact .forget (unsetStatement_sat h (hkind ▸ by decide))
  case h_16 hkind => exact .forget (declareStatement_sat h (hkind ▸ by decide))
  case h_17 hkind => exact .forget (tryStatement_sat h (hkind ▸ by decide))
  case h_18 hkind => exact .forget (throwStatement_sat h (hkind ▸ by decide))
  case h_19 hkind => exact .forget (gotoStatement_sat h (hkind ▸ by decide))
  case h_20 => exact .ite (fun _ => label_sat h) fun _ => expressionStatement_sat h hk
  case h_21 hkind => exact emptyStatement_sat h (by simp [hkind])
  case h_22 => exact expressionStatement_sat h hk

theorem innerStatement_sat (h : Stage b k l x w s) (hk : 5 < k) :
    Sat b innerStatement s fun n t => Stage b k l x (.node n :: w) t := by
  refine .peek (.kind ?_)
  split
  case h_1 hkind =>
    refine .ite (fun _ => .statement h hk) fun _ => ?_
    exact .forget (functionDeclaration_sat h (hkind ▸ by decide))
  case h_2 | h_3 | h_4 => exact .forget (classDeclaration_sat h (Nat.zero_lt_of_lt hk))
  case h_5 hkind => exact .forget (interfaceDeclaration_sat h (hkind ▸ by decide))
  case h_6 hkind => exact .forget (traitDeclaration_sat h (hkind ▸ by decide))
  case h_7 hkind => exact .forget (haltCompiler_sat h (hkind ▸ by decide))
  case h_8 => exact .statement h hk

theorem topStatement_sat (h : Stage b k l x w s) (hk : 5 < k) :
    Sat b topStatement s fun n t => Stage b k l x (.node n :: w) t := by
  refine .read (.ite (fun hns => ?_) fun _ => .kind ?_) rfl
  · have hkind : s.kind = .kwNamespace := of_decide_eq_true (Bool.and_eq_true_iff.mp hns).1
    exact .forget (namespaceDeclaration_sat h (hkind ▸ by decide))
  · split
    case h_1 hkind => exact .forget (useStatement_sat h (hkind ▸ by decide))
    case h_2 hkind =>
      exact .forget (withItems_sat rfl (by decide) (fun _ _ => rfl) (fun _ => rfl) h
        (hkind ▸ by decide))
    case h_3 hkind => exact .forget (haltCompiler_sat h (hkind ▸ by decide))
    case h_4 => exact innerStatement_sat h hk

theorem statements_sat {stop : TokenSet} (h : Stage b k l x w s) (hk : 5 < k) :
    Sat b (statements stop) s fun ns t =>
      Stage b k l x (stack ns w) t ∧ (Rule.statements stop).Ends t :=
  statementList_sat _ rfl (fun h₁ _ _ => innerStatement_sat h₁ hk)
    (fun h₁ => .call (.statements stop) h₁ (show 6 < 32 by omega) trivial) (fun hs => hs) h

theorem topStatements_sat {stop : TokenSet} (h : Stage b k l x w s) (hk : 5 < k) :
    Sat b (topStatements stop) s fun ns t =>
      Stage b k l x (stack ns w) t ∧ (Rule.topStatements stop).Ends t :=
  statementList_sat _ rfl (fun h₁ _ _ => topStatement_sat h₁ hk)
    (fun h₁ => .call (.topStatements stop) h₁ (show 6 < 32 by omega) trivial) (fun hs => hs) h

theorem namespaceStatements_sat (h : Stage b k l x w s) (hk : 5 < k) :
    Sat b namespaceStatements s fun ns t =>
      Stage b k l x (stack ns w) t ∧ Rule.namespaceStatements.Ends t :=
  statementList_sat (fun s => decide (s.kind = .kwNamespace) &&
      decide (s.stream.peek ≠ .nsSeparator)) rfl
    (fun h₁ _ _ => topStatement_sat h₁ hk)
    (fun h₁ => .call .namespaceStatements h₁ (by decide) trivial) (fun _ => trivial) h

end PhpSyntax.Grammar
