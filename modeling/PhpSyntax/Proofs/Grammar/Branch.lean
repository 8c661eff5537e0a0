import PhpSyntax.Grammar.Branch
import PhpSyntax.Proofs.Grammar.Sequence

namespace PhpSyntax.Grammar

variable {b k l : Nat} {x : Bench × ParseState} {w : Bench} {s : ParseState}

/-! ## Conditionals -/

theorem shortElse_sat (h : Stage b k l x w s) (hk : s.kind.IsSolid) :
    Sat b shortElse s fun n t => Stage b k l x (.node n :: w) t := by
  refine .forget (.consume h hk fun t _ h₁ => ?_)
  refine .bind (.require h₁ (by decide)) fun _ u h₂ => .openNode ?_
  exact .bind (.statements h₂.openNode (by decide)) fun ns v h₃ => .finish h₃ (.inl rfl) rfl

theorem shortBranch_sat (h : Stage b k l x w s) (hk : 6 < k) :
    Sat b shortBranch s fun v t => Stage b k l x (layOption v.2 (.node v.1 :: w)) t := by
  refine .openNode (.bind (.statements h.openNode hk) fun ns t h₁ => ?_)
  refine .bind (.finish h₁ (.inl rfl) rfl) fun body u h₂ => .kind ?_
  split
  case h_1 hkind =>
    have hready : u.kind.IsSolid := hkind ▸ by decide
    refine .bind (.call .shortElseIf h₂ (Nat.zero_lt_of_lt hk) hready) fun n v ⟨h₃, _⟩ => ?_
    exact .pure (h₃.lower (Nat.le_max_left _ _))
  case h_2 hkind =>
    exact .bind (shortElse_sat h₂ (hkind ▸ by decide)) fun n v h₃ => .pure h₃
  case h_3 => exact .pure h₂

theorem shortElseIf_sat (h : Stage b k l x w s) (hk : s.kind.IsSolid) :
    Sat b shortElseIf s fun n t => Stage b k (max l s.offset) x (.node n :: w) t := by
  refine .begin h hk fun o t ho h₁ => ?_
  refine .bind (condition_sat h₁ (by omega)) fun test u h₂ => ?_
  refine .bind (.require h₂ (by decide)) fun _ v h₃ => ?_
  exact .bind (shortBranch_sat h₃ (by decide)) fun ⟨body, alternate⟩ y h₄ =>
    .finish h₄ (.inr ho) rfl

theorem ifStatement_sat (h : Stage b k l x w s) (hk : s.kind.IsSolid) :
    Sat b ifStatement s fun n t => Stage b k (max l s.offset) x (.node n :: w) t := by
  refine .begin h hk fun o t ho h₁ => ?_
  refine .bind (condition_sat h₁ (by omega)) fun test u h₂ => ?_
  refine .ifEat h₂ (by decide) (fun v h₃ => ?_) ?_
  · refine .bind (shortBranch_sat h₃ (by decide)) fun ⟨body, alternate⟩ y h₄ => ?_
    refine .bind (.require h₄ (by decide)) fun _ z h₅ => ?_
    exact .bind (.endStatement h₅) fun _ z' h₆ => .finish h₆ (.inr ho) rfl
  · refine .bind (.statement h₂ (by decide)) fun body v h₃ => .kind ?_
    split
    case h_1 hkind =>
      have hready : v.kind.IsSolid := hkind ▸ by decide
      refine .bind (.call .ifStatement h₃ (by decide) hready) fun alternate y ⟨h₄, _⟩ => ?_
      exact .finish (h₄.lower (Nat.le_max_left _ _)) (.inr ho) rfl
    case h_2 hkind =>
      have hne : v.kind ≠ .eof := by simp [hkind]
      refine .bind (.advance h₃ hne) fun _ y ⟨_, h₄⟩ => ?_
      exact .bind (.statement h₄ (by decide)) fun alternate z h₅ => .finish h₅ (.inr ho) rfl
    case h_3 => exact .finish h₃ (.inr ho) rfl

/-! ## Choices -/

/-- A case that starts with neither of its keywords consumes nothing up to its mark. -/
theorem caseTest_sat (h : Stage b k l x w s) :
    Sat b caseTest s fun n t =>
      Stage b 32 (max l s.offset) x (layOption n w) t ∨
        (t.stream = s.stream ∧ s.kind ≠ .kwCase ∧ s.kind ≠ .kwDefault ∧
          Stage b k (max l s.offset) x (layOption n w) t) := by
  refine .kind ?_
  split
  case h_1 hkind =>
    refine .bind (.advanceSolid h (hkind ▸ by decide)) fun _ t h₁ => ?_
    exact .bind (.forget (.expression h₁ (by omega))) fun n u h₂ => .pure (Or.inl h₂)
  case h_2 hkind =>
    exact .bind (.advanceSolid h (hkind ▸ by decide)) fun _ t h₁ => .pure (Or.inl h₁)
  case h_3 hcase hdefault =>
    exact .bind (.missingInPlace _ h) fun n t ⟨ht, h₁⟩ => .pure (Or.inr ⟨ht, hcase, hdefault, h₁⟩)

/-- A case consumes something: its keyword, its mark, or a statement. -/
theorem caseClause_sat {close : TokenKind} (h : Stage b k l x w s) (hk : 6 < k)
    (hne : s.kind ≠ .eof) (hclose : s.kind ≠ close) :
    Sat b (caseClause close) s fun n t => Stage b 32 l x (.node n :: w) t := by
  let o := s.openNode.1
  let stop : TokenSet := .ofList [.kwCase, .kwDefault, close]
  have hfinish {test : Option Node} {body : List Node} {t : ParseState}
      (h₁ : Stage b 32 (max l s.offset) x (stack body (layOption test (.opened o :: w))) t) :
      Sat b (Parser.finish o (.case test body)) t fun n u => Stage b 32 l x (.node n :: w) u :=
    .forget (.finish h₁ (.inr (Nat.le_max_right _ _)) rfl)
  have hrest {test : Option Node} {t : ParseState}
      (h₁ : Stage b 32 (max l s.offset) x (layOption test (.opened o :: w)) t) :
      Sat b (Parser.call (.statements stop) >>= fun body => Parser.finish o (.case test body)) t
        fun n u => Stage b 32 l x (.node n :: w) u :=
    .bind (.statements h₁ (by omega)) fun body u h₂ => hfinish h₂
  refine .openNode (.bind (caseTest_sat h.openNode) fun test t h₁ => .kind ?_)
  rcases h₁ with h₁ | ⟨ht, hcase, hdefault, h₁⟩
  · split
    case h_1 hkind | h_2 hkind =>
      have hne : t.kind ≠ .eof := by simp [hkind]
      exact .bind (.advance h₁ hne) fun _ u ⟨_, h₂⟩ => hrest h₂
    case h_3 => exact .bind (.omitted _ h₁) fun _ u ⟨_, h₂⟩ => hrest h₂
  · split
    case h_1 hkind | h_2 hkind =>
      have hne : t.kind ≠ .eof := by simp [hkind]
      exact .bind (.advance h₁ hne) fun _ u ⟨_, h₂⟩ => hrest h₂
    case h_3 =>
      refine .bind (.omitted (max l s.offset) h₁) fun _ u ⟨hu, h₂⟩ => ?_
      have hkind : u.kind = s.kind := ParseState.kind_eq (hu.trans ht)
      have hgo : stop.contains u.kind = false := by
        rw [hkind, ← Bool.not_eq_true, ← TokenSet.mem_iff, TokenSet.mem_ofList]
        simp only [List.mem_cons, List.not_mem_nil, or_false, not_or]
        exact ⟨hcase, hdefault, hclose⟩
      exact .bind (.someStatements h₂ hk (hkind ▸ hne) hgo) fun body v h₃ => hfinish h₃

theorem cases_sat {close : TokenKind} (h : Stage b k l x w s) (hk : 6 < k) :
    Sat b (cases close) s fun ns t => Stage b k l x (stack ns w) t := by
  refine .atEnd (.sees (.ite (fun _ => .pure h) fun hc => ?_))
  simp only [Bool.or_eq_true, decide_eq_true_eq, not_or] at hc
  refine .bind (caseClause_sat h hk hc.1 hc.2) fun n t h₁ => ?_
  refine .bind (.call (.cases close) h₁ (show 7 < 32 by omega) trivial) fun ns u ⟨h₂, _⟩ => ?_
  exact .pure (h₂.spend h.limit)

theorem openCases_sat (h : Stage b k l x w s) :
    Sat b openCases s fun close t => close.IsSolid ∧ Stage b k l x w t := by
  refine .kind ?_
  split
  case h_1 hkind | h_2 hkind =>
    have hne : s.kind ≠ .eof := by simp [hkind]
    exact .bind (.advance h hne) fun _ t ⟨_, h₁⟩ => .pure ⟨by decide, h₁.spend h.limit⟩
  case h_3 => exact .bind (.omitted l h) fun _ t ⟨_, h₁⟩ => .pure ⟨by decide, h₁⟩

theorem commentsAlone_sat (h : Stage b k l x w s) :
    Sat b commentsAlone s fun ns t => Stage b k l x (stack ns w) t := by
  refine .read (.ite (fun _ => .openNode ?_) fun _ => .pure h) rfl
  exact .bind (.finish h.openNode (.inl rfl) rfl) fun n t h₁ => .pure h₁

theorem caseList_sat (h : Stage b k l x w s) (hk : 7 < k) :
    Sat b caseList s fun n t => Stage b k l x (.node n :: w) t := by
  refine .openNode (.bind (openCases_sat h.openNode) fun close t ⟨hc, h₁⟩ => ?_)
  refine .bind (.eatAny h₁ (by decide)) fun _ u h₂ => ?_
  refine .bind (.call (.cases close) h₂ hk trivial) fun children v ⟨h₃, _⟩ => ?_
  have hrest {children : List Node} {t : ParseState}
      (h₄ : Stage b k l x (stack children (.opened s.openNode.1 :: w)) t) :
      Sat b (Parser.require close >>= fun _ =>
        if close = .kwEndSwitch then
          Parser.endStatement >>= fun _ => Parser.finish s.openNode.1 (.block children)
        else Parser.finish s.openNode.1 (.block children)) t
        fun n u => Stage b k l x (.node n :: w) u := by
    refine .bind (.require h₄ hc) fun _ u h₅ => .ite (fun _ => ?_) fun _ => ?_
    · exact .bind (.endStatement h₅) fun _ v h₆ => .finish h₆ (.inl rfl) rfl
    · exact .finish h₅ (.inl rfl) rfl
  refine .ite (fun hempty => ?_) fun _ => hrest h₃
  have hnil : children = [] := List.isEmpty_iff.mp hempty
  subst hnil
  exact .bind (commentsAlone_sat h₃) fun children y h₄ => hrest h₄

theorem switchStatement_sat (h : Stage b k l x w s) (hk : s.kind.IsSolid) :
    Sat b switchStatement s fun n t => Stage b k (max l s.offset) x (.node n :: w) t := by
  refine .begin h hk fun o t ho h₁ => ?_
  refine .bind (condition_sat h₁ (by omega)) fun test u h₂ => .sees ?_
  exact .bind (caseList_sat h₂ (by decide)) fun body v h₃ => .finish h₃ (.inr ho) rfl

/-! ## Handlers -/

theorem handler_sat (h : Stage b k l x w s) (hk : s.kind.IsSolid) :
    Sat b handler s fun n t => Stage b 32 l x (.node n :: w) t := by
  have h₁ := h.openNode
  refine .openNode (.bind (.advanceSolid h₁ hk) fun _ t h₂ => ?_)
  refine .bind (.require h₂ (by decide)) fun _ u h₃ => ?_
  refine .bind (.forget (separated_sat ⟨by decide, rfl⟩ h₃ (by decide))) fun types v h₄ => ?_
  refine .bind (.forget (.callPlain rfl h₄ (by decide))) fun var y h₅ => ?_
  refine .bind (.require h₅ (by decide)) fun _ z h₆ => ?_
  refine .bind (.forget (block_sat h₆)) fun body z' h₇ => ?_
  exact .forget (.finish h₇ (.inr (Nat.le_max_right _ _)) rfl)

theorem handlers_sat (h : Stage b k l x w s) :
    Sat b handlers s fun ns t => Stage b k l x (stack ns w) t := by
  refine .isAt (fun hk => ?_) fun _ => .pure h
  refine .bind (handler_sat h (hk ▸ by decide)) fun n t h₁ => ?_
  refine .bind (.call .handlers h₁ (by decide) trivial) fun ns u ⟨h₂, _⟩ => ?_
  exact .pure (h₂.spend h.limit)

theorem tryStatement_sat (h : Stage b k l x w s) (hk : s.kind.IsSolid) :
    Sat b tryStatement s fun n t => Stage b k (max l s.offset) x (.node n :: w) t := by
  refine .begin h hk fun o t ho h₁ => ?_
  refine .bind (.forget (block_sat h₁)) fun body u h₂ => ?_
  refine .bind (.call .handlers h₂ (by decide) trivial) fun catches v ⟨h₃, _⟩ => ?_
  refine .bind (.after h₃ (by decide) fun y h₄ => .forget (block_sat h₄)) fun always y h₄ => ?_
  exact .finish h₄ (.inr ho) rfl

end PhpSyntax.Grammar
