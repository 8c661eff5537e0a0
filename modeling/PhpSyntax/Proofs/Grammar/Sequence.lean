import PhpSyntax.Grammar.Sequence
import PhpSyntax.Proofs.Trace.Action

namespace PhpSyntax.Grammar

variable {b k l : Nat} {x : Bench × ParseState} {w : Bench} {s : ParseState}

theorem separated_sat {mark : TokenKind} {item : Rule .node}
    (hr : mark.IsSolid ∧ item.isPlain = true) (h : Stage b k l x w s)
    (hk : item.rank < k) :
    Sat b (separated mark item) s fun ns t => Stage b k (max l s.offset) x (stack ns w) t := by
  refine .bind (.callPlain hr.2 h hk) fun n t h₁ => ?_
  refine .ifEat h₁ hr.1 (fun u h₂ => .spend ?_ h.limit) (.pure h₁)
  exact .bind (.forget (.separated hr h₂ (by omega))) fun ns v h₃ => .pure h₃

theorem delimited_sat {close : TokenKind} {item : Rule .node}
    (hr : close.IsSolid ∧ item.isPlain = true) (h : Stage b k l x w s)
    (hk : item.rank < k) :
    Sat b (delimited close item) s fun ns t => Stage b k l x (stack ns w) t := by
  refine .sees (.atEnd (.ite (fun _ => ?_) fun _ => ?_))
  · exact .bind (.require h hr.1) fun _ t h₁ => .pure h₁
  · refine .bind (.forget (.callPlain hr.2 h hk)) fun n t h₁ => ?_
    refine .ifEat h₁ (by decide) (fun u h₂ => .spend ?_ h.limit) ?_
    · exact .bind (.delimited hr h₂ (by omega)) fun ns v h₃ => .pure h₃
    · exact .bind (.require h₁ hr.1) fun _ u h₂ => .pure h₂

/-- Behind a statement something has been consumed, forcibly if need be. -/
theorem forceProgress_sat {s₀ : ParseState} {w₀ : Bench} {n : Node}
    (h₀ : Stage b k l x w₀ s₀) (hs : s₀.kind ≠ .eof)
    (h : Stage b k l (w₀, s₀) (.node n :: w) s) :
    Sat b (Parser.forceProgress s₀.stream.current.start) s fun _ t =>
      Stage b 32 l x (.node n :: w) t := by
  have hrest : s.stream.rest < s₀.stream.rest ∨ s.stream = s₀.stream := h.moves.rest h₀.sound
  refine .read (.ite (fun hstuck => ?_) fun hmoved => ?_) rfl
  · have hne : s.kind ≠ .eof := by
      intro he
      simp [ParseState.kind] at he
      simp [Token.isEof, he] at hstuck
    exact (Sat.advance (h₀.trans h) hne).mono fun _ t h₁ => h₁.2
  · refine .pure ?_
    have hlt : s.stream.rest < s₀.stream.rest := by
      rcases hrest with hlt | he
      · exact hlt
      · have hkind : s₀.stream.current.kind ≠ .eof := hs
        simp [he, Token.isEof, hkind] at hmoved
    exact h₀.gain h hlt

theorem statementList_sat (ends : ParseState → Bool) {statement : Parser Node}
    {rest : Rule .nodes} (hends : ends s.strict = ends s)
    (hstatement : ∀ {x l}, Stage b k l x w s → s.kind ≠ .eof → ends s = false →
      Sat b statement s fun n t => Stage b k l x (.node n :: w) t)
    (hrest : ∀ {t : ParseState} {w : Bench}, Stage b 32 l x w t →
      Sat b (Parser.call rest) t fun ns u => Stage b 32 l x (stack ns w) u ∧ rest.Ends u)
    (hstop : s.kind = .eof ∨ ends s = true → rest.Ends s)
    (h : Stage b k l x w s) :
    Sat b (statementList (Parser.read ends) statement rest) s fun ns t =>
      Stage b k l x (stack ns w) t ∧ rest.Ends t := by
  refine .atEnd (.read (.ite (fun hc => ?_) fun hc => ?_) hends)
  · simp only [Bool.or_eq_true, decide_eq_true_eq] at hc
    exact .pure ⟨h, hstop hc⟩
  · simp only [Bool.or_eq_true, decide_eq_true_eq, not_or, Bool.not_eq_true] at hc
    obtain ⟨hne, hgo⟩ := hc
    refine .read (.bind (hstatement h.here hne hgo) fun n t h₁ => ?_) rfl
    refine .bind (forceProgress_sat h hne h₁) fun _ u h₂ => ?_
    refine .bind (hrest h₂) fun ns v ⟨h₃, hv⟩ => .pure ⟨h₃.spend h.limit, hv⟩

/-- A token that nothing can be made of is skipped, unless it closes something. -/
theorem skip_sat {n : Node} (h : Stage b k l x (.node n :: w) s) :
    Sat b (Parser.kind >>= fun j =>
      if (!TokenSet.closers.contains j) = true then Parser.advance >>= fun _ => pure n
      else pure n) s fun n t => Stage b k l x (.node n :: w) t := by
  refine .kind (.possibly (fun hc => ?_) (fun _ => h) fun t h₁ => .pure h₁)
  have hne : s.kind ≠ .eof := by
    intro he
    rw [he] at hc
    exact absurd hc (by decide)
  exact (Sat.advance h hne).mono fun _ _ ⟨_, h₁⟩ => h₁.spend h.limit

theorem block_sat (h : Stage b k l x w s) :
    Sat b block s fun n t => Stage b k (max l s.offset) x (.node n :: w) t := by
  refine .isAt (fun hk => ?_) fun _ => .missing _ h
  refine .begin h (hk ▸ by decide) fun o t ho h₁ => ?_
  refine .bind (.statements h₁ (by omega)) fun ns u h₂ => ?_
  exact .bind (.require h₂ (by decide)) fun _ v h₃ => .finish h₃ (.inr ho) rfl

theorem shortBlock_sat {close : TokenKind} (hc : close.IsSolid) (h : Stage b k l x w s)
    (hk : 6 < k) :
    Sat b (shortBlock close) s fun n t => Stage b k l x (.node n :: w) t := by
  have h₁ := h.openNode
  refine .openNode (.bind (.require h₁ (by decide)) fun _ t h₂ => ?_)
  refine .bind (.statements h₂ hk) fun ns u h₃ => ?_
  refine .bind (.require h₃ hc) fun _ v h₄ => ?_
  exact .bind (.endStatement h₄) fun _ y h₅ => .finish h₅ (.inl rfl) rfl

theorem condition_sat (h : Stage b k l x w s) (hk : 3 < k) :
    Sat b condition s fun n t => Stage b k l x (.node n :: w) t := by
  refine .bind (.require h (by decide)) fun _ t h₁ => ?_
  refine .bind (.forget (.expression h₁ hk)) fun n u h₂ => ?_
  exact .bind (.require h₂ (by decide)) fun _ v h₃ => .pure h₃

end PhpSyntax.Grammar
