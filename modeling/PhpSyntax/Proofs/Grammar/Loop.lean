import PhpSyntax.Grammar.Loop
import PhpSyntax.Proofs.Grammar.Literal
import PhpSyntax.Proofs.Grammar.Sequence

namespace PhpSyntax

/-- Anchors leave the ends of a span where they are. -/
theorem Span.setAnchors_ends (anchors : List (Anchor × Option Position)) (s : Span) :
    (s.setAnchors anchors).start = s.start ∧ (s.setAnchors anchors).stop = s.stop := by
  have one (s : Span) (a : Anchor) (p : Position) :
      (s.setAnchor a p).start = s.start ∧ (s.setAnchor a p).stop = s.stop := by
    unfold setAnchor
    split <;> exact ⟨rfl, rfl⟩
  induction anchors generalizing s with
  | nil => exact ⟨rfl, rfl⟩
  | cons e anchors ih =>
    obtain ⟨a, p⟩ := e
    cases p with
    | none => exact ih s
    | some p =>
      have hone := one s a p
      have hrest := ih (s.setAnchor a p)
      exact ⟨hrest.1.trans hone.1, hrest.2.trans hone.2⟩

namespace Grammar

variable {b k l : Nat} {x : Bench × ParseState} {w : Bench} {s : ParseState}

theorem withAnchors_resembles {n : Node} (h : n.isError = false)
    (anchors : List (Anchor × Option Position)) : (withAnchors n anchors).Resembles n := by
  obtain ⟨hstart, hstop⟩ := Span.setAnchors_ends anchors n.span
  have houtline : (withAnchors n anchors).outline = n.outline := by
    have hcomplaint : (withAnchors n anchors).complaint? = n.complaint? := by
      rw [Node.complaint?_of_isError h]
      exact Node.complaint?_of_isError h
    simp only [withAnchors, Node.outline, Node.isError, Node.operator?, hstart, hstop]
    exact congrArg _ hcomplaint
  have hchildren : (withAnchors n anchors).children = n.children := rfl
  rw [Node.Resembles, Node.walk_eq, Node.walk_eq, hchildren, List.map_cons, List.map_cons,
    Node.signature, Node.signature, houtline, hchildren]

theorem anchored_sat {j : TokenKind} {width : Nat} (h : Stage b k l x w s) (hj : j ≠ .eof) :
    Sat b (anchored j width) s fun _ t => Stage b k l x w t := by
  refine .bind (.expectAny h hj) fun c t h₁ => .ite (fun _ => ?_) fun _ => .pure h₁
  exact .read (.pure h₁) rfl

theorem loopBody_sat {close : TokenKind} (hc : close.IsSolid) (h : Stage b k l x w s)
    (hk : 6 < k) :
    Sat b (loopBody close) s fun v t => Stage b k l x (.node v.1 :: w) t := by
  refine .isAt (fun _ => ?_) fun _ => ?_
  · exact .bind (shortBlock_sat hc h hk) fun n t h₁ => .pure h₁
  · exact .bind (.statement h (Nat.lt_trans (by decide) hk)) fun n t h₁ => .pure h₁

theorem whileStatement_sat (h : Stage b k l x w s) (hk : s.kind.IsSolid) :
    Sat b whileStatement s fun n t => Stage b k (max l s.offset) x (.node n :: w) t := by
  refine .begin h hk fun o t ho h₁ => ?_
  refine .bind (condition_sat h₁ (by omega)) fun test u h₂ => ?_
  exact .bind (loopBody_sat (by decide) h₂ (by decide)) fun ⟨body, shortform⟩ v h₃ =>
    .finish h₃ (.inr ho) rfl

theorem doStatement_sat (h : Stage b k l x w s) (hk : s.kind.IsSolid) :
    Sat b doStatement s fun n t => Stage b k (max l s.offset) x (.node n :: w) t := by
  refine .begin h hk fun o t ho h₁ => ?_
  refine .bind (.statement h₁ (by decide)) fun body u h₂ => ?_
  refine .ifEat h₂ (by decide) (fun v h₃ => ?_) ?_
  · refine .bind (condition_sat h₃ (by omega)) fun test y h₄ => ?_
    exact .bind (.endStatement h₄) fun _ z h₅ => .finish h₅ (.inr ho) rfl
  · exact .bind (.missing _ h₂) fun test v h₃ => .finish h₃ (.inr ho) rfl

theorem forPart_sat {close : TokenKind} (hc : close ≠ .eof) (h : Stage b k l x w s)
    (hk : 3 < k) :
    Sat b (forPart close) s fun v t => Stage b k l x (stack v.1 w) t := by
  have hrest {exprs : List Node} {t : ParseState} (h₁ : Stage b k l x (stack exprs w) t) :
      Sat b (anchored close 1 >>= fun anchor => pure (exprs, anchor)) t
        fun v u => Stage b k l x (stack v.1 w) u :=
    .bind (anchored_sat h₁ hc) fun _ u h₂ => .pure h₂
  refine .isAt (fun _ => hrest h) fun _ => ?_
  exact .bind (.forget (separated_sat ⟨by decide, rfl⟩ h hk)) fun exprs t h₁ => hrest h₁

theorem forStatement_sat (h : Stage b k l x w s) (hk : s.kind.IsSolid) :
    Sat b forStatement s fun n t => Stage b k (max l s.offset) x (.node n :: w) t := by
  refine .begin h hk fun o t ho h₁ => ?_
  refine .bind (anchored_sat h₁ (by decide)) fun leftParen t₁ h₂ => ?_
  refine .bind (forPart_sat (by decide) h₂ (by decide)) fun ⟨init, first⟩ t₂ h₃ => ?_
  refine .bind (forPart_sat (by decide) h₃ (by decide)) fun ⟨test, second⟩ t₃ h₄ => ?_
  refine .bind (forPart_sat (by decide) h₄ (by decide)) fun ⟨increment, rightParen⟩ t₄ h₅ => ?_
  refine .bind (loopBody_sat (by decide) h₅ (by decide)) fun ⟨body, shortform⟩ t₅ h₆ => ?_
  refine .bind (.finishAs h₆ (.inr ho) rfl) fun n t₆ ⟨hn, h₇⟩ => ?_
  have herror : n.isError = false := by
    rw [Node.isError, hn]
  exact .pure (h₇.relabel (withAnchors_resembles herror _))

theorem loopVariable_sat (h : Stage b k l x w s) (hk : 1 < k) :
    Sat b loopVariable s fun n t => Stage b k l x (.node n :: w) t := by
  refine .kind ?_
  split
  case h_1 hkind | h_2 hkind => exact .forget (listPattern_sat h (hkind ▸ by decide))
  case h_3 => exact .forget (.callPlain rfl h hk)

theorem loopVariables_sat (h : Stage b k l x w s) (hk : 1 < k) :
    Sat b loopVariables s fun vs t => Stage b k l x (.node vs.value :: layOption vs.key w) t := by
  refine .ifEat h (by decide) (fun t h₁ => ?_) ?_
  · refine .read (.bind (loopVariable_sat (h₁.spend h.limit) hk) fun first u h₂ => ?_) rfl
    refine .ifEat h₂ (by decide) (fun v h₃ => .read ?_ rfl) (.pure h₂)
    exact .bind (loopVariable_sat (h₃.spend h₂.limit) hk) fun value y h₄ => .pure h₄
  · exact .bind (.missing l h) fun n t h₁ => .pure h₁

theorem foreachStatement_sat (h : Stage b k l x w s) (hk : s.kind.IsSolid) :
    Sat b foreachStatement s fun n t => Stage b k (max l s.offset) x (.node n :: w) t := by
  refine .begin h hk fun o t ho h₁ => ?_
  refine .bind (anchored_sat h₁ (by decide)) fun leftParen t₁ h₂ => ?_
  refine .bind (.forget (.expression h₂ (by omega))) fun source t₂ h₃ => ?_
  refine .bind (loopVariables_sat h₃ (by decide)) fun vs t₃ h₄ => ?_
  refine .ite (fun _ => .fatal) fun _ => ?_
  refine .bind (anchored_sat h₄ (by decide)) fun rightParen t₄ h₅ => ?_
  refine .bind (loopBody_sat (by decide) h₅ (by decide)) fun ⟨body, shortform⟩ t₅ h₆ => ?_
  refine .bind (.finishAs h₆ (.inr ho) rfl) fun n t₆ ⟨hn, h₇⟩ => ?_
  have herror : n.isError = false := by
    rw [Node.isError, hn]
  exact .pure (h₇.relabel (withAnchors_resembles herror _))

end Grammar
end PhpSyntax
