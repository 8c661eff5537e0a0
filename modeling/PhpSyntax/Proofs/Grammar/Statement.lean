import PhpSyntax.Grammar.Statement
import PhpSyntax.Proofs.Grammar.Branch
import PhpSyntax.Proofs.Grammar.ClassLike
import PhpSyntax.Proofs.Grammar.Loop

namespace PhpSyntax.Grammar

variable {b k l : Nat} {x : Bench × ParseState} {w : Bench} {s : ParseState}

theorem expressionStatement_sat (h : Stage b k l x w s) (hk : 3 < k) :
    Sat b expressionStatement s fun n t => Stage b k l x (.node n :: w) t := by
  refine .openNode (.bind (.expression h.openNode hk) fun n t h₁ => ?_)
  refine .bind (.endStatement h₁) fun _ u h₂ => ?_
  exact .forget (.finish h₂ (.inr (Nat.le_max_right _ _)) rfl)

theorem withOptionalExpression_sat {p : Option Node → Production Node}
    (hp : ∀ n w, (p n).lay w = layOption n w) (he : ∀ n, (p n).isProper = true)
    (h : Stage b k l x w s) (hk : s.kind.IsSolid) :
    Sat b (withOptionalExpression p) s fun n t =>
      Stage b k (max l s.offset) x (.node n :: w) t := by
  refine .begin h hk fun o t ho h₁ => .read ?_ rfl
  refine .bind (.optionally h₁ fun _ => .forget (.expression h₁ (by omega))) fun n u h₂ => ?_
  refine .bind (.endStatement h₂) fun _ v h₃ => ?_
  rw [← hp] at h₃
  exact .finish h₃ (.inr ho) (he n)

theorem withItems_sat {item : Rule .node} {p : List Node → Production Node}
    (hitem : item.isPlain = true) (hrank : item.rank < 32)
    (hp : ∀ ns w, (p ns).lay w = stack ns w) (he : ∀ ns, (p ns).isProper = true)
    (h : Stage b k l x w s) (hk : s.kind.IsSolid) :
    Sat b (withItems item p) s fun n t => Stage b k (max l s.offset) x (.node n :: w) t := by
  refine .begin h hk fun o t ho h₁ => ?_
  refine .bind (.forget (separated_sat ⟨by decide, hitem⟩ h₁ hrank)) fun ns u h₂ => ?_
  refine .bind (.endStatement h₂) fun _ v h₃ => ?_
  rw [← hp] at h₃
  exact .finish h₃ (.inr ho) (he ns)

theorem staticVariable_sat (h : Stage b k l x w s) (hk : 0 < k) :
    Sat b staticVariable s fun n t => Stage b k (max l s.offset) x (.node n :: w) t := by
  refine .openNode (.bind (.callPlain rfl h.openNode hk) fun target t h₁ => ?_)
  refine .bind (initialValue_sat h₁) fun default u h₂ => ?_
  exact .finish h₂ (.inr (Nat.le_max_right _ _)) rfl

theorem echoStatement_sat (h : Stage b k l x w s) (hk : s.kind.IsSolid) :
    Sat b echoStatement s fun n t => Stage b k (max l s.offset) x (.node n :: w) t :=
  .text fun _ => withItems_sat rfl (by decide) (fun _ _ => rfl) (fun _ => rfl) h hk

theorem inlineHtml_sat (h : Stage b k l x w s) (hk : s.kind.IsSolid) :
    Sat b inlineHtml s fun n t => Stage b k (max l s.offset) x (.node n :: w) t := by
  refine .openNode (.text fun raw => .consume h.openNode hk fun t _ h₁ => ?_)
  exact .finish h₁ (.inr (Nat.le_max_right _ _)) rfl

theorem unsetStatement_sat (h : Stage b k l x w s) (hk : s.kind.IsSolid) :
    Sat b unsetStatement s fun n t => Stage b k (max l s.offset) x (.node n :: w) t := by
  refine .begin h hk fun o t ho h₁ => ?_
  have hrest {vs : List Node} {u : ParseState}
      (h₂ : Stage b 32 (max l s.offset) x (stack vs (.opened o :: w)) u) :
      Sat b (Parser.endStatement >>= fun _ => Parser.finish o (.unset vs)) u
        fun n v => Stage b 32 (max l s.offset) x (.node n :: w) v :=
    .bind (.endStatement h₂) fun _ v h₃ => .finish h₃ (.inr ho) rfl
  refine .ifExpect h₁ (by decide) (fun u h₂ => ?_) fun u h₂ => hrest h₂
  exact .bind (delimited_sat ⟨by decide, rfl⟩ h₂ (show 1 < 32 by omega))
    fun vs v h₃ => hrest h₃

theorem throwStatement_sat (h : Stage b k l x w s) (hk : s.kind.IsSolid) :
    Sat b throwStatement s fun n t => Stage b k (max l s.offset) x (.node n :: w) t := by
  refine .begin h hk fun o t ho h₁ => ?_
  refine .bind (.forget (.expression h₁ (by omega))) fun n u h₂ => ?_
  exact .bind (.endStatement h₂) fun _ v h₃ => .finish h₃ (.inr ho) rfl

theorem gotoStatement_sat (h : Stage b k l x w s) (hk : s.kind.IsSolid) :
    Sat b gotoStatement s fun n t => Stage b k (max l s.offset) x (.node n :: w) t := by
  refine .begin h hk fun o t ho h₁ => ?_
  refine .bind (.forget (identifier_sat h₁)) fun n u h₂ => ?_
  exact .bind (.endStatement h₂) fun _ v h₃ => .finish h₃ (.inr ho) rfl

theorem label_sat (h : Stage b k l x w s) :
    Sat b label s fun n t => Stage b k l x (.node n :: w) t := by
  refine .openNode (.bind (identifier_sat h.openNode) fun n t h₁ => ?_)
  refine .bind (.require h₁ (by decide)) fun _ u h₂ => ?_
  exact .forget (.finish h₂ (.inr (Nat.le_max_right _ _)) rfl)

/-- A statement that is nothing but a closing tag does not move the boundary. -/
theorem emptyStatement_sat (h : Stage b k l x w s) (hk : s.kind ≠ .eof) :
    Sat b emptyStatement s fun n t => Stage b k l x (.node n :: w) t := by
  refine .openNode (.bind (.advance h.openNode hk) fun _ t ⟨_, h₁⟩ => ?_)
  exact (Sat.finish h₁ (.inl rfl) rfl).spend h.limit

end PhpSyntax.Grammar
