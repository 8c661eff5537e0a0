import PhpSyntax.Grammar.Name
import PhpSyntax.Proofs.Trace.Action

namespace PhpSyntax.Grammar

variable {b k l : Nat} {x : Bench × ParseState} {w : Bench} {s : ParseState}

theorem identifierHere_sat (h : Stage b k l x w s) (hk : s.kind.IsSolid) :
    Sat b identifierHere s fun n t => Stage b k (max l s.offset) x (.node n :: w) t := by
  refine .openNode (.text fun word => ?_)
  exact .consume h.openNode hk fun t _ h₁ => .finish h₁ (.inr (Nat.le_max_right _ _)) rfl

theorem identifier_sat (h : Stage b k l x w s) :
    Sat b identifier s fun n t => Stage b k (max l s.offset) x (.node n :: w) t := by
  refine .isAt (fun hk => ?_) fun _ => ?_
  · exact identifierHere_sat h (hk ▸ by decide)
  · exact .missing _ h

theorem memberName_sat (h : Stage b k l x w s) :
    Sat b memberName s fun n t => Stage b k (max l s.offset) x (.node n :: w) t := by
  refine .sees (.read (.ite (fun hk => ?_) fun _ => ?_) rfl)
  · have hsolid : s.kind.IsSolid := by
      rcases Bool.or_eq_true_iff.mp hk with hk | hk
      · rw [of_decide_eq_true hk]
        decide
      · exact TokenSet.isSolid hk (by decide) (by decide)
    exact identifierHere_sat h hsolid
  · exact .missing _ h

theorem variableName_sat (h : Stage b k l x w s) :
    Sat b variableName s fun n t => Stage b k (max l s.offset) x (.node n :: w) t := by
  refine .isAt (fun hk => ?_) fun _ => ?_
  · refine .openNode (.text fun word => ?_)
    exact .consume h.openNode (hk ▸ by decide) fun t _ h₁ =>
      .finish h₁ (.inr (Nat.le_max_right _ _)) rfl
  · exact .missing _ h

theorem segments_sat (h : Stage b k l x w s) :
    Sat b segments s fun _ t => Stage b k l x w t := by
  refine .sees (.peek (.ite (fun hk => ?_) fun _ => .pure h))
  obtain ⟨hsep, hpeek⟩ := Bool.and_eq_true_iff.mp hk
  have hsolid : s.kind.IsSolid := by
    rw [of_decide_eq_true hsep]
    decide
  refine .forget (.consume h hsolid fun t ht h₁ => .text fun word => ?_)
  have hnext : t.kind = .identifier := by
    rw [ht]
    exact (Stream.advance_kind _).trans (of_decide_eq_true hpeek)
  refine .forget (.consume h₁ (hnext ▸ by decide) fun u _ h₂ => ?_)
  exact .bind (.call .segments h₂ (by decide) trivial) fun _ _ ⟨h₃, _⟩ => .pure h₃

theorem nameFrom_sat {o : Opened} {lead : String} {r : NameResolution}
    (h : Stage b k l x (.opened o :: w) s) :
    Sat b (nameFrom o lead r) s fun n t => Stage b k (max l s.offset) x (.node n :: w) t := by
  have ho := h.starts _ List.mem_cons_self
  refine .isAt (fun hk => .text fun word => ?_) fun _ => ?_
  · refine .consume h (hk ▸ by decide) fun t _ h₁ => ?_
    refine .bind (.call .segments h₁ (by decide) trivial) fun rest u ⟨h₂, _⟩ => ?_
    exact .finish h₂ (.inr (Nat.le_trans ho (Nat.le_max_right _ _))) rfl
  · exact .bind (.missing _ h) fun n t h₁ => .abandon h₁

theorem name_sat (h : Stage b k l x w s) :
    Sat b name s fun n t => Stage b k (max l s.offset) x (.node n :: w) t := by
  have h₁ := h.openNode
  refine .openNode (.isAt (fun hk => ?_) fun _ => ?_)
  · refine .consume h₁ (hk ▸ by decide) fun t _ h₂ => ?_
    exact .bind (.require h₂ (by decide)) fun _ u h₃ => (nameFrom_sat h₃).forget
  · refine .ifEatSolid h₁ (by decide) (fun _ t h₂ => ?_) fun _ => nameFrom_sat h₁
    exact (nameFrom_sat (h₂.spend h.limit)).forget

end PhpSyntax.Grammar
