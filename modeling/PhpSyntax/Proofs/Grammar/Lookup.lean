import PhpSyntax.Grammar.Lookup
import PhpSyntax.Proofs.Grammar.Name

namespace PhpSyntax.Grammar

variable {b k l : Nat} {x : Bench × ParseState} {w : Bench} {s : ParseState}

/-- A name and the literal that it may be have the same outline. -/
theorem resembles_of_leaf {m n : Node} (hinfo : m.toNodeInfo = n.toNodeInfo)
    (hm : m.children = []) (hn : n.children = []) (hm' : m.isError = false)
    (hn' : n.isError = false)
    (hhollow : m.production.isHollow = n.production.isHollow)
    (htest : m.production.testsLast = n.production.testsLast)
    (hop : m.operator? = n.operator?) : m.Resembles n := by
  have houtline : m.outline = n.outline := by
    simp only [Node.outline, hinfo, hm', hn', hhollow, htest, hop, Node.complaint?_of_isError hm',
      Node.complaint?_of_isError hn']
  rw [Node.Resembles, Node.walk_eq, Node.walk_eq, hm, hn]
  simp only [List.flatMap_nil, List.map_cons, List.map_nil, Node.signature, houtline, hm, hn]

theorem literalConstant_resembles (n : Node) : (literalConstant n).Resembles n := by
  unfold literalConstant
  split
  case h_1 word hp =>
    have hn : n.children = [] := by
      rw [Node.children, hp]
      rfl
    have herror : n.isError = false := by
      rw [Node.isError, hp]
    have hhollow : n.production.isHollow = false := by
      rw [hp]
      rfl
    have htest : n.production.testsLast = false := by
      rw [hp]
      rfl
    have hop : n.operator? = none := by
      rw [Node.operator?, hp]
      rfl
    split
    · exact resembles_of_leaf rfl rfl hn rfl herror hhollow.symm htest.symm hop.symm
    · exact resembles_of_leaf rfl rfl hn rfl herror hhollow.symm htest.symm hop.symm
    · exact resembles_of_leaf rfl rfl hn rfl herror hhollow.symm htest.symm hop.symm
    · exact .refl n
  case h_2 => exact .refl n

theorem simpleVariable_sat (h : Stage b k l x w s) :
    Sat b simpleVariable s fun n t => Stage b k (max l s.offset) x (.node n :: w) t := by
  have h₁ := h.openNode
  refine .openNode (.kind ?_)
  split
  case h_1 hk =>
    refine .text fun word => .consume h₁ (hk ▸ by decide) fun t _ h₂ => ?_
    exact .finish h₂ (.inr (Nat.le_max_right _ _)) rfl
  case h_2 hk =>
    refine .consume h₁ (hk ▸ by decide) fun t _ h₂ => ?_
    refine .ifEat h₂ (by decide) (fun u h₃ => ?_) ?_
    · refine .bind (.forget (.expression h₃ (by omega))) fun n v h₄ => ?_
      refine .bind (.require h₄ (by decide)) fun _ y h₅ => ?_
      exact .finish h₅ (.inr (Nat.le_max_right _ _)) rfl
    · refine .bind (.forget (.callPlain rfl h₂ (by decide))) fun n v h₃ => ?_
      exact .finish h₃ (.inr (Nat.le_max_right _ _)) rfl
  case h_3 => exact .bind (.missing _ h₁) fun n t h₂ => .abandon h₂

theorem variableWithLookups_sat {readOnly : Bool} (h : Stage b k l x w s) (hk : 0 < k) :
    Sat b (variableWithLookups readOnly) s fun n t =>
      Stage b k (max l s.offset) x (.node n :: w) t := by
  refine .kind ?_
  split
  case h_1 hkind =>
    refine .begin h (hkind ▸ by decide) fun o t ho h₁ => ?_
    refine .bind (.forget (.callPlain rfl h₁ (show 1 < 32 by omega))) fun n u h₂ => ?_
    exact .finish h₂ (.inr ho) rfl
  case h_2 | h_3 =>
    exact .bind (.callPlain rfl h hk) fun n t h₁ => .lookups h₁ hk
  case h_4 hkind =>
    refine .begin h (hkind ▸ by decide) fun o t ho h₁ => ?_
    exact .bind (.finish h₁ (.inr ho) rfl) fun n u h₂ => .lookups h₂ (by decide)
  case h_5 | h_6 | h_7 =>
    refine .bind (.callPlain rfl h hk) fun n t h₁ => .kind ?_
    split
    · exact .lookups h₁ hk
    · have h₂ := h₁.relabel (literalConstant_resembles n)
      exact .lookups h₂ hk
  case h_8 => exact .missing _ h

theorem arguments_sat (h : Stage b k l x w s) :
    Sat b arguments s fun ns t => Stage b k l x (stack ns w) t := by
  refine .ifExpect h (by decide) (fun t h₁ => .spend ?_ h.limit) fun t h₁ => .pure h₁
  exact .delimited ⟨by decide, rfl⟩ h₁ (by decide)

/-- Arguments whose parenthesis is there, behind what they are the arguments of. -/
theorem argumentsHere_sat {base : Node} (h : Stage b k l x (.node base :: w) s)
    (hk : s.kind = .lParen) :
    Sat b arguments (s.openAt base.span.start).2 fun ns t =>
      Stage b 32 (max l s.offset) x
        (stack ns (.node base :: .opened (.startingAt base.span.start) :: w)) t := by
  have hsolid : s.kind.IsSolid := hk ▸ by decide
  have heat : Sat b (Parser.eat .lParen) (s.openAt base.span.start).2 fun c t => c = true ∧
      Stage b 32 (max l s.offset) x
        (.node base :: .opened (.startingAt base.span.start) :: w) t := by
    refine .isAt (fun _ => ?_) fun hne => absurd hk hne
    exact .bind (.extendFrom rfl hsolid h) fun _ t h₁ => .pure ⟨rfl, h₁⟩
  have hexpect : Sat b (Parser.expect .lParen) (s.openAt base.span.start).2 fun c t => c = true ∧
      Stage b 32 (max l s.offset) x
        (.node base :: .opened (.startingAt base.span.start) :: w) t := by
    refine .bind heat fun c t ⟨hc, h₁⟩ => ?_
    exact .ite (fun _ => .pure ⟨rfl, h₁⟩) fun hno => absurd hc hno
  refine .bind hexpect fun c t ⟨hc, h₁⟩ => .ite (fun _ => ?_) fun hno => absurd hc hno
  exact .delimited ⟨by decide, rfl⟩ h₁ (by decide)

theorem argumentsIfAny_sat (h : Stage b k l x w s) :
    Sat b argumentsIfAny s fun ns t => Stage b k l x (stack ns w) t := by
  refine .isAt (fun _ => ?_) fun _ => .pure h
  exact arguments_sat h

theorem argument_sat (h : Stage b k l x w s) (hk : 3 < k) :
    Sat b argument s fun n t => Stage b k (max l s.offset) x (.node n :: w) t := by
  refine .isAt (fun hkind => ?_) fun _ => .expression h hk
  refine .begin h (hkind ▸ by decide) fun o t ho h₁ => ?_
  refine .bind (.forget (.expression h₁ (by omega))) fun n u h₂ => ?_
  exact .finish h₂ (.inr ho) rfl

theorem memberOf_sat (h : Stage b k l x w s) (hk : 0 < k) :
    Sat b memberOf s fun n t => Stage b k l x (.node n :: w) t := by
  refine .kind ?_
  split
  case h_1 | h_2 => exact .forget (.callPlain rfl h hk)
  case h_3 => exact .forget (memberName_sat h)

/-- A lookup has consumed something; without one the base stays. -/
theorem lookup?_sat {base : Node} {readOnly : Bool} (h : Stage b k l x (.node base :: w) s) :
    Sat b (lookup? base readOnly) s fun n t =>
      match n with
      | none => Stage b k l x (.node base :: w) t
      | some n => Stage b 32 l x (.node n :: w) t := by
  have hbase : base.span.start.offset ≤ s.offset := h.starts _ List.mem_cons_self
  have hguard : base.span.start.offset ≤ max l s.offset :=
    Nat.le_trans hbase (Nat.le_max_right _ _)
  have hle : l ≤ max l s.offset := Nat.le_max_left _ _
  refine .kind ?_
  split
  case h_1 hk =>
    refine .ite (fun _ => .pure h) fun _ => .openAt ?_
    refine .bind (argumentsHere_sat h hk) fun args t h₁ => ?_
    exact .map (.finish h₁ (.inr hguard) rfl) fun _ _ h₂ => h₂.lower hle
  case h_2 hk =>
    refine .extend h (hk ▸ by decide) fun o t ho h₁ => .sees ?_
    refine .bind (.optionally h₁ fun _ => .forget (.expression h₁ (by omega))) fun n u h₂ => ?_
    refine .bind (.require h₂ (by decide)) fun _ v h₃ => ?_
    exact .map (.finish h₃ (.inr ho) rfl) fun _ _ h₄ => h₄.lower hle
  case h_3 hk =>
    refine .ite (fun _ => ?_) fun _ => .pure h
    refine .extend h (hk ▸ by decide) fun o t ho h₁ => ?_
    refine .bind (.forget (.expression h₁ (by omega))) fun n u h₂ => ?_
    refine .bind (.require h₂ (by decide)) fun _ v h₃ => ?_
    exact .map (.finish h₃ (.inr ho) rfl) fun _ _ h₄ => h₄.lower hle
  case h_4 hk =>
    refine .extend h (hk ▸ by decide) fun o t ho h₁ => ?_
    refine .bind (memberOf_sat h₁ (by decide)) fun n u h₂ => ?_
    exact .map (.finish h₂ (.inr ho) rfl) fun _ _ h₃ => h₃.lower hle
  case h_5 hk =>
    refine .extend h (hk ▸ by decide) fun o t ho h₁ => ?_
    refine .ifEat h₁ (by decide) (fun u h₂ => ?_) ?_
    · refine .bind (.forget (.expression h₂ (by omega))) fun n v h₃ => ?_
      refine .bind (.require h₃ (by decide)) fun _ y h₄ => ?_
      exact .map (.finish h₄ (.inr ho) rfl) fun _ _ h₅ => h₅.lower hle
    · refine .bind (memberOf_sat h₁ (by decide)) fun n u h₂ => ?_
      exact .map (.finish h₂ (.inr ho) rfl) fun _ _ h₃ => h₃.lower hle
  case h_6 => exact .pure h

theorem lookups_sat {base : Node} {readOnly : Bool} (h : Stage b k l x (.node base :: w) s) :
    Sat b (lookups base readOnly) s fun n t => Stage b k l x (.node n :: w) t := by
  refine .bind (lookup?_sat h) fun n t h₁ => ?_
  cases n with
  | none => exact .pure h₁
  | some n => exact (Sat.lookups h₁ (by decide)).spend h.limit

end PhpSyntax.Grammar
