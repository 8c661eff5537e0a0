import PhpSyntax.Grammar.Callable
import PhpSyntax.Proofs.Grammar.Name
import PhpSyntax.Proofs.Grammar.Sequence

namespace PhpSyntax.Grammar

variable {b k l : Nat} {x : Bench × ParseState} {w : Bench} {s : ParseState}

theorem typeName_sat (h : Stage b k l x w s) (hk : 0 < k) :
    Sat b typeName s fun n t => Stage b k (max l s.offset) x (.node n :: w) t := by
  refine .kind ?_
  split
  case h_1 hkind | h_2 hkind =>
    refine .openNode (.text fun word => ?_)
    refine .consume h.openNode (hkind ▸ by decide) fun t _ h₁ => ?_
    exact .finish h₁ (.inr (Nat.le_max_right _ _)) rfl
  case h_3 => exact .callPlain rfl h hk

theorem returnType_sat (h : Stage b k l x w s) :
    Sat b returnType s fun v t => Stage b k l x (layOption v.1 w) t := by
  refine .isAt (fun hkind => ?_) fun _ => .pure h
  refine .bind (.requireOption rfl h) fun _ t ⟨ht, h₁⟩ => ?_
  refine .bind (.forget (.advanceFrom ht (hkind ▸ by decide) h₁)) fun _ u h₂ => ?_
  refine .bind (.eatAny h₂ (by decide)) fun nullable v h₃ => ?_
  refine .bind (.forget (typeName_sat h₃ (by decide))) fun type y h₄ => ?_
  exact .pure (h₄.spend h.limit)

theorem initialValue_sat (h : Stage b k l x w s) :
    Sat b initialValue s fun n t => Stage b k l x (layOption n w) t :=
  .after h (by decide) fun t h₁ => .forget (.expression h₁ (by omega))

theorem parameter_sat (h : Stage b k l x w s) (hk : 0 < k) :
    Sat b parameter s fun n t => Stage b k (max l s.offset) x (.node n :: w) t := by
  have h₁ := h.openNode
  refine .openNode (.bind (.eatAny h₁ (by decide)) fun nullable t h₂ => .kind ?_)
  refine .bind (.optionally h₂ fun _ => .forget (typeName_sat h₂ hk)) fun typeHint u h₃ => ?_
  refine .bind (.eatAny h₃ (by decide)) fun byRef v h₄ => ?_
  refine .bind (.eatAny h₄ (by decide)) fun variadic y h₅ => ?_
  refine .bind (variableName_sat h₅) fun name z h₆ => ?_
  refine .bind (initialValue_sat h₆) fun default z' h₇ => ?_
  have ho : s.offset ≤ y.offset := h₅.starts _ (mem_layOption _ List.mem_cons_self)
  have hle : max l s.offset ≤ max l y.offset := by omega
  exact .finish (h₇.lower hle) (.inr (Nat.le_max_right _ _)) rfl

theorem parameters_sat (h : Stage b k l x w s) :
    Sat b parameters s fun ns t => Stage b k l x (stack ns w) t := by
  refine .ifExpect h (by decide) (fun t h₁ => .spend ?_ h.limit) fun t h₁ => .pure h₁
  exact delimited_sat ⟨by decide, rfl⟩ h₁ (by decide)

theorem functionDeclaration_sat (h : Stage b k l x w s) (hk : s.kind.IsSolid) :
    Sat b functionDeclaration s fun n t => Stage b k (max l s.offset) x (.node n :: w) t := by
  refine .begin h hk fun o t ho h₁ => ?_
  refine .bind (.eatAny h₁ (by decide)) fun byRef u h₂ => ?_
  refine .bind (.forget (identifier_sat h₂)) fun name v h₃ => ?_
  refine .bind (parameters_sat h₃) fun arguments y h₄ => ?_
  refine .bind (returnType_sat h₄) fun ⟨type, nullable⟩ z h₅ => ?_
  exact .bind (.forget (block_sat h₅)) fun body z' h₆ => .finish h₆ (.inr ho) rfl

theorem method_sat {o : Opened} {m : Modifiers} (h : Stage b k l x (.opened o :: w) s)
    (hk : s.kind.IsSolid) :
    Sat b (method o m) s fun n t => Stage b k (max l s.offset) x (.node n :: w) t := by
  refine .consume h hk fun t _ h₁ => ?_
  refine .bind (.eatAny h₁ (by decide)) fun byRef u h₂ => .read (.join
    (fun _ => .forget (memberName_sat h₂)) (fun _ => .forget (identifier_sat h₂))
    fun name v h₃ => ?_) rfl
  refine .bind (parameters_sat h₃) fun arguments y h₄ => ?_
  refine .bind (returnType_sat h₄) fun ⟨type, nullable⟩ z h₅ => ?_
  refine .isAt (fun _ => ?_) fun _ => ?_
  · exact .bind (.endStatement h₅) fun _ z' h₆ => .finish h₆ (.inr h.head_le) rfl
  · exact .bind (.forget (block_sat h₅)) fun body z' h₆ => .finish h₆ (.inr h.head_le) rfl

theorem lexicalVariable_sat (h : Stage b k l x w s) (hk : 0 < k) :
    Sat b lexicalVariable s fun n t => Stage b k (max l s.offset) x (.node n :: w) t := by
  refine .isAt (fun hkind => ?_) fun _ => .callPlain rfl h hk
  refine .begin h (hkind ▸ by decide) fun o t ho h₁ => ?_
  refine .bind (.forget (.callPlain rfl h₁ (by decide))) fun n u h₂ => ?_
  exact .finish h₂ (.inr ho) rfl

theorem lexicalVariables_sat (h : Stage b k l x w s) :
    Sat b lexicalVariables s fun ns t => Stage b k l x (stack ns w) t := by
  refine .ifEat h (by decide) (fun t h₁ => .spend ?_ h.limit) (.pure h)
  refine .ifExpect h₁ (by decide) (fun u h₂ => ?_) fun u h₂ => .pure h₂
  exact delimited_sat ⟨by decide, rfl⟩ h₂ (by decide)

theorem closure_sat {o : Opened} {isStatic : Bool} (h : Stage b k l x (.opened o :: w) s)
    (hk : s.kind.IsSolid) :
    Sat b (closure o isStatic) s fun n t => Stage b k (max l s.offset) x (.node n :: w) t := by
  refine .consume h hk fun t _ h₁ => ?_
  refine .bind (.eatAny h₁ (by decide)) fun byRef u h₂ => ?_
  refine .bind (parameters_sat h₂) fun arguments v h₃ => ?_
  refine .bind (lexicalVariables_sat h₃) fun uses y h₄ => ?_
  refine .bind (returnType_sat h₄) fun ⟨type, nullable⟩ z h₅ => ?_
  exact .bind (.forget (block_sat h₅)) fun body z' h₆ => .finish h₆ (.inr h.head_le) rfl

theorem arrowFunction_sat {o : Opened} {isStatic : Bool} (h : Stage b k l x (.opened o :: w) s)
    (hk : s.kind.IsSolid) :
    Sat b (arrowFunction o isStatic) s fun n t =>
      Stage b k (max l s.offset) x (.node n :: w) t := by
  refine .consume h hk fun t _ h₁ => ?_
  refine .bind (.eatAny h₁ (by decide)) fun byRef u h₂ => ?_
  refine .bind (parameters_sat h₂) fun arguments v h₃ => ?_
  refine .bind (returnType_sat h₃) fun ⟨type, nullable⟩ y h₄ => ?_
  refine .bind (.require h₄ (by decide)) fun _ z h₅ => ?_
  exact .bind (.forget (.expression h₅ (by omega))) fun body z' h₆ =>
    .finish h₆ (.inr h.head_le) rfl

end PhpSyntax.Grammar
