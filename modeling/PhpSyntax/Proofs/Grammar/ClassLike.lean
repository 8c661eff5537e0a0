import PhpSyntax.Grammar.ClassLike
import PhpSyntax.Proofs.Grammar.Callable
import PhpSyntax.Proofs.Grammar.Lookup

namespace PhpSyntax.Grammar

variable {b k l : Nat} {x : Bench × ParseState} {w : Bench} {s : ParseState}

theorem memberModifiers_sat {m : Modifiers} (h : Stage b k l x w s) :
    Sat b (memberModifiers m) s fun _ t => Stage b k l x w t := by
  have hrest (m : Modifiers) (t : ParseState) (ht : t.stream = s.stream)
      (hin : Category.memberModifier.set.contains s.kind = true) (h₁ : Stage b k l x w t) :
      Sat b (Parser.advance >>= fun _ => Parser.call (.memberModifiers m)) t
        fun _ u => Stage b k l x w u := by
    have hsolid : s.kind.IsSolid := TokenSet.isSolid hin (by decide) (by decide)
    refine .bind (.forget (.advanceFrom ht hsolid h₁)) fun _ u h₂ => ?_
    exact (Sat.call (.memberModifiers m) h₂ (show 0 < 32 by omega) trivial).mono
      fun _ _ h₃ => h₃.1.spend h.limit
  refine .isIn (fun hin => .kind ?_) fun _ => .pure h
  obtain ⟨m', message⟩ := addModifier m s.kind
  cases message with
  | some message =>
    exact .bind (.objection rfl h) fun _ t ⟨ht, h₁⟩ => hrest m' t ht hin h₁
  | none => exact hrest m' s rfl hin h

theorem constant_sat {reserved : Bool} (h : Stage b k l x w s) (hk : 3 < k) :
    Sat b (constant reserved) s fun n t => Stage b k (max l s.offset) x (.node n :: w) t := by
  refine .openNode (.join (fun _ => memberName_sat h.openNode)
    (fun _ => identifier_sat h.openNode) fun name t h₁ => ?_)
  refine .bind (.require h₁ (by decide)) fun _ u h₂ => ?_
  refine .bind (.forget (.expression h₂ hk)) fun value v h₃ => ?_
  exact .finish h₃ (.inr (Nat.le_max_right _ _)) rfl

theorem property_sat (h : Stage b k l x w s) :
    Sat b property s fun n t => Stage b k (max l s.offset) x (.node n :: w) t := by
  refine .openNode (.bind (variableName_sat h.openNode) fun name t h₁ => ?_)
  refine .bind (initialValue_sat h₁) fun value u h₂ => ?_
  exact .finish h₂ (.inr (Nat.le_max_right _ _)) rfl

theorem propertyStatement_sat {o : Opened} {m : Modifiers}
    (h : Stage b k l x (.opened o :: w) s) (hk : 4 < k) :
    Sat b (propertyStatement o m) s fun n t => Stage b k l x (.node n :: w) t := by
  have hrest (type : Option Node) (nullable : Bool) (t : ParseState)
      (h₁ : Stage b k l x (layOption type (.opened o :: w)) t) :
      Sat b (separated .comma .property >>= fun properties => Parser.endStatement >>= fun _ =>
        Parser.finish o (.propertyStatement properties m type nullable)) t
        fun n u => Stage b k l x (.node n :: w) u := by
    have ho : o.start.offset ≤ t.offset := h₁.starts _ (mem_layOption _ List.mem_cons_self)
    refine .bind (separated_sat ⟨by decide, rfl⟩ h₁ hk) fun properties u h₂ => ?_
    refine .bind (.endStatement h₂) fun _ v h₃ => ?_
    exact (Sat.finish h₃ (.inr (by omega)) rfl).forget
  refine .isAt (fun _ => hrest none false s h) fun _ => ?_
  refine .bind (.requireOption rfl h) fun _ t ⟨_, h₁⟩ => ?_
  refine .bind (.eatAny h₁ (by decide)) fun nullable u h₂ => ?_
  refine .bind (.forget (typeName_sat h₂ (Nat.zero_lt_of_lt hk))) fun type v h₃ => ?_
  exact hrest (some type) nullable v h₃

theorem classConstant_sat {o : Opened} {m : Modifiers} (h : Stage b k l x (.opened o :: w) s)
    (hk : s.kind.IsSolid) :
    Sat b (classConstant o m) s fun n t => Stage b k (max l s.offset) x (.node n :: w) t := by
  refine .consume h hk fun t _ h₁ => ?_
  refine .bind (.forget (separated_sat ⟨by decide, rfl⟩ h₁ (show 4 < 32 by omega)))
    fun constants u h₂ => ?_
  exact .bind (.endStatement h₂) fun _ v h₃ => .finish h₃ (.inr h.head_le) rfl

theorem braceGroup_sat {depth : Nat} (h : Stage b k l x w s) :
    Sat b (braceGroup depth) s fun _ t => Stage b k l x w t := by
  refine .kind ?_
  split
  case h_1 => exact .bind (.omitted l h) fun _ t ⟨_, h₁⟩ => .pure h₁
  case h_2 hne =>
    refine .bind (.advance h hne) fun _ t ⟨_, h₁⟩ => ?_
    refine .ite (fun _ => .pure (h₁.spend h.limit)) fun _ => ?_
    refine (Sat.call (.braceGroup _) h₁ (show 0 < 32 by omega) ?_).mono
      fun _ _ ⟨h₂, _⟩ => h₂.spend h.limit
    trivial

theorem traitUse_sat (h : Stage b k l x w s) (hk : s.kind.IsSolid) :
    Sat b traitUse s fun n t => Stage b k (max l s.offset) x (.node n :: w) t := by
  refine .begin h hk fun o t ho h₁ => ?_
  refine .bind (.forget (separated_sat ⟨by decide, rfl⟩ h₁ (by decide))) fun traits u h₂ => ?_
  refine .isAt (fun _ => .read ?_ rfl) fun _ => ?_
  · refine .bind (.call (.braceGroup 0) h₂ (by decide) trivial) fun _ v ⟨h₃, _⟩ => ?_
    exact .read (.finish h₃ (.inr ho) rfl) rfl
  · exact .bind (.endStatement h₂) fun _ v h₃ => .finish h₃ (.inr ho) rfl

theorem memberAfter_sat {o : Opened} {m : Modifiers} (h : Stage b k l x (.opened o :: w) s)
    (hk : 4 < k) :
    Sat b (memberAfter o m) s fun n t => Stage b k l x (.node n :: w) t := by
  refine .kind (.ite (fun hc => ?_) fun _ => .ite (fun hf => ?_) fun _ => .ite (fun _ => ?_)
    fun _ => ?_)
  · exact .forget (classConstant_sat h (hc ▸ by decide))
  · exact .forget (method_sat h (hf ▸ by decide))
  · exact propertyStatement_sat h hk
  · refine .bind (.missing l h) fun n t h₁ => ?_
    exact .bind (.abandon h₁) fun n u h₂ => skip_sat h₂

theorem member_sat (h : Stage b k l x w s) (hk : 4 < k) :
    Sat b member s fun n t => Stage b k l x (.node n :: w) t := by
  refine .isAt (fun hu => .forget (traitUse_sat h (hu ▸ by decide))) fun _ => .openNode ?_
  refine .ifEat h.openNode (by decide) (fun t h₁ => ?_) ?_
  · exact (propertyStatement_sat h₁ (by decide)).spend h.limit
  · refine .bind (.call (.memberModifiers .none) h.openNode (Nat.lt_of_le_of_lt (by decide) hk)
      trivial) fun m t ⟨h₁, _⟩ => ?_
    exact memberAfter_sat h₁ hk

theorem members_sat (h : Stage b k l x w s) (hk : 4 < k) :
    Sat b members s fun ns t => Stage b k l x (stack ns w) t ∧ True :=
  statementList_sat _ rfl (fun h₁ _ _ => member_sat h₁ hk)
    (fun h₁ => .call .members h₁ (by decide) trivial) (fun _ => trivial) h

theorem classFlags_sat {isAbstract isFinal : Bool} (h : Stage b k l x w s) :
    Sat b (classFlags isAbstract isFinal) s fun _ t => Stage b k l x w t := by
  have hrest (isAbstract isFinal : Bool) (t : ParseState) (ht : t.stream = s.stream)
      (hk : s.kind.IsSolid) (h₁ : Stage b k l x w t) :
      Sat b (Parser.advance >>= fun _ => Parser.call (.classFlags isAbstract isFinal)) t
        fun _ u => Stage b k l x w u := by
    refine .bind (.forget (.advanceFrom ht hk h₁)) fun _ u h₂ => ?_
    exact (Sat.call (.classFlags isAbstract isFinal) h₂ (show 0 < 32 by omega) trivial).mono
      fun _ _ h₃ => h₃.1.spend h.limit
  refine .kind ?_
  split
  case h_1 hk | h_2 hk =>
    have hsolid : s.kind.IsSolid := hk ▸ by decide
    refine .ite (fun _ => ?_) fun _ => .ite (fun _ => ?_) fun _ => hrest _ _ s rfl hsolid h
    · exact .bind (.objection rfl h) fun _ t ⟨ht, h₁⟩ => hrest _ _ t ht hsolid h₁
    · exact .bind (.objection rfl h) fun _ t ⟨ht, h₁⟩ => hrest _ _ t ht hsolid h₁
  case h_3 => exact .pure h

theorem classBody_sat (h : Stage b k l x w s) :
    Sat b classBody s fun ns t => Stage b k l x (stack ns w) t := by
  refine .ifExpect h (by decide) (fun t h₁ => .spend ?_ h.limit) fun t h₁ => .pure h₁
  refine .bind (.call .members h₁ (by decide) trivial) fun ms u ⟨h₂, _⟩ => ?_
  exact .bind (.require h₂ (by decide)) fun _ v h₃ => .pure h₃

theorem namesAfter_sat {j : TokenKind} (hj : j.IsSolid) (h : Stage b k l x w s) :
    Sat b (namesAfter j) s fun ns t => Stage b k l x (stack ns w) t := by
  refine .ifEat h hj (fun t h₁ => .spend ?_ h.limit) (.pure h)
  exact .forget (separated_sat ⟨by decide, rfl⟩ h₁ (by decide))

theorem heritage_sat (h : Stage b k l x w s) :
    Sat b heritage s fun v t => Stage b k l x (stack v.2 (layOption v.1 w)) t := by
  refine .bind (.after h (by decide) fun t h₁ => .forget (.callPlain rfl h₁ (by decide)))
    fun parent t h₁ => ?_
  exact .bind (namesAfter_sat (by decide) h₁) fun interfaces u h₂ => .pure h₂

theorem classDeclaration_sat (h : Stage b k l x w s) (hk : 0 < k) :
    Sat b classDeclaration s fun n t => Stage b k (max l s.offset) x (.node n :: w) t := by
  have h₁ := h.openNode
  refine .openNode (.bind (.call (.classFlags false false) h₁ hk trivial)
    fun ⟨isAbstract, isFinal⟩ t ⟨h₂, _⟩ => ?_)
  have ho : s.offset ≤ t.offset := h₂.starts _ List.mem_cons_self
  refine .ifEatSolid h₂ (by decide) (fun _ u h₃ => ?_) fun _ => ?_
  · have h₃' : Stage b k (max l s.offset) x (.opened s.openNode.1 :: w) u :=
      (h₃.spend h.limit).lower (show max l s.offset ≤ max l t.offset by omega)
    refine .bind (.forget (identifier_sat h₃')) fun name v h₄ => ?_
    refine .bind (heritage_sat h₄) fun ⟨parent, interfaces⟩ y h₅ => ?_
    refine .bind (classBody_sat h₅) fun body z h₆ => ?_
    exact .finish h₆ (.inr (Nat.le_max_right _ _)) rfl
  · exact .bind (.missing _ h₂) fun n u h₃ => .abandon h₃

/-- The arguments of the constructor stay for the instantiation around the class. -/
theorem anonymousClass_sat (h : Stage b k l x w s) (hk : s.kind.IsSolid) :
    Sat b anonymousClass s fun v t =>
      Stage b k (max l s.offset) x (stack v.2 (.node v.1 :: w)) t := by
  refine .begin h hk fun o t ho h₁ => ?_
  refine .bind (argumentsIfAny_sat h₁) fun args u h₂ => ?_
  refine .bind (heritage_sat h₂) fun ⟨parent, interfaces⟩ v h₃ => ?_
  refine .bind (classBody_sat h₃) fun body y h₄ => ?_
  exact .bind (.finishAbove h₄ (.inr ho) rfl) fun n z h₅ => .pure h₅

theorem interfaceDeclaration_sat (h : Stage b k l x w s) (hk : s.kind.IsSolid) :
    Sat b interfaceDeclaration s fun n t => Stage b k (max l s.offset) x (.node n :: w) t := by
  refine .begin h hk fun o t ho h₁ => ?_
  refine .bind (.forget (identifier_sat h₁)) fun name u h₂ => ?_
  refine .bind (namesAfter_sat (by decide) h₂) fun parents v h₃ => ?_
  exact .bind (classBody_sat h₃) fun body y h₄ => .finish h₄ (.inr ho) rfl

theorem traitDeclaration_sat (h : Stage b k l x w s) (hk : s.kind.IsSolid) :
    Sat b traitDeclaration s fun n t => Stage b k (max l s.offset) x (.node n :: w) t := by
  refine .begin h hk fun o t ho h₁ => ?_
  refine .bind (.forget (identifier_sat h₁)) fun name u h₂ => ?_
  exact .bind (classBody_sat h₂) fun body v h₃ => .finish h₃ (.inr ho) rfl

end PhpSyntax.Grammar
