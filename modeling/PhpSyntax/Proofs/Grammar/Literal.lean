import PhpSyntax.Grammar.Literal
import PhpSyntax.Proofs.Grammar.Lookup

namespace PhpSyntax

/-! ## A literal read as a list -/

theorem Node.allAsPattern_eq (ns : List Node) : allAsPattern ns = ns.map asPattern := by
  induction ns with
  | nil => rfl
  | cons n ns ih => rw [allAsPattern, ih, List.map_cons]

theorem Production.asPattern_isError (info : NodeInfo) (p : Production Node) :
    (Node.mk info p.asPattern).isError = (Node.mk info p).isError := by
  cases p with
  | array items shortform => cases shortform <;> rfl
  | _ => rfl

theorem Production.asPattern_isHollow (p : Production Node) :
    p.asPattern.isHollow = p.isHollow := by
  cases p with
  | array items shortform => cases shortform <;> rfl
  | _ => rfl

theorem Production.asPattern_testsLast (p : Production Node) :
    p.asPattern.testsLast = p.testsLast := by
  cases p with
  | array items shortform => cases shortform <;> rfl
  | _ => rfl

theorem Production.asPattern_complaint? (info : NodeInfo) (p : Production Node) :
    (Node.mk info p.asPattern).complaint? = (Node.mk info p).complaint? := by
  cases p with
  | array items shortform => cases shortform <;> rfl
  | _ => rfl

theorem Production.asPattern_infix? (p : Production Node) : p.asPattern.infix? = p.infix? := by
  cases p with
  | array items shortform => cases shortform <;> rfl
  | _ => rfl

/-- What is the same for all children read as lists is the same for the children of a
literal read as a list. -/
theorem Production.asPattern_children {β : Type} (g : Node → β) (p : Production Node)
    (h : ∀ c ∈ p.children, g c.asPattern = g c) :
    p.asPattern.children.map g = p.children.map g := by
  cases p with
  | array items shortform =>
    cases shortform with
    | false => rfl
    | true =>
      have hitems : ∀ c ∈ items, g c.asPattern = g c := fun c hc =>
        h c (by simpa [children, fields, Field.children] using hc)
      simp only [asPattern, children, fields, Field.children, List.flatMap_cons,
        List.flatMap_nil, List.append_nil, Node.allAsPattern_eq, List.map_map]
      exact List.map_congr_left hitems
  | entry key value unpack =>
    have hvalue : g value.asPattern = g value :=
      h value (by simp [children, fields, Field.children])
    simp [asPattern, children, fields, Field.children, hvalue]
  | _ => rfl

theorem Node.asPattern_children (n : Node) : n.asPattern.children = n.production.asPattern.children := by
  cases n
  rfl

theorem Node.asPattern_outline (n : Node) : n.asPattern.outline = n.outline := by
  obtain ⟨info, p⟩ := n
  have herror := Production.asPattern_isError info p
  have hhollow := Production.asPattern_isHollow p
  have htest := Production.asPattern_testsLast p
  have hinfix := Production.asPattern_infix? p
  have hcomplaint := Production.asPattern_complaint? info p
  simp only [asPattern, outline, operator?, herror, hhollow, htest, hinfix, hcomplaint]

theorem Node.asPattern_resembles (n : Node) : n.asPattern.Resembles n := by
  induction n using Node.induction with
  | step n ih =>
    have hchildren : n.asPattern.children.map outline = n.children.map outline := by
      rw [asPattern_children]
      exact n.production.asPattern_children outline fun c _ => c.asPattern_outline
    have hbelow : n.asPattern.children.map (fun c => c.walk.map signature) =
        n.children.map (fun c => c.walk.map signature) := by
      rw [asPattern_children]
      exact n.production.asPattern_children (fun c => c.walk.map signature) ih
    rw [Resembles, walk_eq, walk_eq, List.map_cons, List.map_cons, signature, signature,
      asPattern_outline, hchildren, List.map_flatMap, List.map_flatMap, List.flatMap_def,
      List.flatMap_def, hbelow]

namespace Grammar

variable {b k l : Nat} {x : Bench × ParseState} {w : Bench} {s : ParseState}

theorem openEntries_sat {shortform : Bool} (h : Stage b k l x w s) (hk : s.kind.IsSolid) :
    Sat b (openEntries shortform) s fun close t =>
      close.IsSolid ∧ Stage b 32 (max l s.offset) x w t ∧
        s.offset ≤ t.stream.prev.offset := by
  have h₁ := h.advanceSolid hk
  have hprev : s.offset ≤ s.advance.stream.prev.offset :=
    Stream.start_le_advance_prev h.sound hk.2
  refine .bind (Q := fun _ t => Stage b 32 (max l s.offset) x w t ∧
    s.offset ≤ t.stream.prev.offset) (.of_advance hk.1 ⟨h₁, hprev⟩) fun _ t ⟨h₁, hprev⟩ => ?_
  refine .ite (fun _ => .pure ⟨by decide, h₁, hprev⟩) fun _ => ?_
  refine .bind (.require h₁.here (by decide)) fun _ u h₂ => .pure ⟨by decide, h₁.trans h₂, ?_⟩
  exact Nat.le_trans hprev (h₂.moves.leads.prev_le h₁.sound)

theorem arrayLiteral_sat (h : Stage b k l x w s) (hk : s.kind.IsSolid) :
    Sat b arrayLiteral s fun n t => Stage b k (max l s.offset) x (.node n :: w) t := by
  refine .openNode (.sees (.bind (openEntries_sat h.openNode hk) fun close t ⟨hc, h₁, _⟩ => ?_))
  refine .bind (.call (.entries close false) h₁ (show 4 < 32 by omega) hc) fun items u ⟨h₂, _⟩ => ?_
  exact (Sat.finish h₂ (.inr (Nat.le_max_right _ _)) rfl).spend h.limit

/-- A list is never empty, whatever is missing in it. -/
theorem listPattern_covered (h : Stage b k l x w s) (hk : s.kind.IsSolid) :
    Sat b listPattern s fun n t =>
      Stage b k (max l s.offset) x (.node n :: w) t ∧
        n.span.start.offset ≤ t.stream.prev.offset := by
  refine .openNode (.sees (.bind (openEntries_sat h.openNode hk)
    fun close t ⟨hc, h₁, hprev⟩ => ?_))
  refine .bind (.call (.entries close true) h₁.here (show 4 < 32 by omega) hc)
    fun items u ⟨h₂, _⟩ => ?_
  have hcovered := Nat.le_trans hprev (h₂.moves.leads.prev_le h₁.sound)
  refine .mono (.given (V := fun n _ => n.span.start = s.openNode.1.start)
    (.finishInPlace (h₁.trans h₂) (.inr (Nat.le_max_right _ _)) rfl) (show _ = _ from rfl)) ?_
  intro n v ⟨⟨hv, h₃⟩, hstart⟩
  refine ⟨h₃.spend h.limit, ?_⟩
  rw [hv, hstart]
  exact hcovered

theorem listPattern_sat (h : Stage b k l x w s) (hk : s.kind.IsSolid) :
    Sat b listPattern s fun n t => Stage b k (max l s.offset) x (.node n :: w) t :=
  (listPattern_covered h hk).mono fun _ _ h => h.1

theorem entryPart_sat {isPattern : Bool} (h : Stage b k l x w s) (hk : 3 < k) :
    Sat b (entryPart isPattern) s fun n t => Stage b k (max l s.offset) x (.node n :: w) t := by
  refine .kind ?_
  split
  case h_1 => exact .callPlain rfl h (Nat.lt_trans (show 1 < 3 by decide) hk)
  case h_2 hkind | h_3 hkind =>
    refine .ite (fun _ => ?_) fun _ => .expression h hk
    exact listPattern_sat h (hkind ▸ by decide)
  case h_4 => exact .expression h hk

theorem entry_sat {isPattern : Bool} (h : Stage b k l x w s) (hk : 3 < k) :
    Sat b (entry isPattern) s fun n t => Stage b k (max l s.offset) x (.node n :: w) t := by
  have h₁ := h.openNode
  refine .openNode (.isAt (fun hkind => ?_) fun _ => ?_)
  · refine .bind (.requireOption rfl h₁) fun _ t ⟨ht, h₂⟩ => ?_
    have hsolid : s.kind.IsSolid := hkind ▸ by decide
    refine .bind (.advanceFrom ht hsolid h₂) fun _ u h₃ => ?_
    refine .bind (.forget (.expression h₃ (by omega))) fun value v h₄ => ?_
    exact (Sat.finish h₄ (.inr (Nat.le_max_right _ _)) rfl).spend h.limit
  · refine .bind (entryPart_sat h₁ hk) fun first t h₂ => ?_
    refine .bind (.after h₂ (by decide) fun u h₃ => .forget (entryPart_sat h₃ (by decide)))
      fun value u h₃ => ?_
    cases value with
    | some value => exact .finish h₃ (.inr (Nat.le_max_right _ _)) rfl
    | none => exact .finish h₃ (.inr (Nat.le_max_right _ _)) rfl

theorem entries_sat {close : TokenKind} {isPattern : Bool} (hc : close.IsSolid)
    (h : Stage b k l x w s) (hk : 3 < k) :
    Sat b (entries close isPattern) s fun ns t => Stage b k l x (stack ns w) t := by
  refine .sees (.atEnd (.ite (fun _ => ?_) fun _ => .sees (.ite (fun hcomma => ?_) fun _ => ?_)))
  · exact .bind (.require h hc) fun _ t h₁ => .pure h₁
  · have hkind : s.kind = .comma := of_decide_eq_true (Bool.and_eq_true_iff.mp hcomma).2
    refine .openNode (.bind (.finishInPlace h.openNode (.inl rfl) rfl) fun n t ⟨ht, h₁⟩ => ?_)
    have hsolid : s.kind.IsSolid := hkind ▸ by decide
    refine .bind (.forget (.advanceFrom ht hsolid h₁)) fun _ u h₂ => ?_
    refine .bind (.call (.entries close isPattern) h₂ (show 4 < 32 by omega) hc) ?_
    exact fun ns v ⟨h₃, _⟩ => .pure (h₃.spend h.limit)
  · refine .bind (.forget (entry_sat h hk)) fun n t h₁ => ?_
    refine .ifEat h₁ (by decide) (fun u h₂ => .spend ?_ h.limit) ?_
    · refine .bind (.call (.entries close isPattern) h₂ (show 4 < 32 by omega) hc) ?_
      exact fun ns v ⟨h₃, _⟩ => .pure h₃
    · exact .bind (.require h₁ hc) fun _ u h₂ => .pure h₂

/-- A literal has no children, and any rule may finish it. -/
theorem leaf_of_literal {j : TokenKind} {raw : String} {p : Production Node}
    (h : literal? j raw = some p) : (∀ w, p.lay w = w) ∧ p.isProper = true := by
  unfold literal? at h
  split at h
  case h_1 | h_2 | h_3 | h_4 =>
    cases h
    exact ⟨fun _ => rfl, rfl⟩
  case h_5 =>
    cases h
    unfold heredocLiteral
    split
    · exact ⟨fun _ => rfl, rfl⟩
    · exact ⟨fun _ => rfl, rfl⟩
  case h_6 =>
    split at h
    · cases h
      exact ⟨fun _ => rfl, rfl⟩
    · cases h

theorem scalar_sat (h : Stage b k l x w s) :
    Sat b scalar s fun n t => Stage b k (max l s.offset) x (.node n :: w) t := by
  refine .kind ?_
  split
  case h_1 hk | h_2 hk => exact arrayLiteral_sat h (hk ▸ by decide)
  case h_3 =>
    refine .text fun word => ?_
    split
    case h_1 p hp =>
      have hsolid : s.kind.IsSolid :=
        TokenKind.isSolid_of_some (f := fun j => literal? j word) rfl rfl hp
      refine .openNode (.consume h.openNode hsolid fun t _ h₁ => ?_)
      obtain ⟨hlay, hproper⟩ := leaf_of_literal hp
      rw [← hlay (.opened s.openNode.1 :: w)] at h₁
      exact .finish h₁ (.inr (Nat.le_max_right _ _)) hproper
    case h_2 => exact .missing _ h

end Grammar
end PhpSyntax
