/-
Operators group by precedence.

A rule finishes a node with an operator at its top only if what stands to the left and to
the right of the operator is tight enough (`Production.isProper`).  No move changes the
operator at the top of a node, so that holds of every node of a program
(`operators_group`).
-/
import PhpSyntax.Proofs.Trace.Program

namespace PhpSyntax

/-! ## What stands beside an operator -/

/-- What stands to the left of an operator comes first, what stands to the right last. -/
theorem Production.children_of_infix {α : Type} {p : Production α} {op : Infix} {left right : α}
    (h : p.infix? = some (op, left, right)) :
    p.children.head? = some left ∧ p.children.getLast? = some right := by
  cases p with
  | bin | coalesce =>
    cases h
    exact ⟨rfl, rfl⟩
  | ternary test trueExpr falseExpr =>
    cases h
    cases trueExpr with
    | none => exact ⟨rfl, rfl⟩
    | some n => exact ⟨rfl, rfl⟩
  | _ => cases h

theorem Production.infix?_map {α β : Type} (f : α → β) (p : Production α) :
    (p.map f).infix? = p.infix?.map fun (op, left, right) => (op, f left, f right) := by
  cases p <;> rfl

theorem Node.operator?_mapInfo (g : NodeInfo → NodeInfo) (n : Node) :
    (mapInfo g n).operator? = n.operator? := by
  rw [operator?, mapInfo_eq, Production.infix?_map, operator?]
  cases n.production.infix? <;> rfl

/-- The first and the last child of a node with an operator are tight enough for it. -/
def Node.Outline.Groups (parent : Outline) (children : List Outline) : Prop :=
  ∀ op, parent.operator? = some op →
    (∀ c ∈ children.head?, ∀ q, c.operator? = some q → op.leftMin ≤ q.precedence) ∧
      ∀ c ∈ children.getLast?, ∀ q, c.operator? = some q → op.rightMin ≤ q.precedence

theorem Node.groups_of_isProper {info : NodeInfo} {p : Production Node} (h : p.isProper = true) :
    (Node.mk info p).outline.Groups ((Node.mk info p).children.map outline) := by
  intro op hop
  have hop : p.infix?.map (·.1) = some op := hop
  obtain ⟨⟨op', left, right⟩, hinfix, rfl⟩ := Option.map_eq_some_iff.mp hop
  obtain ⟨hfirst, hlast⟩ := Production.children_of_infix hinfix
  rw [Production.isProper, hinfix, Option.all_some, Bool.and_eq_true, Bool.and_eq_true] at h
  obtain ⟨_, hleft, hright⟩ := h
  rw [List.head?_map, List.getLast?_map, Node.children, hfirst, hlast]
  refine ⟨fun c hc q hq => ?_, fun c hc q hq => ?_⟩
  · cases hc
    exact precedence_of_binds hleft hq
  · cases hc
    exact precedence_of_binds hright hq

/-! ## From moves to programs -/

def Grouped (x : Bench × ParseState) : Prop :=
  ∀ g ∈ Bench.signatures x.1, g.1.Groups g.2

theorem Move.grouped {x y : Bench × ParseState} (h : Move x y) (hx : Grouped x) :
    Grouped y := by
  intro g hg
  rcases h.signatures g hg with hg | hadds
  · exact hx g hg
  · cases hadds with
    | finish he => exact Node.groups_of_isProper he
    | record => exact fun op hop => by cases hop
    | @abandon o n => exact hx n.signature (Bench.signature_mem List.mem_cons_self)

theorem Moves.grouped {x y : Bench × ParseState} (h : Moves x y) (hx : Grouped x) : Grouped y :=
  h.preserves Move.grouped hx

theorem Infix.left_of_leftMin {op q : Infix} (h : op.leftMin ≤ q.precedence) :
    op.precedence < q.precedence ∨ (q.precedence = op.precedence ∧ op.isRightAssoc = false) := by
  rw [leftMin] at h
  cases hright : op.isRightAssoc with
  | true =>
    rw [hright, if_pos rfl] at h
    exact Or.inl h
  | false =>
    rw [hright, if_neg Bool.false_ne_true] at h
    rcases Nat.lt_or_eq_of_le h with hlt | heq
    · exact Or.inl hlt
    · exact Or.inr ⟨heq.symm, rfl⟩

theorem Infix.right_of_rightMin {op q : Infix} (h : op.rightMin ≤ q.precedence) :
    op.precedence < q.precedence ∨ (q.precedence = op.precedence ∧ op.isRightAssoc = true) := by
  rw [rightMin] at h
  cases hright : op.isRightAssoc with
  | true =>
    rw [hright, if_pos rfl] at h
    rcases Nat.lt_or_eq_of_le h with hlt | heq
    · exact Or.inl hlt
    · exact Or.inr ⟨heq.symm, rfl⟩
  | false =>
    rw [hright, if_neg Bool.false_ne_true] at h
    exact Or.inl h

/-- What stands to the left of an operator binds tighter than it does, or as tight if the
operator groups to the left, and so for the right. -/
theorem operators_group {source : String} {fileName : Option String} {o : Options} {p : Program}
    (h : parse source fileName o = .ok p) :
    ∀ n ∈ p.tree, ∀ op left right, n.production.infix? = some (op, left, right) →
      (∀ q, left.operator? = some q →
        op.precedence < q.precedence ∨
          (q.precedence = op.precedence ∧ op.isRightAssoc = false)) ∧
      ∀ q, right.operator? = some q →
        op.precedence < q.precedence ∨
          (q.precedence = op.precedence ∧ op.isRightAssoc = true) := by
  obtain ⟨children, s, rfl, hmoves, -, -⟩ := parse_ok h
  have hgrouped := hmoves.grouped fun g hg => absurd hg List.not_mem_nil
  intro n hn op left right hinfix
  rw [ParseState.completed_tree] at hn
  obtain ⟨m, hm, rfl⟩ := List.mem_map.mp hn
  rw [Node.mapInfo_eq, Production.infix?_map] at hinfix
  obtain ⟨⟨op', l, r⟩, hm', heq⟩ := Option.map_eq_some_iff.mp hinfix
  obtain ⟨rfl, rfl, rfl⟩ : op' = op ∧ _ = left ∧ _ = right := by simpa using heq
  obtain ⟨hfirst, hlast⟩ := Production.children_of_infix hm'
  have hop : m.outline.operator? = some op' := by
    show m.production.infix?.map _ = _
    rw [hm']
    rfl
  obtain ⟨hleft, hright⟩ := hgrouped m.signature (Bench.signature_mem_stack hm _) op' hop
  have hchildren : m.signature.2 = m.production.children.map Node.outline := rfl
  rw [hchildren, List.head?_map, hfirst] at hleft
  rw [hchildren, List.getLast?_map, hlast] at hright
  refine ⟨fun q hq => ?_, fun q hq => ?_⟩
  · rw [Node.operator?_mapInfo] at hq
    exact Infix.left_of_leftMin (hleft l.outline rfl q hq)
  · rw [Node.operator?_mapInfo] at hq
    exact Infix.right_of_rightMin (hright r.outline rfl q hq)

/-- Subtraction groups to the left and the power operator to the right. -/
theorem operators_group_mixed :
    ∃ p, parse "<?php 1 - 2 - 3 ** 4 ** 5;" none {} = .ok p ∧
      p.tree.filterMap (fun n => n.production.infix?.map fun (op, left, right) =>
          (op, left.operator?, right.operator?)) =
        [(.binary .sub, some (.binary .sub), some (.binary .pow)),
          (.binary .sub, none, none),
          (.binary .pow, none, some (.binary .pow)),
          (.binary .pow, none, none)] ∧
      ∀ n ∈ p.tree, ∀ op left right, n.production.infix? = some (op, left, right) →
        (∀ q, left.operator? = some q →
          op.precedence < q.precedence ∨
            (q.precedence = op.precedence ∧ op.isRightAssoc = false)) ∧
        ∀ q, right.operator? = some q →
          op.precedence < q.precedence ∨
            (q.precedence = op.precedence ∧ op.isRightAssoc = true) := by
  have hrun : (parse "<?php 1 - 2 - 3 ** 4 ** 5;" none {}).toOption.map
      (fun p => p.tree.filterMap fun n => n.production.infix?.map fun (op, left, right) =>
        (op, left.operator?, right.operator?)) =
      some [(.binary .sub, some (.binary .sub), some (.binary .pow)),
        (.binary .sub, none, none),
        (.binary .pow, none, some (.binary .pow)),
        (.binary .pow, none, none)] := by
    rw [parse_eq, statementsFrom_eq]
    decide +kernel
  obtain ⟨p, hp, hvalues⟩ := parse_of_map hrun
  exact ⟨p, hp, hvalues, operators_group hp⟩

end PhpSyntax
