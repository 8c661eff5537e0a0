import PhpSyntax.Node.Basic
import PhpSyntax.Operator.Infix

namespace PhpSyntax

namespace Infix

/-- The least precedence that the operand to the left may consist of. -/
def leftMin (op : Infix) : Nat :=
  if op.isRightAssoc then op.precedence + 1 else op.precedence

/-- Operators of the same precedence group in the same way. -/
theorem isRightAssoc_iff (op : Infix) :
    op.isRightAssoc = true ↔ op.precedence = 6 ∨ op.precedence = 18 := by
  cases op with
  | binary op => cases op <;> decide
  | ternary => decide
  | coalesce => decide

/-- What stops in front of an operator to the right of another one may stand to the left
of it. -/
theorem leftMin_le_of_lt {op next : Infix} (h : next.precedence < op.rightMin) :
    next.leftMin ≤ op.precedence := by
  have hop := op.isRightAssoc_iff
  have hnext := next.isRightAssoc_iff
  by_cases hright : op.isRightAssoc = true
  · rw [rightMin, if_pos hright] at h
    rw [leftMin]
    split <;> omega
  · rw [rightMin, if_neg hright] at h
    by_cases hsame : next.precedence = op.precedence
    · have hleft : next.isRightAssoc = false := by
        rw [Bool.eq_false_iff, ne_eq, hnext, hsame, ← hop]
        exact hright
      rw [leftMin, hleft, if_neg Bool.false_ne_true]
      omega
    · rw [leftMin]
      split <;> omega

end Infix

namespace Production

def infix? {α : Type} : Production α → Option (Infix × α × α)
  | .bin op left right => some (.binary op, left, right)
  | .ternary test _ falseExpr => some (.ternary, test, falseExpr)
  | .coalesce test ifnull => some (.coalesce, test, ifnull)
  | _ => none

end Production

namespace Node

def operator? (n : Node) : Option Infix := n.production.infix?.map (·.1)

def binds (min : Nat) (n : Node) : Bool := n.operator?.all (min ≤ ·.precedence)

theorem binds_of_none {n : Node} (h : n.operator? = none) (min : Nat) : n.binds min = true := by
  rw [binds, h]
  rfl

theorem binds_of_some {n : Node} {op : Infix} (h : n.operator? = some op) {min : Nat}
    (hmin : min ≤ op.precedence) : n.binds min = true := by
  rw [binds, h, Option.all_some]
  exact decide_eq_true hmin

theorem precedence_of_binds {n : Node} {min : Nat} {op : Infix} (h : n.binds min = true)
    (hop : n.operator? = some op) : min ≤ op.precedence := by
  rw [binds, hop, Option.all_some] at h
  exact of_decide_eq_true h

end Node
end PhpSyntax
