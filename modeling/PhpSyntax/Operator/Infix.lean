/-
The operators that stand between operands, with their binding powers.

Three forms of node are built from an operator between operands: binary
operations, the conditional operator and the null coalescing operator.  The
table of precedence covers all three.  Assignment is not in it: a target and its
assignment operator are read together as one operand.
-/
import PhpSyntax.Operator.Basic

namespace PhpSyntax

inductive Infix where
  | binary (op : BinaryOp)
  | ternary
  | coalesce
deriving DecidableEq, Repr, Inhabited

namespace Infix

def ofToken? : TokenKind → Option Infix
  | .question => some ternary
  | .coalesce => some coalesce
  | k => (BinaryOp.ofToken? k).map binary

/-- How tightly an operator binds; a larger number binds tighter. -/
def precedence : Infix → Nat
  | binary .logicalOr => 1
  | binary .logicalXor => 2
  | binary .logicalAnd => 3
  | ternary => 5
  | coalesce => 6
  | binary .booleanOr => 7
  | binary .booleanAnd => 8
  | binary .bitOr => 9
  | binary .bitXor => 10
  | binary .bitAnd => 11
  | binary .equal | binary .notEqual | binary .identical | binary .notIdentical
  | binary .spaceship => 12
  | binary .less | binary .lessEqual | binary .greater | binary .greaterEqual => 13
  | binary .shiftLeft | binary .shiftRight => 14
  | binary .add | binary .sub | binary .concat => 15
  | binary .mul | binary .div | binary .mod => 16
  | binary .instanceOf => 17
  | binary .pow => 18

def isRightAssoc : Infix → Bool
  | coalesce | binary .pow => true
  | _ => false

/-- The least precedence that the operand to the right may consist of. -/
def rightMin (op : Infix) : Nat :=
  if op.isRightAssoc then op.precedence else op.precedence + 1

end Infix

def keywordOperandMin : Nat := 5

/-- The least precedence in the operand of a unary operator.  Negation takes in
`instanceof`. -/
def UnaryOp.operandMin : UnaryOp → Nat
  | .not => 17
  | _ => 18

def castOperandMin : Nat := 18

end PhpSyntax
