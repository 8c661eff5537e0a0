import PhpSyntax.Node.Walk
import PhpSyntax.Operator.Infix
import PhpSyntax.Scanner.Mode

namespace PhpSyntax

/-! ## Words and numerals -/

def isWord : List Char → Bool
  | [] => false
  | c :: r => isWordStart c && r.all isWordPart

/-- The characters are decimal digits, between which single underscores may stand. -/
def isDecimal : List Char → Bool
  | [] => false
  | [c] => c.isDigit
  | c :: '_' :: r => c.isDigit && isDecimal r
  | c :: r => c.isDigit && isDecimal r

abbrev VariableWord := { text : String // isWord text.toList = true }

abbrev Numeral := { text : String // isDecimal text.toList = true }

/-! ## Operators as they are written -/

def BinaryOp.kind (op : BinaryOp) : TokenKind := (Lexeme.code op.text.toList).kind

namespace Infix

def token : Infix → TokenKind × String
  | .binary op => (op.kind, op.text)
  | .coalesce => (.coalesce, "??")
  | .ternary => (.question, "?")

def rest : Infix → List (TokenKind × String)
  | .ternary => [(.colon, ":")]
  | _ => []

def production {α : Type} (op : Infix) (left right : α) : Production α :=
  match op with
  | .binary op => .bin op left right
  | .coalesce => .coalesce left right
  | .ternary => .ternary left none right

/-- Whether the operator `q` may be at the top of what stands to the left of `op`: it binds
tighter, or as tight where operators group to the left. -/
def admitsLeft (op q : Infix) : Bool :=
  op.precedence < q.precedence || (op.precedence = q.precedence && !op.isRightAssoc)

/-- Whether the operator `q` may be at the top of what stands to the right of `op`: it binds
tighter, or as tight where operators group to the right. -/
def admitsRight (op q : Infix) : Bool :=
  op.precedence < q.precedence || (op.precedence = q.precedence && op.isRightAssoc)

end Infix

/-! ## Formulas -/

/-- A tree of operators between operands. -/
inductive Formula where
  | «variable» (name : VariableWord)
  | integer (digits : Numeral)
  | parenthesis (inner : Formula)
  /-- An operator between two operands.  The conditional operator is the short one. -/
  | operation (op : Infix) (left right : Formula)
  /-- The full conditional operator. -/
  | choice (test middle otherwise : Formula)

namespace Formula

def operator? : Formula → Option Infix
  | .operation op _ _ => some op
  | .choice _ _ _ => some .ternary
  | _ => none

/-- Whether what stands beside each operator may stand there.  In the middle of a conditional
operator, as in parentheses, there may be any formula. -/
def isGrouped : Formula → Bool
  | .variable _ | .integer _ => true
  | .parenthesis inner => inner.isGrouped
  | .operation op left right =>
    left.operator?.all op.admitsLeft && right.operator?.all op.admitsRight &&
      left.isGrouped && right.isGrouped
  | .choice test middle otherwise =>
    test.operator?.all Infix.ternary.admitsLeft &&
      otherwise.operator?.all Infix.ternary.admitsRight &&
      test.isGrouped && middle.isGrouped && otherwise.isGrouped

def tokens : Formula → List (TokenKind × String)
  | .variable name => [(.variable, "$" ++ name)]
  | .integer digits => [(.lNumber, digits)]
  | .parenthesis inner => (.lParen, "(") :: (inner.tokens ++ [(.rParen, ")")])
  | .operation op left right => left.tokens ++ op.token :: (op.rest ++ right.tokens)
  | .choice test middle otherwise =>
    test.tokens ++ (.question, "?") :: (middle.tokens ++ (.colon, ":") :: otherwise.tokens)

/-- A program of one statement, which is a formula.  Single blanks separate the tokens. -/
def program (f : Formula) : String :=
  "<?php " ++ " ".intercalate (f.tokens.map Prod.snd) ++ ";"

def node : Formula → Node
  | .variable name => ⟨default, .variable (.named name)⟩
  | .integer digits => ⟨default, .number digits⟩
  | .parenthesis inner => ⟨default, .parenthesis inner.node⟩
  | .operation op left right => ⟨default, op.production left.node right.node⟩
  | .choice test middle otherwise =>
    ⟨default, .ternary test.node (some middle.node) otherwise.node⟩

end Formula

/-- A node without its identity and place.  Its comments are still there. -/
def NodeInfo.unplaced (info : NodeInfo) : NodeInfo := { info with id := 0, span := default }

def Node.unplaced : Node → Node := mapInfo NodeInfo.unplaced

end PhpSyntax
