import PhpSyntax.Token.Kind

namespace PhpSyntax

/-- Operators between two operands, the word forms included.  The null coalescing
operator is not one of them: it builds a node of its own. -/
inductive BinaryOp where
  | add | sub | mul | div | mod | pow | concat | bitAnd | bitOr | bitXor | shiftLeft
  | shiftRight | booleanAnd | booleanOr | logicalAnd | logicalOr | logicalXor | equal
  | notEqual | identical | notIdentical | less | lessEqual | greater | greaterEqual | spaceship
  | instanceOf
deriving DecidableEq, Repr, Inhabited

namespace BinaryOp

def label : BinaryOp → String
  | .add => "Add"
  | .sub => "Sub"
  | .mul => "Mul"
  | .div => "Div"
  | .mod => "Mod"
  | .pow => "Pow"
  | .concat => "Concat"
  | .bitAnd => "BitAnd"
  | .bitOr => "BitOr"
  | .bitXor => "BitXor"
  | .shiftLeft => "ShiftLeft"
  | .shiftRight => "ShiftRight"
  | .booleanAnd => "BooleanAnd"
  | .booleanOr => "BooleanOr"
  | .logicalAnd => "LogicalAnd"
  | .logicalOr => "LogicalOr"
  | .logicalXor => "LogicalXor"
  | .equal => "Equal"
  | .notEqual => "NotEqual"
  | .identical => "Identical"
  | .notIdentical => "NotIdentical"
  | .less => "Less"
  | .lessEqual => "LessEqual"
  | .greater => "Greater"
  | .greaterEqual => "GreaterEqual"
  | .spaceship => "Spaceship"
  | .instanceOf => "InstanceOf"

def ofToken? : TokenKind → Option BinaryOp
  | .plus => some .add
  | .minus => some .sub
  | .star => some .mul
  | .slash => some .div
  | .percent => some .mod
  | .pow => some .pow
  | .dot => some .concat
  | .amp => some .bitAnd
  | .pipe => some .bitOr
  | .caret => some .bitXor
  | .shiftLeft => some .shiftLeft
  | .shiftRight => some .shiftRight
  | .booleanAnd => some .booleanAnd
  | .booleanOr => some .booleanOr
  | .kwLogicalAnd => some .logicalAnd
  | .kwLogicalOr => some .logicalOr
  | .kwLogicalXor => some .logicalXor
  | .isEqual => some .equal
  | .isNotEqual => some .notEqual
  | .isIdentical => some .identical
  | .isNotIdentical => some .notIdentical
  | .less => some .less
  | .isSmallerOrEqual => some .lessEqual
  | .greater => some .greater
  | .isGreaterOrEqual => some .greaterEqual
  | .spaceship => some .spaceship
  | .kwInstanceOf => some .instanceOf
  | _ => none

/-- The spelling of an operator.  Of two spellings the first is meant. -/
def text : BinaryOp → String
  | .add => "+"
  | .sub => "-"
  | .mul => "*"
  | .div => "/"
  | .mod => "%"
  | .pow => "**"
  | .concat => "."
  | .bitAnd => "&"
  | .bitOr => "|"
  | .bitXor => "^"
  | .shiftLeft => "<<"
  | .shiftRight => ">>"
  | .booleanAnd => "&&"
  | .booleanOr => "||"
  | .logicalAnd => "and"
  | .logicalOr => "or"
  | .logicalXor => "xor"
  | .equal => "=="
  | .notEqual => "!="
  | .identical => "==="
  | .notIdentical => "!=="
  | .less => "<"
  | .lessEqual => "<="
  | .greater => ">"
  | .greaterEqual => ">="
  | .spaceship => "<=>"
  | .instanceOf => "instanceof"

end BinaryOp

/-- Operators before one operand that are neither casts nor updates. -/
inductive UnaryOp where
  | plus | minus | not | bitNot
deriving DecidableEq, Repr, Inhabited

namespace UnaryOp

def label : UnaryOp → String
  | .plus => "Plus"
  | .minus => "Minus"
  | .not => "Not"
  | .bitNot => "BitNot"

def ofToken? : TokenKind → Option UnaryOp
  | .plus => some .plus
  | .minus => some .minus
  | .bang => some .not
  | .tilde => some .bitNot
  | _ => none

end UnaryOp

/-- Assignment operators.  Plain assignment is `assign`. -/
inductive AssignOp where
  | assign | add | sub | mul | div | concat | mod | bitAnd | bitOr | bitXor | shiftLeft
  | shiftRight | pow | coalesce
deriving DecidableEq, Repr, Inhabited

namespace AssignOp

def label : AssignOp → String
  | .assign => "Assign"
  | .add => "Add"
  | .sub => "Sub"
  | .mul => "Mul"
  | .div => "Div"
  | .concat => "Concat"
  | .mod => "Mod"
  | .bitAnd => "BitAnd"
  | .bitOr => "BitOr"
  | .bitXor => "BitXor"
  | .shiftLeft => "ShiftLeft"
  | .shiftRight => "ShiftRight"
  | .pow => "Pow"
  | .coalesce => "Coalesce"

def ofToken? : TokenKind → Option AssignOp
  | .equal => some .assign
  | .plusEqual => some .add
  | .minusEqual => some .sub
  | .mulEqual => some .mul
  | .divEqual => some .div
  | .concatEqual => some .concat
  | .modEqual => some .mod
  | .andEqual => some .bitAnd
  | .orEqual => some .bitOr
  | .xorEqual => some .bitXor
  | .shiftLeftEqual => some .shiftLeft
  | .shiftRightEqual => some .shiftRight
  | .powEqual => some .pow
  | .coalesceEqual => some .coalesce
  | _ => none

end AssignOp

inductive UpdateOp where
  | increment | decrement
deriving DecidableEq, Repr, Inhabited

namespace UpdateOp

def label : UpdateOp → String
  | .increment => "Increment"
  | .decrement => "Decrement"

def ofToken? : TokenKind → Option UpdateOp
  | .inc => some .increment
  | .dec => some .decrement
  | _ => none

end UpdateOp

inductive CastType where
  | int | float | string | array | object | bool | unset
deriving DecidableEq, Repr, Inhabited

namespace CastType

def label : CastType → String
  | .int => "Int"
  | .float => "Float"
  | .string => "String"
  | .array => "Array"
  | .object => "Object"
  | .bool => "Bool"
  | .unset => "Unset"

def ofToken? : TokenKind → Option CastType
  | .intCast => some .int
  | .doubleCast => some .float
  | .stringCast => some .string
  | .arrayCast => some .array
  | .objectCast => some .object
  | .boolCast => some .bool
  | .unsetCast => some .unset
  | _ => none

end CastType

end PhpSyntax
