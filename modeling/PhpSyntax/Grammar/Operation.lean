/-
Expressions.

An expression is an operand with the operators behind it that bind tightly enough.
An operator behind an operand takes an expression of tighter operators to its
right, or of equally tight ones if it groups to the right.  An assignment is part of
the operand: its target and operator are followed by a whole expression.
-/
import PhpSyntax.Grammar.ClassLike
import PhpSyntax.Grammar.Literal
import PhpSyntax.Operator.Infix

namespace PhpSyntax.Grammar
open PhpSyntax.Parser

/-! ## Operators between operands -/

def expressionFrom (min : Nat) : Parser Node := do
  let left ← call .operand
  call (.infixes min left)

def infixOperation (op : Infix) (left : Node) : Parser (Production Node) := do
  let right := call (.expression op.rightMin)
  match op with
  | .binary op =>
    if op = .spaceship then requireOption Options.php7
    advance
    return .bin op left (← right)
  | .coalesce =>
    requireOption Options.php7
    advance
    return .coalesce left (← right)
  | .ternary =>
    advance
    if ← eat .colon then return .ternary left none (← right)
    else
      let middle ← expression
      require .colon
      return .ternary left (some middle) (← right)

def infixes (min : Nat) (left : Node) : Parser Node := do
  match Infix.ofToken? (← kind) with
  | none => return left
  | some op =>
    if op.precedence < min then return left
    else
      let o ← openAt left.span.start
      let p ← infixOperation op left
      let n ← finish o p
      call (.infixes min n)

/-! ## Assignment -/

/-- Whether a node looks like a target and is none. -/
def isConstantName (n : Node) : Bool :=
  match n.production with
  | .name .. | .boolean .. | .null .. => true
  | _ => false

/-- An assignment to `left` from the operator on.  An ampersand behind a plain one
binds a reference. -/
def assignment (left : Node) (op : AssignOp) : Parser Node := do
  let o ← openAt left.span.start
  if isConstantName left then
    let _ ← missing (.category .variable)
  if op = .coalesce then requireOption Options.php74
  advance
  let byRef ← isAt .amp
  let right ← if op = .assign && byRef then call (.variable false) else expression
  finish o (.assign op left right)

def destructuring (list : Node) : Parser Node := do
  if ← isAt .equal then assignment list .assign
  else
    let o ← openAt list.span.start
    let right ← missing (.kind .equal)
    finish o (.assign .assign list right)

def assignable : Parser Node := do
  let target ← call (.variable false)
  let k ← kind
  match AssignOp.ofToken? k with
  | some op => assignment target op
  | none =>
    match UpdateOp.ofToken? k with
    | some op =>
      let o ← openAt target.span.start
      advance
      finish o (.post op target)
    | none => return target

/-- A literal.  A short array before an equals sign is a list; arrays and strings
have lookups. -/
def literal : Parser Node := do
  let short ← isAt .lBracket
  let n ← scalar
  if short && (← isAt .equal) then assignment n.asPattern .assign
  else
    match n.production with
    | .array .. | .string .. => call (.lookups n false)
    | _ => return n

/-! ## Operators and keywords before an operand -/

def withOperand (min : Nat) (p : Node → Production Node) : Parser Node := do
  let o ← openNode
  advance
  let n ← call (.expression min)
  finish o (p n)

def yieldOperation : Parser Node := do
  let o ← openNode
  advance
  if TokenSet.closers.contains (← kind) then finish o (.yield none none)
  else
    let first ← call (.expression keywordOperandMin)
    match ← after .doubleArrow (call (.expression keywordOperandMin)) with
    | some value => finish o (.yield (some first) (some value))
    | none => finish o (.yield none (some first))

def preUpdate (op : UpdateOp) : Parser Node := do
  let o ← openNode
  advance
  let n ← call (.variable false)
  finish o (.pre op n)

def withCondition (p : Node → Production Node) : Parser Node := do
  let o ← openNode
  advance
  let n ← condition
  finish o (p n)

def issetOperation : Parser Node := do
  let o ← openNode
  advance
  let vs ← if ← expect .lParen then delimited .rParen (.variable false) else pure []
  finish o (.isset vs)

def exitOperation : Parser Node := do
  let o ← openNode
  let useDie := startsWith "die" (← text).toList
  advance
  if ← eat .lParen then
    let status ← optionally (!(← isAt .rParen)) expression
    require .rParen
    finish o (.exit status useDie)
  else
    finish o (.exit none useDie)

def instantiated : Parser Node := do
  match ← kind with
  | .variable | .dollar | .kwStatic => call (.variable true)
  | .identifier | .nsSeparator | .kwNamespace => call .name
  | _ => missing (.oneOf [.kwClass, .identifier, .variable])

def newOperation : Parser Node := do
  let o ← openNode
  advance
  if ← isAt .kwClass then
    let (n, args) ← anonymousClass
    finish o (.new n args)
  else
    let n ← instantiated
    let args ← argumentsIfAny
    finish o (.new n args)

def staticFunction : Parser Node := do
  let o ← openNode
  advance
  if ← isAt .kwFunction then closure o true else arrowFunction o true

def parenthesis : Parser Node := do
  let o ← openNode
  advance
  let inner ← expression
  require .rParen
  let n ← finish o (.parenthesis inner)
  call (.lookups n false)

def shellCommand : Parser Node := do
  let o ← openNode
  let raw ← text
  advance
  finish o (.encapsed raw .shell)

/-- The error that no operand is here.  The token is skipped, unless it closes
something. -/
def noOperand : Parser Node := do
  let n ← missing (.category .expression)
  if !TokenSet.closers.contains (← kind) then advance
  return n

def simpleOperand : Parser Node := do
  if ← isIn .variable then assignable
  else if ← isIn .scalar then literal
  else noOperand

/-- An operand that an operator or a keyword begins, if a token of kind `k` does. -/
def keywordOperand (k : TokenKind) : Parser Node := do
  match k with
  | .at => withOperand castOperandMin .silent
  | .kwClone =>
    let o ← openNode
    advance
    let n ← call .operand
    finish o (.clone n)
  | .kwPrint => withOperand keywordOperandMin .print
  | .kwInclude => withOperand keywordOperandMin (.include · false false)
  | .kwIncludeOnce => withOperand keywordOperandMin (.include · true false)
  | .kwRequire => withOperand keywordOperandMin (.include · false true)
  | .kwRequireOnce => withOperand keywordOperandMin (.include · true true)
  | .kwYield => yieldOperation
  | .kwYieldFrom => withOperand keywordOperandMin .yieldFrom
  | .lParen => parenthesis
  | .shellCommand => shellCommand
  | .kwList => destructuring (← listPattern)
  | .inc => preUpdate .increment
  | .dec => preUpdate .decrement
  | .kwNew => newOperation
  | .kwIsset => issetOperation
  | .kwEmpty => withCondition .empty
  | .kwEval => withCondition .eval
  | .kwExit => exitOperation
  | .kwFunction => closure (← openNode) false
  | .kwFn => arrowFunction (← openNode) false
  | .kwStatic =>
    let next ← peek
    if next = .kwFunction || next = .kwFn then staticFunction else simpleOperand
  | _ => simpleOperand

def operand : Parser Node := do
  let k ← kind
  match UnaryOp.ofToken? k, CastType.ofToken? k with
  | some op, _ => withOperand op.operandMin (.unary op)
  | none, some type =>
    let raw ← text
    withOperand castOperandMin (.cast type raw)
  | none, none => keywordOperand k

end PhpSyntax.Grammar
