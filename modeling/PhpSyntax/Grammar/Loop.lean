/-
Loops.

The punctuation in the header of a counted loop and of a loop over a collection is
recorded as anchors of the loop.  An anchor is the boundary behind its token, with
the column moved back to the first column of the token.
-/
import PhpSyntax.Grammar.Literal
import PhpSyntax.Grammar.Sequence

namespace PhpSyntax.Grammar
open PhpSyntax.Parser

/-- The anchor of a token of the given width that has just been consumed. -/
def anchorBehind (width : Nat) : Parser Position := read fun s => s.stream.prev.back width

/-- Consume a token of kind `k` and the given width.  Its anchor is missing if the
token is. -/
def anchored (k : TokenKind) (width : Nat) : Parser (Option Position) := do
  optionally (← expect k) (anchorBehind width)

def withAnchors (n : Node) (anchors : List (Anchor × Option Position)) : Node :=
  { n with span := n.span.setAnchors anchors }

def loopBody (close : TokenKind) : Parser (Node × Bool) := do
  if ← isAt .colon then return (← shortBlock close, true)
  else return (← call .statement, false)

def whileStatement : Parser Node := do
  let o ← openNode
  advance
  let test ← condition
  let (body, shortform) ← loopBody .kwEndWhile
  finish o (.while test body shortform)

def doStatement : Parser Node := do
  let o ← openNode
  advance
  let body ← call .statement
  if ← eat .kwWhile then
    let test ← condition
    endStatement
    finish o (.do test body)
  else
    let test ← missing (.kind .kwWhile)
    finish o (.do test body)

/-- The expressions of one part of the header of a counted loop, and the anchor of
the token behind them. -/
def forPart (close : TokenKind) : Parser (List Node × Option Position) := do
  let exprs ← if ← isAt close then pure [] else separated .comma (.expression 0)
  let anchor ← anchored close 1
  return (exprs, anchor)

def forStatement : Parser Node := do
  let o ← openNode
  advance
  let leftParen ← anchored .lParen 1
  let (init, first) ← forPart .semicolon
  let (test, second) ← forPart .semicolon
  let (increment, rightParen) ← forPart .rParen
  let (body, shortform) ← loopBody .kwEndFor
  let n ← finish o (.for init test increment body shortform)
  return withAnchors n
    [(.leftParen, leftParen), (.firstSemicolon, first), (.secondSemicolon, second),
     (.rightParen, rightParen)]

def loopVariable : Parser Node := do
  match ← kind with
  | .kwList | .lBracket => listPattern
  | _ => call (.variable false)

structure LoopVariables where
  key : Option Node
  value : Node
  asAnchor : Option Position
  arrowAnchor : Option Position

def loopVariables : Parser LoopVariables := do
  if ← eat .kwAs then
    let asAnchor ← anchorBehind 2
    let first ← loopVariable
    if ← eat .doubleArrow then
      let arrowAnchor ← anchorBehind 2
      let value ← loopVariable
      return ⟨some first, value, some asAnchor, some arrowAnchor⟩
    else
      return ⟨none, first, some asAnchor, none⟩
  else
    return ⟨none, ← missing (.kind .kwAs), none, none⟩

def isList (n : Node) : Bool :=
  match n.production with
  | .list .. => true
  | _ => false

/-- A loop over a collection.  No key may be a destructuring list. -/
def foreachStatement : Parser Node := do
  let o ← openNode
  advance
  let leftParen ← anchored .lParen 1
  let source ← expression
  let vs ← loopVariables
  if vs.key.any isList then
    fatal .listAsKey "Fatal Error : Cannot use list as key element"
  else
    let rightParen ← anchored .rParen 1
    let (body, shortform) ← loopBody .kwEndForeach
    let n ← finish o (.foreach source vs.key vs.value body shortform)
    return withAnchors n
      [(.leftParen, leftParen), (.as, vs.asAnchor), (.arrow, vs.arrowAnchor),
       (.rightParen, rightParen)]

end PhpSyntax.Grammar
