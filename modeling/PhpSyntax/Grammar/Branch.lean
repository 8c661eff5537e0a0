/-
Conditionals, choices and handlers.

The branches of a conditional nest: an `elseif` is a conditional in the place of
the alternate.  In the short form the keyword at the end closes the whole chain;
in the long form an `elseif` chooses its form anew.
-/
import PhpSyntax.Grammar.Sequence

namespace PhpSyntax.Grammar
open PhpSyntax.Parser

/-! ## Conditionals -/

def branchEnds : TokenSet := .ofList [.kwEndIf, .kwElseIf, .kwElse]

def shortElse : Parser Node := do
  advance
  require .colon
  let o ← openNode
  let children ← call (.statements (.ofList [.kwEndIf]))
  finish o (.block children)

/-- The body of a branch in the short form, and the branches behind it. -/
def shortBranch : Parser (Node × Option Node) := do
  let o ← openNode
  let children ← call (.statements branchEnds)
  let body ← finish o (.block children)
  match ← kind with
  | .kwElseIf => return (body, some (← call .shortElseIf))
  | .kwElse => return (body, some (← shortElse))
  | _ => return (body, none)

def shortElseIf : Parser Node := do
  let o ← openNode
  advance
  let test ← condition
  require .colon
  let (body, alternate) ← shortBranch
  finish o (.if test body alternate true)

/-- A conditional from `if` on, or from an `elseif` in the long form. -/
def ifStatement : Parser Node := do
  let o ← openNode
  advance
  let test ← condition
  if ← eat .colon then
    let (body, alternate) ← shortBranch
    require .kwEndIf
    endStatement
    finish o (.if test body alternate true)
  else
    let body ← call .statement
    match ← kind with
    | .kwElseIf =>
      let alternate ← call .ifStatement
      finish o (.if test body (some alternate) false)
    | .kwElse =>
      advance
      let alternate ← call .statement
      finish o (.if test body (some alternate) false)
    | _ => finish o (.if test body none false)

/-! ## Choices -/

def caseTest : Parser (Option Node) := do
  match ← kind with
  | .kwCase =>
    advance
    return some (← expression)
  | .kwDefault =>
    advance
    return none
  | _ => return some (← missing (.oneOf [.kwCase, .kwDefault]))

def caseClause (close : TokenKind) : Parser Node := do
  let o ← openNode
  let test ← caseTest
  match ← kind with
  | .colon | .semicolon => advance
  | _ =>
    let _ ← missing (.oneOf [.colon, .semicolon])
  let body ← call (.statements (.ofList [.kwCase, .kwDefault, close]))
  finish o (.case test body)

def cases (close : TokenKind) : Parser (List Node) := do
  if (← atEnd) || (← isAt close) then return []
  else
    let n ← caseClause close
    return n :: (← call (.cases close))

/-- Open the cases.  The answer is the token that closes them. -/
def openCases : Parser TokenKind := do
  match ← kind with
  | .colon =>
    advance
    return .kwEndSwitch
  | .lBrace =>
    advance
    return .rBrace
  | _ =>
    let _ ← missing (.oneOf [.lBrace, .colon])
    return .rBrace

/-- A node for comments to lead where there are no cases. -/
def commentsAlone : Parser (List Node) := do
  let unread ← read fun s => !(s.trivia.unread s.stream.comments).isEmpty
  if unread then
    let o ← openNode
    let n ← finish o .noop
    return [n]
  else
    return []

def caseList : Parser Node := do
  let o ← openNode
  let close ← openCases
  let _ ← eat .semicolon
  let children ← call (.cases close)
  let children ← if children.isEmpty then commentsAlone else pure children
  require close
  if close = .kwEndSwitch then endStatement
  finish o (.block children)

def switchStatement : Parser Node := do
  let o ← openNode
  advance
  let test ← condition
  let shortform ← isAt .colon
  let body ← caseList
  finish o (.switch test body shortform)

/-! ## Handlers -/

def handler : Parser Node := do
  let o ← openNode
  advance
  require .lParen
  let types ← separated .pipe .name
  let var ← call .simpleVariable
  require .rParen
  let body ← block
  finish o (.catch types var body)

def handlers : Parser (List Node) := do
  if ← isAt .kwCatch then
    let n ← handler
    return n :: (← call .handlers)
  else
    return []

def tryStatement : Parser Node := do
  let o ← openNode
  advance
  let body ← block
  let catches ← call .handlers
  let always ← after .kwFinally block
  finish o (.try body catches always)

end PhpSyntax.Grammar
