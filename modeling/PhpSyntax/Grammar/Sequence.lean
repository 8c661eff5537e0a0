import PhpSyntax.Parse.Action

namespace PhpSyntax.Grammar
open PhpSyntax.Parser

def separated (mark : TokenKind) (item : Rule .node) : Parser (List Node) := do
  let n ← call item
  if ← eat mark then return n :: (← call (.separated mark item))
  else return [n]

def delimited (close : TokenKind) (item : Rule .node) : Parser (List Node) := do
  if (← isAt close) || (← atEnd) then
    require close
    return []
  else
    let n ← call item
    if ← eat .comma then return n :: (← call (.delimited close item))
    else
      require close
      return [n]

/-- Statements that `statement` reads one by one, until `ends` holds or the input
ends; the later ones are those that `rest` yields.  A statement that consumed
nothing costs the token it stopped at. -/
def statementList (ends : Parser Bool) (statement : Parser Node) (rest : Rule .nodes) :
    Parser (List Node) := do
  if (← atEnd) || (← ends) then return []
  else
    let before ← read (·.stream.current.start)
    let n ← statement
    forceProgress before
    return n :: (← call rest)

def closeBrace : TokenSet := .ofList [.rBrace]

def block : Parser Node := do
  if ← isAt .lBrace then
    let o ← openNode
    advance
    let children ← call (.statements closeBrace)
    require .rBrace
    finish o (.block children)
  else
    missing (.kind .lBrace)

/-- Statements between a colon and the keyword `close`, with the end of the whole
statement. -/
def shortBlock (close : TokenKind) : Parser Node := do
  let o ← openNode
  require .colon
  let children ← call (.statements (.ofList [close]))
  require close
  endStatement
  finish o (.block children)

def condition : Parser Node := do
  require .lParen
  let n ← expression
  require .rParen
  return n

end PhpSyntax.Grammar
