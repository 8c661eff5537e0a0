/-
Statements that open or end a scope: namespaces, imports, declare statements and
the end of the code.

A namespace without braces, and a declare statement without a body, own the
statements behind them up to the next one of their kind.
-/
import PhpSyntax.Grammar.Statement

namespace PhpSyntax.Grammar
open PhpSyntax.Parser

/-! ## Imports -/

def useKind : Parser (Option UseKind) := do
  match ← kind with
  | .kwFunction =>
    advance
    return some .function
  | .kwConst =>
    advance
    return some .const
  | _ => return none

def useItemNamed (o : Opened) (n : Node) (k : UseKind) : Parser Node := do
  let localName ← after .kwAs identifier
  finish o (.useItem n localName k)

/-- An import.  In a mixed group it may name a kind of its own. -/
def useItem (k : UseKind) (mixed : Bool) : Parser Node := do
  let o ← openNode
  let k ← if mixed then pure ((← useKind).getD k) else pure k
  let n ← call .name
  useItemNamed o n k

/-- Imports, separately or in a group behind their common start.  A group needs
PHP 7. -/
def useStatement : Parser Node := do
  let o ← openNode
  advance
  let declared ← useKind
  let k := declared.getD .class
  let first ← openNode
  let n ← call .name
  if (← isAt .nsSeparator) && (← peek) = .lBrace then
    let n ← abandon first n
    requireOption Options.php7
    advance
    advance
    let items ← delimited .rBrace (.useItem k declared.isNone)
    endStatement
    finish o (.useGroup (some n) k items)
  else
    let item ← useItemNamed first n k
    let items ← if ← eat .comma then separated .comma (.useItem k false) else pure []
    endStatement
    finish o (.useGroup none k (item :: items))

/-! ## Namespaces -/

/-- Whether a declaration starts here.  The keyword with a separator behind it starts
a relative name. -/
def atNamespace : Parser Bool := do
  return (← isAt .kwNamespace) && (← peek) ≠ .nsSeparator

/-- The statements of a namespace, and whether they stand in braces.  Without a name
they have to. -/
def namespaceBody (anonymous : Bool) : Parser (List Node × Bool) := do
  if ← eat .lBrace then
    let children ← call (.topStatements closeBrace)
    require .rBrace
    return (children, true)
  else if anonymous then
    let _ ← missing (.kind .lBrace)
    return ([], false)
  else
    endStatement
    return (← call .namespaceStatements, false)

def namespaceDeclaration : Parser Node := do
  let o ← openNode
  let nested ← read fun s => decide (0 < s.namespaceDepth)
  if nested then
    let _ ← objection .nestedNamespace "Parse Error : Namespace declarations cannot be nested"
  advance
  let name ← optionally (← isAt .identifier) (call .name)
  modify fun s => { s with namespaceDepth := s.namespaceDepth + 1 }
  let (children, withBraces) ← namespaceBody name.isNone
  modify fun s => { s with namespaceDepth := s.namespaceDepth - 1 }
  finish o (.namespace name children withBraces)

/-! ## Declare statements -/

def directive : Parser Node := do
  let o ← openNode
  let key ← identifier
  require .equal
  let value ← expression
  finish o (.declareDirective key value)

/-- The tokens where a declare statement without a body ends. -/
def declareEnds : TokenSet := .ofList [.kwDeclare, .kwNamespace, .rBrace]

def declareBody : Parser (List Node × DeclareMode) := do
  match ← kind with
  | .colon =>
    advance
    let children ← call (.statements (.ofList [.kwEndDeclare]))
    require .kwEndDeclare
    endStatement
    return (children, .short)
  | .lBrace =>
    advance
    let children ← call (.topStatements closeBrace)
    require .rBrace
    return (children, .block)
  | _ =>
    endStatement
    return (← call (.topStatements declareEnds), .none)

def declareStatement : Parser Node := do
  let o ← openNode
  advance
  let directives ← if ← expect .lParen then delimited .rParen .directive else pure []
  let (children, mode) ← declareBody
  finish o (.declare directives children mode)

/-! ## The end of the code -/

/-- Stop reading behind the current token.  The answer is the text behind it. -/
def halt : Parser String :=
  update fun s => let (text, stream) := s.stream.halt; (text, { s with stream := stream })

/-- The end of the code.  In the outermost scope reading stops behind the semicolon;
anywhere else it is an error and the parse goes on. -/
def haltCompiler (outermost : Bool) : Parser Node := do
  if !outermost then
    let _ ← objection .unexpectedToken
      "Parse Error : __HALT_COMPILER() can only be used from the outermost scope"
  let o ← openNode
  advance
  require .lParen
  require .rParen
  if outermost then
    if !(← isAt .semicolon) then
      let _ ← missing (.kind .semicolon)
    let after ← halt
    finish o (.haltCompiler after)
  else
    endStatement
    finish o (.haltCompiler "")

/-! ## Statements by their first token -/

def startsStaticList (next : TokenKind) : Bool :=
  !(next = .doubleColon || next = .kwFunction || next = .kwFn)

def statement : Parser Node := do
  let next ← peek
  match ← kind with
  | .lBrace => block
  | .kwIf => call .ifStatement
  | .kwSwitch => switchStatement
  | .kwFor => forStatement
  | .kwForeach => foreachStatement
  | .kwWhile => whileStatement
  | .kwDo => doStatement
  | .kwBreak => withOptionalExpression .break
  | .kwContinue => withOptionalExpression .continue
  | .kwReturn => withOptionalExpression .return
  | .kwGlobal => withItems .simpleVariable .global
  | .kwStatic =>
    if startsStaticList next then withItems .staticVariable .static else expressionStatement
  | .kwEcho => echoStatement
  | .inlineHtml => inlineHtml
  | .kwUnset => unsetStatement
  | .kwDeclare => declareStatement
  | .kwTry => tryStatement
  | .kwThrow => throwStatement
  | .kwGoto => gotoStatement
  | .identifier => if next = .colon then label else expressionStatement
  | .semicolon => emptyStatement
  | _ => expressionStatement

def innerStatement : Parser Node := do
  let next ← peek
  match ← kind with
  | .kwFunction => if next = .lParen then call .statement else functionDeclaration
  | .kwAbstract | .kwFinal | .kwClass => classDeclaration
  | .kwInterface => interfaceDeclaration
  | .kwTrait => traitDeclaration
  | .kwHaltCompiler => haltCompiler false
  | _ => call .statement

def topStatement : Parser Node := do
  if ← atNamespace then namespaceDeclaration
  else
    match ← kind with
    | .kwUse => useStatement
    | .kwConst => withItems (.constant false) .constantStatement
    | .kwHaltCompiler => haltCompiler true
    | _ => innerStatement

def stopsAt (stop : TokenSet) : Parser Bool := read fun s => stop.contains s.stream.current.kind

def statements (stop : TokenSet) : Parser (List Node) :=
  statementList (stopsAt stop) innerStatement (.statements stop)

def topStatements (stop : TokenSet) : Parser (List Node) :=
  statementList (stopsAt stop) topStatement (.topStatements stop)

def namespaceStatements : Parser (List Node) :=
  statementList atNamespace topStatement .namespaceStatements

end PhpSyntax.Grammar
