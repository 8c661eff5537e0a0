import PhpSyntax.Grammar.Name
import PhpSyntax.Grammar.Sequence

namespace PhpSyntax.Grammar
open PhpSyntax.Parser

/-- A type: a built-in one that is a keyword, or a name. -/
def typeName : Parser Node := do
  match ← kind with
  | .kwArray | .kwCallable =>
    let o ← openNode
    let word ← text
    advance
    finish o (.name word.toLower .unqualified)
  | _ => call .name

def returnType : Parser (Option Node × Bool) := do
  if ← isAt .colon then
    requireOption Options.php7
    advance
    let nullable ← eat .question
    let type ← typeName
    return (some type, nullable)
  else
    return (none, false)

def initialValue : Parser (Option Node) := after .equal expression

def parameter : Parser Node := do
  let o ← openNode
  let nullable ← eat .question
  let k ← kind
  let typed := !(k = .amp || k = .ellipsis || k = .variable)
  let typeHint ← optionally typed typeName
  let byRef ← eat .amp
  let variadic ← eat .ellipsis
  let name ← variableName
  let default ← initialValue
  finish o (.parameter name typeHint default byRef variadic nullable)

def parameters : Parser (List Node) := do
  if ← expect .lParen then delimited .rParen .parameter else return []

def functionDeclaration : Parser Node := do
  let o ← openNode
  advance
  let byRef ← eat .amp
  let name ← identifier
  let arguments ← parameters
  let (type, nullable) ← returnType
  let body ← block
  finish o (.function name arguments byRef type nullable body)

/-- A method whose modifiers have been read.  From PHP 7 on its name may be a
reserved word.  A semicolon stands for a missing body. -/
def method (o : Opened) (modifiers : Modifiers) : Parser Node := do
  advance
  let byRef ← eat .amp
  let name ← if ← option Options.php7 then memberName else identifier
  let arguments ← parameters
  let (type, nullable) ← returnType
  if ← isAt .semicolon then
    endStatement
    finish o (.method name arguments byRef type nullable none modifiers)
  else
    let body ← block
    finish o (.method name arguments byRef type nullable (some body) modifiers)

def lexicalVariable : Parser Node := do
  if ← isAt .amp then
    let o ← openNode
    advance
    let n ← call .simpleVariable
    finish o (.byRef n)
  else
    call .simpleVariable

def lexicalVariables : Parser (List Node) := do
  if ← eat .kwUse then
    if ← expect .lParen then delimited .rParen .lexicalVariable else return []
  else
    return []

def closure (o : Opened) (isStatic : Bool) : Parser Node := do
  advance
  let byRef ← eat .amp
  let arguments ← parameters
  let uses ← lexicalVariables
  let (type, nullable) ← returnType
  let body ← block
  finish o (.closure arguments uses byRef type nullable body isStatic)

def arrowFunction (o : Opened) (isStatic : Bool) : Parser Node := do
  advance
  let byRef ← eat .amp
  let arguments ← parameters
  let (type, nullable) ← returnType
  require .doubleArrow
  let body ← expression
  finish o (.arrowFunc arguments byRef type nullable body isStatic)

end PhpSyntax.Grammar
