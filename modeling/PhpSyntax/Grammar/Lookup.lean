import PhpSyntax.Grammar.Name

namespace PhpSyntax.Grammar
open PhpSyntax.Parser

/-- `true`, `false` and `null` as bare names, in any case, are literals. -/
def literalConstant (n : Node) : Node :=
  match n.production with
  | .name word .unqualified =>
    match word.toLower with
    | "true" => { n with production := .boolean true word }
    | "false" => { n with production := .boolean false word }
    | "null" => { n with production := .null word }
    | _ => n
  | _ => n

/-- A variable without lookups: a name, or a computed name in braces or behind
another dollar sign. -/
def simpleVariable : Parser Node := do
  let o ← openNode
  match ← kind with
  | .variable =>
    let word ← text
    advance
    finish o (.variable (.named (withoutDollar word)))
  | .dollar =>
    advance
    if ← eat .lBrace then
      let n ← expression
      require .rBrace
      finish o (.variable (.dynamic n))
    else
      let n ← call .simpleVariable
      finish o (.variable (.dynamic n))
  | _ => abandon o (← missing (.kind .variable))

/-- A variable, a reference to one, or a name, with its lookups.  A name that
nothing is looked up in or called by may be a literal. -/
def variableWithLookups (readOnly : Bool) : Parser Node := do
  match ← kind with
  | .amp =>
    let o ← openNode
    advance
    let n ← call (.variable readOnly)
    finish o (.byRef n)
  | .variable | .dollar =>
    let n ← call .simpleVariable
    call (.lookups n readOnly)
  | .kwStatic =>
    let o ← openNode
    advance
    let n ← finish o (.name "static" .unqualified)
    call (.lookups n readOnly)
  | .identifier | .nsSeparator | .kwNamespace =>
    let n ← call .name
    let k ← kind
    call (.lookups (if k = .doubleColon || k = .lParen then n else literalConstant n) readOnly)
  | _ => missing (.category .variable)

def arguments : Parser (List Node) := do
  if ← expect .lParen then delimited .rParen .argument else return []

def argumentsIfAny : Parser (List Node) := do
  if ← isAt .lParen then arguments else return []

def argument : Parser Node := do
  if ← isAt .ellipsis then
    let o ← openNode
    advance
    let n ← expression
    finish o (.variadic n)
  else
    expression

def takesBraceOffset (n : Node) : Bool :=
  match n.production with
  | .variable .. | .offsetLookup .. | .propertyLookup .. | .staticLookup .. => true
  | _ => false

def memberOf : Parser Node := do
  match ← kind with
  | .variable | .dollar => call .simpleVariable
  | _ => memberName

def lookup? (base : Node) (readOnly : Bool) : Parser (Option Node) := do
  match ← kind with
  | .lParen =>
    if readOnly then return none
    else
      let o ← openAt base.span.start
      let args ← arguments
      some <$> finish o (.call base args)
  | .lBracket =>
    let o ← openAt base.span.start
    advance
    let offset ← optionally (!(← isAt .rBracket)) expression
    require .rBracket
    some <$> finish o (.offsetLookup base offset)
  | .lBrace =>
    if takesBraceOffset base then
      let o ← openAt base.span.start
      advance
      let offset ← expression
      require .rBrace
      some <$> finish o (.offsetLookup base (some offset))
    else
      return none
  | .doubleColon =>
    let o ← openAt base.span.start
    advance
    let member ← memberOf
    some <$> finish o (.staticLookup base member)
  | .objectOperator =>
    let o ← openAt base.span.start
    advance
    if ← eat .lBrace then
      let member ← expression
      require .rBrace
      some <$> finish o (.propertyLookup base member)
    else
      let member ← memberOf
      some <$> finish o (.propertyLookup base member)
  | _ => return none

def lookups (base : Node) (readOnly : Bool) : Parser Node := do
  match ← lookup? base readOnly with
  | none => return base
  | some n => call (.lookups n readOnly)

end PhpSyntax.Grammar
