import PhpSyntax.Grammar.Callable
import PhpSyntax.Grammar.Lookup

namespace PhpSyntax.Grammar
open PhpSyntax.Parser

/-! ## Members -/

/-- Modifiers with one more.  The message says what is wrong if there is one of its
sort already. -/
def addModifier (m : Modifiers) (k : TokenKind) : Modifiers × Option String :=
  let visible (v : Visibility) : Modifiers × Option String :=
    ({ m with visibility := some v },
     if m.visibility.isSome then
       some "Parse Error : Multiple access type modifiers are not allowed"
     else none)
  match k with
  | .kwPublic => visible .public
  | .kwProtected => visible .protected
  | .kwPrivate => visible .private
  | .kwStatic =>
    ({ m with isStatic := true },
     if m.isStatic then some "Parse Error : Multiple static modifiers are not allowed" else none)
  | .kwAbstract =>
    ({ m with isAbstract := true },
     if m.isAbstract then some "Parse Error : Multiple abstract modifiers are not allowed"
     else none)
  | .kwFinal =>
    ({ m with isFinal := true },
     if m.isFinal then some "Parse Error : Multiple final modifiers are not allowed" else none)
  | _ => (m, none)

def memberModifiers (before : Modifiers) : Parser Modifiers := do
  if ← isIn .memberModifier then
    let (m, message) := addModifier before (← kind)
    match message with
    | some message =>
      let _ ← objection .unexpectedToken message
    | none => pure ()
    advance
    call (.memberModifiers m)
  else
    return before

def constant (reserved : Bool) : Parser Node := do
  let o ← openNode
  let name ← if reserved then memberName else identifier
  require .equal
  let value ← expression
  finish o (.constant name value)

def property : Parser Node := do
  let o ← openNode
  let name ← variableName
  let value ← initialValue
  finish o (.property name value)

/-- Properties whose modifiers have been read.  A type needs PHP 7.4. -/
def propertyStatement (o : Opened) (modifiers : Modifiers) : Parser Node := do
  let (type, nullable) ←
    if ← isAt .variable then pure (none, false)
    else do
      requireOption Options.php74
      let nullable ← eat .question
      let type ← typeName
      pure (some type, nullable)
  let properties ← separated .comma .property
  endStatement
  finish o (.propertyStatement properties modifiers type nullable)

def classConstant (o : Opened) (modifiers : Modifiers) : Parser Node := do
  advance
  let constants ← separated .comma (.constant true)
  endStatement
  finish o (.classConstant constants modifiers)

/-- The rest of a group of braces of which `depth` are open.  The first brace is
part of the rest. -/
def braceGroup (depth : Nat) : Parser Unit := do
  match ← kind with
  | .eof =>
    let _ ← missing (.kind .rBrace)
  | k =>
    let depth := match k with
      | .lBrace => depth + 1
      | .rBrace => depth - 1
      | _ => depth
    advance
    if depth = 0 then pure () else call (.braceGroup depth)

/-- The use of traits.  A block of adaptations is kept as it is written. -/
def traitUse : Parser Node := do
  let o ← openNode
  advance
  let traits ← separated .comma .name
  if ← isAt .lBrace then
    let start ← read (·.stream.current.start.offset)
    call (.braceGroup 0)
    let adaptations ← read fun s => s.stream.textBetween start s.stream.prev.offset
    finish o (.traitUse traits (some adaptations))
  else
    endStatement
    finish o (.traitUse traits none)

def startsPropertyType : TokenKind → Bool
  | .question | .identifier | .nsSeparator | .kwNamespace | .kwArray | .kwCallable => true
  | _ => false

/-- A member whose modifiers have been read.  A token that no member has there is
skipped, unless it closes something. -/
def memberAfter (o : Opened) (m : Modifiers) : Parser Node := do
  let k ← kind
  if k = .kwConst then classConstant o m
  else if k = .kwFunction then method o m
  else if k = .variable || (startsPropertyType k && m ≠ .none) then propertyStatement o m
  else
    let n ← abandon o (← missing (.oneOf [.kwConst, .variable, .kwFunction]))
    if !TokenSet.closers.contains (← kind) then advance
    return n

def member : Parser Node := do
  if ← isAt .kwUse then traitUse
  else
    let o ← openNode
    if ← eat .kwVar then propertyStatement o .none
    else
      let m ← call (.memberModifiers .none)
      memberAfter o m

def members : Parser (List Node) := statementList (isAt .rBrace) member .members

/-! ## Declarations -/

/-- The flags in front of a class.  A flag may stand there once, and not beside the
other one. -/
def classFlags (isAbstract isFinal : Bool) : Parser (Bool × Bool) := do
  let add (repeated isAbstract isFinal : Bool) : Parser (Bool × Bool) := do
    if repeated then
      let _ ← objection .unexpectedToken "Parse Error : Multiple class modifiers are not allowed"
    else if isAbstract && isFinal then
      let _ ← objection .unexpectedToken
        "Parse Error : Cannot use the final modifier on an abstract class"
    advance
    call (.classFlags isAbstract isFinal)
  match ← kind with
  | .kwAbstract => add isAbstract true isFinal
  | .kwFinal => add isFinal isAbstract true
  | _ => return (isAbstract, isFinal)

def classBody : Parser (List Node) := do
  if ← expect .lBrace then
    let ms ← call .members
    require .rBrace
    return ms
  else
    return []

def namesAfter (k : TokenKind) : Parser (List Node) := do
  if ← eat k then separated .comma .name else return []

def heritage : Parser (Option Node × List Node) := do
  let parent ← after .kwExtends (call .name)
  let interfaces ← namesAfter .kwImplements
  return (parent, interfaces)

def classDeclaration : Parser Node := do
  let o ← openNode
  let (isAbstract, isFinal) ← call (.classFlags false false)
  if ← eat .kwClass then
    let name ← identifier
    let (parent, interfaces) ← heritage
    let body ← classBody
    finish o (.class (some name) parent interfaces body isAbstract isFinal false)
  else
    abandon o (← missing (.kind .kwClass))

def anonymousClass : Parser (Node × List Node) := do
  let o ← openNode
  advance
  let args ← argumentsIfAny
  let (parent, interfaces) ← heritage
  let body ← classBody
  let n ← finish o (.class none parent interfaces body false false true)
  return (n, args)

def interfaceDeclaration : Parser Node := do
  let o ← openNode
  advance
  let name ← identifier
  let parents ← namesAfter .kwExtends
  let body ← classBody
  finish o (.interface name parents body)

def traitDeclaration : Parser Node := do
  let o ← openNode
  advance
  let name ← identifier
  let body ← classBody
  finish o (.trait name body)

end PhpSyntax.Grammar
