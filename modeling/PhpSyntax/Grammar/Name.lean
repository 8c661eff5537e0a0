import PhpSyntax.Parse.Action

namespace PhpSyntax.Grammar
open PhpSyntax.Parser

def identifierHere : Parser Node := do
  let o ← openNode
  let word ← text
  advance
  finish o (.identifier word)

def identifier : Parser Node := do
  if ← isAt .identifier then identifierHere else missing (.kind .identifier)

def memberName : Parser Node := do
  if (← isAt .identifier) || (← isIn .identifier) then identifierHere
  else missing (.category .identifier)

def withoutDollar (text : String) : String :=
  match text.toList with
  | '$' :: cs => String.ofList cs
  | _ => text

def variableName : Parser Node := do
  if ← isAt .variable then
    let o ← openNode
    let word ← text
    advance
    finish o (.identifier (withoutDollar word))
  else
    missing (.kind .variable)

/-- The segments of a name behind the first.  A separator that no segment follows
is left: it stands before the braces of a group of imports. -/
def segments : Parser (List String) := do
  if (← isAt .nsSeparator) && (← peek) = .identifier then
    advance
    let word ← text
    advance
    return word :: (← call .segments)
  else
    return []

/-- The segments of a name from the first one on.  `lead` is the part of the name in
front of them and `resolution` what the tokens in front of them make of it; without
any, the number of segments decides. -/
def nameFrom (o : Opened) (lead : String) (resolution : NameResolution) : Parser Node := do
  if ← isAt .identifier then
    let first ← text
    advance
    let rest ← call .segments
    let resolution :=
      if resolution = .unqualified && !rest.isEmpty then .qualified else resolution
    finish o (.name (lead ++ "\\".intercalate (first :: rest)) resolution)
  else
    abandon o (← missing (.kind .identifier))

def name : Parser Node := do
  let o ← openNode
  if ← isAt .kwNamespace then
    advance
    require .nsSeparator
    nameFrom o "" .relative
  else if ← eat .nsSeparator then
    nameFrom o "\\" .fullyQualified
  else
    nameFrom o "" .unqualified

end PhpSyntax.Grammar
