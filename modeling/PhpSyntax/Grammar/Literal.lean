/-
Literals, array literals and destructuring lists.

A destructuring list can be recognised as such when it is opened, or only behind
a short array literal, by the assignment that follows; in that case the array
literal is read as a list (`Node.asPattern`).
-/
import PhpSyntax.Grammar.Lookup
import PhpSyntax.Literal.Escape
import PhpSyntax.Literal.Nowdoc

namespace PhpSyntax

mutual

/-- A short array literal as a destructuring list, together with those inside. -/
def Node.asPattern : Node → Node
  | ⟨info, p⟩ => ⟨info, Production.asPattern p⟩

def Production.asPattern : Production Node → Production Node
  | .array items true => .list (Node.allAsPattern items) true
  | .entry key value unpack => .entry key value.asPattern unpack
  | p => p

def Node.allAsPattern : List Node → List Node
  | [] => []
  | n :: ns => n.asPattern :: Node.allAsPattern ns

end

namespace Grammar
open PhpSyntax.Parser

/-! ## Arrays and lists -/

/-- The opening of an array or list.  The answer is the token that closes it. -/
def openEntries (shortform : Bool) : Parser TokenKind := do
  advance
  if shortform then return .rBracket
  else
    require .lParen
    return .rParen

def arrayLiteral : Parser Node := do
  let o ← openNode
  let shortform ← isAt .lBracket
  let close ← openEntries shortform
  let items ← call (.entries close false)
  finish o (.array items shortform)

def listPattern : Parser Node := do
  let o ← openNode
  let shortform ← isAt .lBracket
  let close ← openEntries shortform
  let items ← call (.entries close true)
  finish o (.list items shortform)

/-- A key or a value of an entry: a reference, a list inside a list, or an
expression. -/
def entryPart (isPattern : Bool) : Parser Node := do
  match ← kind with
  | .amp => call (.variable false)
  | .kwList | .lBracket => if isPattern then listPattern else expression
  | _ => expression

def entry (isPattern : Bool) : Parser Node := do
  let o ← openNode
  if ← isAt .ellipsis then
    requireOption Options.php74
    advance
    let value ← expression
    finish o (.entry none value true)
  else
    let first ← entryPart isPattern
    match ← after .doubleArrow (entryPart isPattern) with
    | some value => finish o (.entry (some first) value false)
    | none => finish o (.entry none first false)

/-- Entries up to `close`.  In a list a place may be skipped: a comma that no entry
stands before leaves nothing in its place. -/
def entries (close : TokenKind) (isPattern : Bool) : Parser (List Node) := do
  if (← isAt close) || (← atEnd) then
    require close
    return []
  else if isPattern && (← isAt .comma) then
    let o ← openNode
    let n ← finish o .noop
    advance
    return n :: (← call (.entries close isPattern))
  else
    let n ← entry isPattern
    if ← eat .comma then return n :: (← call (.entries close isPattern))
    else
      require close
      return [n]

/-! ## Literals of one token -/

def stringLiteral (raw : String) : Production Node :=
  let (value, isDoubleQuote) := Literal.stringValue raw
  .string value raw isDoubleQuote

def heredocLiteral (raw : String) : Production Node :=
  match Literal.nowdoc? raw with
  | some (label, value) => .nowdoc raw label value
  | none => .encapsed raw .heredoc

/-- The production of a literal that is one token, if a token of kind `k` with the
text `raw` is one. -/
def literal? (k : TokenKind) (raw : String) : Option (Production Node) :=
  match k with
  | .lNumber | .dNumber => some (.number raw)
  | .constantString => some (stringLiteral raw)
  | .encapsedString => some (.encapsed raw .string)
  | .heredoc => some (heredocLiteral raw)
  | k => if k ∈ TokenKind.magicConstants then some (.magicConstant raw) else none

def scalar : Parser Node := do
  match ← kind with
  | .kwArray | .lBracket => arrayLiteral
  | k =>
    match literal? k (← text) with
    | some p =>
      let o ← openNode
      advance
      finish o p
    | none => missing (.category .scalar)

end Grammar
end PhpSyntax
