/-
Literals in quotes.

Inside quotes a backslash and the character behind it belong together, so an
escaped quote does not close a literal.  A literal that is never closed is a bad
token up to the end of the text; a backslash with nothing behind it is not part
of it.
-/
import PhpSyntax.Lexeme.Basic

namespace PhpSyntax.Lexeme

/-- The number of characters up to and including the closing quote, or up to the
end of the text if there is none, and whether there is one. -/
def quotedLength (quote : Char) : List Char → Nat × Bool
  | [] => (0, false)
  | ['\\'] => (0, false)
  | '\\' :: _ :: r => let (n, closed) := quotedLength quote r; (n + 2, closed)
  | c :: r =>
    if c = quote then (1, true)
    else let (n, closed) := quotedLength quote r; (n + 1, closed)

/-- Whether a literal in double quotes has a variable in it: a dollar sign before
a word or a brace, or a brace before a dollar sign. -/
def interpolates : List Char → Bool
  | [] => false
  | '\\' :: _ :: r => interpolates r
  | '$' :: c :: r => c = '{' || isWordStart c || interpolates (c :: r)
  | '{' :: '$' :: _ => true
  | _ :: r => interpolates r

/-- The literal that `quote`, after `before` characters of the same token, starts
in front of `cs`. -/
def quotedFrom (before : Nat) (quote : Char) (cs : List Char) : Lexeme :=
  let (n, closed) := quotedLength quote cs
  let kind : TokenKind :=
    if !closed then .badCharacter
    else if quote = '`' then .shellCommand
    else if quote = '"' && interpolates (cs.take n) then .encapsedString
    else .constantString
  ⟨kind, before + 1 + n⟩

/-- A literal in quotes.  The letter `b` may stand before single and double
quotes. -/
def quoted? (cs : List Char) : Option Lexeme :=
  match cs with
  | '\'' :: r => some (quotedFrom 0 '\'' r)
  | '"' :: r => some (quotedFrom 0 '"' r)
  | '`' :: r => some (quotedFrom 0 '`' r)
  | 'b' :: '\'' :: r | 'B' :: '\'' :: r => some (quotedFrom 1 '\'' r)
  | 'b' :: '"' :: r | 'B' :: '"' :: r => some (quotedFrom 1 '"' r)
  | _ => none

end PhpSyntax.Lexeme
