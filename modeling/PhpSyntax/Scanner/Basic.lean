/-
The scanner: from a source text to its tokens.

A `Scanner` is a place in a source text.  `Scanner.next` cuts one token off what
lies ahead, and `tokenize` cuts until nothing is left.  Tokens are cut off the
front without gaps, so their texts put together are the source text.
-/
import PhpSyntax.Token.Basic
import PhpSyntax.Scanner.Mode

namespace PhpSyntax

/-- A place in a source text: the whole text, the position reached, the language
there and the characters ahead. -/
structure Scanner where
  source : String
  position : Position
  mode : Mode
  ahead : List Char
deriving Repr, Inhabited

namespace Scanner

def ofSource (source : String) : Scanner := ⟨source, .origin, .html, source.toList⟩

def endPosition (s : Scanner) : Position := s.position.after s.ahead

def cut (s : Scanner) (l : Lexeme) : Token × Scanner :=
  let stop := s.position.after (s.ahead.take l.length)
  (⟨l.kind, String.ofList (s.ahead.take l.length), s.position, stop⟩,
   { s with position := stop, mode := s.mode.after l.kind, ahead := s.ahead.drop l.length })

/-- The next token and the place behind it.  At the end of the text there is no
token, and code ends there. -/
def next (s : Scanner) : Option Token × Scanner :=
  if s.ahead.isEmpty then (none, { s with mode := .html })
  else
    let (t, s') := s.cut (Lexeme.ofMode s.mode s.ahead)
    (some t, s')

def take : Nat → Scanner → List Token
  | 0, _ => []
  | n + 1, s =>
    match s.next with
    | (none, _) => []
    | (some t, s') => t :: take n s'

/-- The tokens from here to the end of the text.  No token is empty, so there are
at most as many as characters. -/
def tokens (s : Scanner) : List Token := s.take s.ahead.length

def finish (s : Scanner) : Scanner := { s with position := s.endPosition, mode := .html, ahead := [] }

end Scanner

def tokenize (source : String) : List Token := (Scanner.ofSource source).tokens

end PhpSyntax
