/-
Lexemes: what a recogniser finds at the front of a text.

A recogniser looks at the characters ahead and answers with a kind and a number
of characters, or with nothing.  It never builds the text of the token: the
scanner cuts that off the front, so no recogniser can lose or change a
character.
-/
import PhpSyntax.Token.Kind

namespace PhpSyntax

/-- A kind of token and the number of characters of it that lie ahead. -/
structure Lexeme where
  kind : TokenKind
  length : Nat
deriving DecidableEq, Repr, Inhabited

def runLength (p : Char → Bool) (cs : List Char) : Nat := (cs.takeWhile p).length

/-! ## Classes of characters -/

/-- Blanks that may stand inside a cast or before a heredoc label. -/
def isBlank (c : Char) : Bool := c = ' ' || c = '\t'

def isSpace (c : Char) : Bool := isBlank c || c = '\n' || c = '\r'

/-- The first characters of words.  Every character beyond ASCII is one. -/
def isWordStart (c : Char) : Bool := c.isAlpha || c = '_' || 128 ≤ c.toNat

def isWordPart (c : Char) : Bool := isWordStart c || c.isDigit

/-- Whether `cs` is empty or starts with a character that cannot continue a
word. -/
def endsWord : List Char → Bool
  | [] => true
  | c :: _ => !isWordPart c

/-- Whether `cs` starts with `word`, letters of ASCII compared without case.
The letters of `word` are small. -/
def startsWith (word : String) (cs : List Char) : Bool :=
  word.toList.isPrefixOf (cs.map Char.toLower)

end PhpSyntax
