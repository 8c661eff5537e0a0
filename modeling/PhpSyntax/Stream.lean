/-
The tokens as the grammar sees them.

The grammar skips trivia, takes the tag that closes code for a semicolon and the
tag that opens code with an echo for the keyword, and knows arrow functions only
from PHP 7.4 on.  A `Stream` is a place between the tokens of a text: the current
token, the tokens after it, and the boundary behind the last token consumed, which
is where a node ends.  Looking ahead is a function of the place and changes
nothing.
-/
import PhpSyntax.Comment
import PhpSyntax.Options
import PhpSyntax.Scanner.Basic

namespace PhpSyntax

def Token.forGrammar (o : Options) (t : Token) : Token :=
  match t.kind with
  | .closeTag => { t with kind := .semicolon }
  | .openTagWithEcho => { t with kind := .kwEcho }
  | .kwFn => if o.php74 then t else { t with kind := .identifier }
  | _ => t

structure Stream where
  options : Options
  source : String
  /-- The position behind the last character. -/
  stop : Position
  current : Token
  /-- The tokens after the current one, trivia included. -/
  ahead : List Token
  /-- The boundary behind the last token consumed. -/
  prev : Position
  /-- The comments passed so far, if they are to be kept. -/
  comments : Array Comment
  /-- The tokens passed so far, if they are to be kept. -/
  log : Option (Array LogEntry)
deriving Inhabited

namespace Stream

/-- The place before the first token.  The current token is an empty one there. -/
def ofSource (source : String) (o : Options) : Stream where
  options := o
  source := source
  stop := Position.origin.advance source
  current := Token.eof .origin
  ahead := tokenize source
  prev := .origin
  comments := #[]
  log := if o.extractTokens then some #[] else none

/-- Whether the current token is a closing tag in the part of a semicolon. -/
def atTag (s : Stream) : Bool := s.current.kind = .semicolon && s.current.text ≠ ";"

def trivia (s : Stream) : List Token := s.ahead.takeWhile (·.kind.isTrivia)

def upcoming (s : Stream) : List Token := s.ahead.dropWhile (·.kind.isTrivia)

def peek (s : Stream) : TokenKind :=
  match s.upcoming with
  | [] => .eof
  | t :: _ => (t.forGrammar s.options).kind

/-- Consume the current token.  A closing tag is not part of what it ends, so it
does not move the boundary. -/
def advance (s : Stream) : Stream :=
  let passed := s.trivia ++ s.upcoming.take 1
  { s with
    current := match s.upcoming with
      | [] => Token.eof s.stop
      | t :: _ => t.forGrammar s.options
    ahead := s.upcoming.drop 1
    prev := if s.atTag then s.prev else s.current.stop
    comments :=
      if s.options.extractDoc then s.comments ++ s.trivia.filterMap Comment.ofToken?
      else s.comments
    log := s.log.map (· ++ passed.map LogEntry.ofToken) }

/-- Stop reading: the text behind the current token, and the place at the end of
the text.  What lies between the two is neither logged nor searched for
comments. -/
def halt (s : Stream) : String × Stream :=
  (String.join (s.ahead.map Token.text),
   { s with current := Token.eof s.stop, ahead := [] })

def finish (s : Stream) : Stream :=
  { s with prev := if s.current.isEof then s.current.stop else s.stop }

/-- The characters of `cs`, which start at `offset`, that start between two
offsets. -/
def charsBetween (lo hi : Nat) : (offset : Nat) → List Char → List Char
  | _, [] => []
  | i, c :: r =>
    if i < lo then charsBetween lo hi (i + c.utf8Size) r
    else if i < hi then c :: charsBetween lo hi (i + c.utf8Size) r
    else []

def textBetween (s : Stream) (lo hi : Nat) : String :=
  String.ofList (charsBetween lo hi 0 s.source.toList)

end Stream
end PhpSyntax
