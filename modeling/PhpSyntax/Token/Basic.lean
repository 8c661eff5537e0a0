import PhpSyntax.Position
import PhpSyntax.Token.Kind

namespace PhpSyntax

structure Token where
  kind : TokenKind
  text : String
  start : Position
  stop : Position
deriving DecidableEq, Repr, Inhabited

namespace Token

def ofText (k : TokenKind) (text : String) (p : Position) : Token :=
  ⟨k, text, p, p.advance text⟩

def eof (p : Position) : Token := ⟨.eof, "", p, p⟩

def isEof (t : Token) : Bool := t.kind = .eof

end Token

/-- What the token log keeps of a token: its `T_` name if it has one, its text,
the line it starts on and the offsets of its ends. -/
structure LogEntry where
  name : Option String
  text : String
  line : Nat
  start : Nat
  stop : Nat
deriving DecidableEq, Repr, Inhabited

def LogEntry.ofToken (t : Token) : LogEntry :=
  ⟨t.kind.name, t.text, t.start.line, t.start.offset, t.stop.offset⟩

end PhpSyntax
