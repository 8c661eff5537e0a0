import PhpSyntax.Token.Basic

namespace PhpSyntax

/-- How a comment is written: to the end of the line, between `/*` and `*/`, or
the latter opened by `/**` and a blank. -/
inductive CommentStyle where
  | line
  | block
  | doc
deriving DecidableEq, Repr, Inhabited

def CommentStyle.label : CommentStyle → String
  | line => "Line"
  | block => "Block"
  | doc => "Doc"

structure Comment where
  style : CommentStyle
  text : String
  position : Position
deriving DecidableEq, Repr, Inhabited

namespace Comment

def offset (c : Comment) : Nat := c.position.offset

def isDoc (c : Comment) : Bool := c.style = .doc

/-- The comment that a token is, if it is one.  Comment tokens that are not
documentation differ by their first two characters. -/
def ofToken? (t : Token) : Option Comment :=
  match t.kind with
  | .docComment => some ⟨.doc, t.text, t.start⟩
  | .comment =>
    match t.text.toList with
    | '/' :: '*' :: _ => some ⟨.block, t.text, t.start⟩
    | _ => some ⟨.line, t.text, t.start⟩
  | _ => none

end Comment
end PhpSyntax
