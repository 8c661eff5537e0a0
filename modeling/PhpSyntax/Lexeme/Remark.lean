import PhpSyntax.Lexeme.Basic

namespace PhpSyntax.Lexeme

def whitespace? (cs : List Char) : Option Lexeme :=
  let n := runLength isSpace cs
  if 0 < n then some ⟨.whitespace, n⟩ else none

/-- The number of characters before the end of the line, a closing tag or the end
of the text. -/
def lineLength : List Char → Nat
  | [] => 0
  | '?' :: '>' :: _ => 0
  | c :: r => if c = '\n' || c = '\r' then 0 else 1 + lineLength r

def blockLength : List Char → Nat
  | [] => 0
  | '*' :: '/' :: _ => 2
  | _ :: r => 1 + blockLength r

/-- Whether what follows `/*` makes it documentation: a second star and a blank,
a form feed counted as one. -/
def startsDoc : List Char → Bool
  | '*' :: c :: _ => isSpace c || c = '\x0c'
  | _ => false

def comment? (cs : List Char) : Option Lexeme :=
  match cs with
  | '#' :: r => some ⟨.comment, 1 + lineLength r⟩
  | '/' :: '/' :: r => some ⟨.comment, 2 + lineLength r⟩
  | '/' :: '*' :: r =>
    some ⟨if startsDoc r then .docComment else .comment, 2 + blockLength r⟩
  | _ => none

end PhpSyntax.Lexeme
