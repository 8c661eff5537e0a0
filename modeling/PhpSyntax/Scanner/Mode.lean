/-
The two languages of a source text.

Outside of tags the text is HTML, which is one token up to the next opening tag.
Between an opening and a closing tag it is code, where the first recogniser that
finds something decides.  The order of the recognisers matters only where one
of them takes more than another would: comments, numbers, heredocs, casts and
the closing tag come before the symbols they start with, and quoted literals
come before the words that their letter would be.
-/
import PhpSyntax.Lexeme.Word
import PhpSyntax.Lexeme.Number
import PhpSyntax.Lexeme.Quoted
import PhpSyntax.Lexeme.Heredoc
import PhpSyntax.Lexeme.Remark
import PhpSyntax.Lexeme.Symbol

namespace PhpSyntax

inductive Mode where
  | html
  | code
deriving DecidableEq, Repr, Inhabited

namespace Lexeme

/-- An opening tag.  The long form takes one white space character, or one line
end, with it and needs it unless the text ends there. -/
def openTag? (cs : List Char) : Option Lexeme :=
  match cs with
  | '<' :: '?' :: r =>
    if r.head? = some '=' then some ⟨.openTagWithEcho, 3⟩
    else if startsWith "php" (r.take 3) then
      match r.drop 3 with
      | [] => some ⟨.openTag, 5⟩
      | '\r' :: '\n' :: _ => some ⟨.openTag, 7⟩
      | c :: _ => if isSpace c then some ⟨.openTag, 6⟩ else none
    else
      none
  | _ => none

def htmlLength : List Char → Nat
  | [] => 0
  | c :: r => if (openTag? (c :: r)).isSome then 0 else 1 + htmlLength r

def html (cs : List Char) : Lexeme :=
  (openTag? cs).getD ⟨.inlineHtml, htmlLength cs⟩

def recognisers : List (List Char → Option Lexeme) :=
  [whitespace?, comment?, closeTag?, variableWord?, number?, quoted?, heredoc?, word?, cast?,
    symbol?]

/-- The next token of code.  A character that starts no token is a bad token by
itself. -/
def code (cs : List Char) : Lexeme :=
  (recognisers.findSome? (· cs)).getD ⟨.badCharacter, 1⟩

def ofMode : Mode → List Char → Lexeme
  | .html => html
  | .code => code

end Lexeme

def Mode.after (m : Mode) (k : TokenKind) : Mode :=
  match k with
  | .openTag | .openTagWithEcho => .code
  | .closeTag => .html
  | _ => m

end PhpSyntax
