/-
Heredocs and nowdocs.

The first line of a heredoc is `<<<` and a label, alone or in quotes.  The
literal ends with the first later line that starts, blanks aside, with the label
as a whole word; the rest of that line is not part of it.  Three angle brackets
that do not start a heredoc are a bad token, and so is a first line whose label
never comes back.
-/
import PhpSyntax.Lexeme.Basic

namespace PhpSyntax.Lexeme

/-- The number of characters of a label at the front of `cs`.  Labels consist of
letters and digits of ASCII and underscores and do not start with a digit. -/
def labelLength (cs : List Char) : Nat :=
  match cs with
  | c :: _ =>
    if c.isAlpha || c = '_' then runLength (fun d => d.isAlphanum || d = '_') cs else 0
  | [] => 0

/-- The start of a first line, behind the angle brackets. -/
inductive HeredocHead where
  /-- A label `label`, with all that belongs to it `length` characters long. -/
  | labelled (label : List Char) (length : Nat)
  /-- No label, or an opening quote without its closing one. -/
  | broken (length : Nat)
deriving DecidableEq, Repr, Inhabited

def heredocHead (cs : List Char) : HeredocHead :=
  let blanks := runLength isBlank cs
  let unquoted (r : List Char) : HeredocHead :=
    let n := labelLength r
    if n = 0 then .broken blanks else .labelled (r.take n) (blanks + n)
  let quoted (quote : Char) (r : List Char) : HeredocHead :=
    let n := labelLength r
    if n = 0 then .broken blanks
    else if (r.drop n).head? = some quote then .labelled (r.take n) (blanks + n + 2)
    else .broken (blanks + n + 1)
  match cs.drop blanks with
  | '\'' :: r => quoted '\'' r
  | '"' :: r => quoted '"' r
  | r => unquoted r

def lineEndLength? : List Char → Option Nat
  | '\n' :: _ => some 1
  | '\r' :: '\n' :: _ => some 2
  | _ => none

/-- At the start of a line, the length of its blanks and the closing label, if
that is how the line starts. -/
def closingLength? (label cs : List Char) : Option Nat :=
  let blanks := runLength isBlank cs
  let word := cs.drop blanks
  if label.isPrefixOf word && endsWord (word.drop label.length) then
    some (blanks + label.length)
  else
    none

/-- The number of characters up to the end of the closing label.  `fresh` tells
whether `cs` is the start of a line. -/
def bodyLength? (label : List Char) : (fresh : Bool) → List Char → Option Nat
  | _, [] => none
  | fresh, c :: r =>
    let closing := if fresh then closingLength? label (c :: r) else none
    match closing with
    | some n => some n
    | none => (bodyLength? label (c = '\n') r).map (· + 1)

def heredoc? (cs : List Char) : Option Lexeme :=
  match cs with
  | '<' :: '<' :: '<' :: r =>
    match heredocHead r with
    | .broken n => some ⟨.badCharacter, 3 + n⟩
    | .labelled label n =>
      match lineEndLength? (r.drop n) with
      | none => some ⟨.badCharacter, 3 + n⟩
      | some m =>
        match bodyLength? label true (r.drop (n + m)) with
        | none => some ⟨.badCharacter, 3 + n + m⟩
        | some k => some ⟨.heredoc, 3 + n + m + k⟩
  | _ => none

end PhpSyntax.Lexeme
