/-
The bodies of nowdocs.

A nowdoc is a heredoc whose label stands in single quotes.  Its value consists of
the lines between the first one and the one with the closing label.  From each of
them as many blanks are taken as stand before the closing label, or as many as
there are; the last line end belongs to the closing line.
-/
import PhpSyntax.Lexeme.Basic

namespace PhpSyntax.Literal

def lines : List Char → List (List Char)
  | [] => [[]]
  | c :: r =>
    if c = '\n' then [] :: lines r
    else
      match lines r with
      | [] => [[c]]
      | l :: ls => (c :: l) :: ls

def dedent (n : Nat) (line : List Char) : List Char :=
  line.drop (min n (runLength isBlank line))

def dropFinalReturn (ls : List (List Char)) : List (List Char) :=
  match ls.getLast? with
  | some l => if l.getLast? = some '\r' then ls.dropLast ++ [l.dropLast] else ls
  | none => ls

def writtenLabel (firstLine : List Char) : List Char :=
  ((firstLine.drop 3).dropWhile isSpace).takeWhile (!isSpace ·)

def nowdoc? (raw : String) : Option (String × String) :=
  match lines raw.toList with
  | first :: rest =>
    match writtenLabel first with
    | '\'' :: label =>
      let closing := rest.getLast?.getD []
      let body := dropFinalReturn rest.dropLast
      let value := (body.map (dedent (runLength isBlank closing))).intersperse ['\n']
      some (String.ofList (label.takeWhile (· ≠ '\'')), String.ofList value.flatten)
    | _ => none
  | [] => none

end PhpSyntax.Literal
