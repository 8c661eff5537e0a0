/-
The values of quoted strings.

In single quotes a backslash escapes itself and the quote.  In double quotes it
also introduces names for control characters and codes in octal and hexadecimal
digits.  A backslash that introduces nothing stands for itself.
-/
import PhpSyntax.Lexeme.Number

namespace PhpSyntax.Literal

def charOfCode (n : Nat) : Char := if n.isValidChar then Char.ofNat n else '\uFFFD'

def isOctalDigit (c : Char) : Bool := '0' ≤ c && c ≤ '7'

def digitValue (c : Char) : Nat :=
  if c.isDigit then c.toNat - '0'.toNat
  else if c.isLower then c.toNat - 'a'.toNat + 10
  else c.toNat - 'A'.toNat + 10

/-- The number that `digits` denote in the given base; zero if there are none. -/
def digitsValue (base : Nat) (digits : List Char) : Nat :=
  digits.foldl (fun n c => n * base + digitValue c) 0

def namedEscape? : Char → Option Char
  | 'n' => some '\n'
  | 't' => some '\t'
  | 'r' => some '\r'
  | 'v' => some '\x0b'
  | 'e' => some '\x1b'
  | 'f' => some '\x0c'
  | '\\' => some '\\'
  | '$' => some '$'
  | '"' => some '"'
  | _ => none

/-- What a backslash in front of `cs` stands for in double quotes, and how many
characters of `cs` that takes. -/
def escape (cs : List Char) : List Char × Nat :=
  match cs with
  | [] => (['\\'], 0)
  | c :: r =>
    match namedEscape? c with
    | some d => ([d], 1)
    | none =>
      if isOctalDigit c then
        let digits := (cs.take 3).takeWhile isOctalDigit
        ([charOfCode (digitsValue 8 digits % 256)], digits.length)
      else if c = 'x' then
        let digits := (r.take 2).takeWhile Lexeme.isHexDigit
        if digits.isEmpty then (['\\', 'x'], 1)
        else ([charOfCode (digitsValue 16 digits)], 1 + digits.length)
      else if c = 'u' then
        match r with
        | '{' :: r =>
          let digits := (r.take 6).takeWhile Lexeme.isHexDigit
          if (r.drop digits.length).head? = some '}' then
            ([charOfCode (digitsValue 16 digits)], 3 + digits.length)
          else
            (['\\', 'u', '{'] ++ digits, 2 + digits.length)
        | _ => (['\\', 'u'], 1)
      else
        (['\\'], 0)

/-- The value of the inside of double quotes.  `skip` characters at the front
belong to an escape that has been dealt with. -/
def unescapeDouble : (skip : Nat) → List Char → List Char
  | _, [] => []
  | skip + 1, _ :: r => unescapeDouble skip r
  | 0, '\\' :: r => let (value, n) := escape r; value ++ unescapeDouble n r
  | 0, c :: r => c :: unescapeDouble 0 r

def unescapeSingle : List Char → List Char
  | [] => []
  | '\\' :: '\\' :: r => '\\' :: unescapeSingle r
  | '\\' :: '\'' :: r => '\'' :: unescapeSingle r
  | c :: r => c :: unescapeSingle r

/-- The value of a string literal and whether its quotes are double ones.  The
letter that may stand before the quotes means nothing. -/
def stringValue (raw : String) : String × Bool :=
  let quoted := match raw.toList with
    | 'b' :: r | 'B' :: r => r
    | cs => cs
  let inner := (quoted.drop 1).dropLast
  if quoted.head? = some '"' then (String.ofList (unescapeDouble 0 inner), true)
  else (String.ofList (unescapeSingle inner), false)

end PhpSyntax.Literal
