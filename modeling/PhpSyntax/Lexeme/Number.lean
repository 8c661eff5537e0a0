/-
Numbers.

Digits may be grouped by single underscores.  An underscore behind a decimal
integer that groups nothing belongs to it nevertheless; behind a fraction, an
exponent or an integer of another base it does not.
-/
import PhpSyntax.Lexeme.Basic

namespace PhpSyntax.Lexeme

/-- The length of digits and groups of digits that continue a number. -/
def groupTailLength (digit : Char → Bool) : List Char → Nat
  | [] => 0
  | [c] => if digit c then 1 else 0
  | c :: d :: r =>
    if digit c then 1 + groupTailLength digit (d :: r)
    else if c = '_' && digit d then 2 + groupTailLength digit r
    else 0

/-- The length of groups of digits, separated by single underscores. -/
def groupsLength (digit : Char → Bool) : List Char → Nat
  | [] => 0
  | c :: r => if digit c then 1 + groupTailLength digit r else 0

def startsExponent : List Char → Bool
  | c :: _ => c = 'e' || c = 'E'
  | [] => false

/-- The length of an exponent: a letter, a sign or none, and digits without
groups.  It is zero if one of these is missing. -/
def exponentLength (cs : List Char) : Nat :=
  if startsExponent cs then
    let sign := match cs.drop 1 with
      | '+' :: _ | '-' :: _ => 1
      | _ => 0
    let digits := runLength Char.isDigit (cs.drop (1 + sign))
    if digits = 0 then 0 else 1 + sign + digits
  else
    0

def isHexDigit (c : Char) : Bool :=
  c.isDigit || ('a' ≤ c && c ≤ 'f') || ('A' ≤ c && c ≤ 'F')

def isBinaryDigit (c : Char) : Bool := c = '0' || c = '1'

def basedDigitsLength : List Char → Nat
  | '0' :: 'x' :: r | '0' :: 'X' :: r => groupsLength isHexDigit r
  | '0' :: 'b' :: r | '0' :: 'B' :: r => groupsLength isBinaryDigit r
  | _ => 0

def afterInteger (n : Nat) (cs : List Char) : Lexeme :=
  match cs with
  | '.' :: r =>
    let fraction := groupsLength Char.isDigit r
    if 0 < fraction then
      ⟨.dNumber, n + 1 + fraction + exponentLength (r.drop fraction)⟩
    else if startsExponent r && exponentLength r = 0 then
      ⟨.lNumber, n + 1⟩
    else
      ⟨.dNumber, n + 1 + exponentLength r⟩
  | '_' :: _ => ⟨.lNumber, n + 1⟩
  | _ =>
    let exponent := exponentLength cs
    if 0 < exponent then ⟨.dNumber, n + exponent⟩ else ⟨.lNumber, n⟩

def number? (cs : List Char) : Option Lexeme :=
  let based := basedDigitsLength cs
  if 0 < based then some ⟨.lNumber, 2 + based⟩
  else
    let n := groupsLength Char.isDigit cs
    if 0 < n then some (afterInteger n (cs.drop n))
    else
      match cs with
      | '.' :: r =>
        let fraction := groupsLength Char.isDigit r
        if 0 < fraction then
          some ⟨.dNumber, 1 + fraction + exponentLength (r.drop fraction)⟩
        else
          none
      | _ => none

end PhpSyntax.Lexeme
