import PhpSyntax.Lexeme.Basic

namespace PhpSyntax

/-- The spellings of operators and marks, the longer ones first. -/
def symbols : List (String × TokenKind) :=
  [("<<=", .shiftLeftEqual), (">>=", .shiftRightEqual), ("**=", .powEqual),
   ("??=", .coalesceEqual), ("===", .isIdentical), ("!==", .isNotIdentical), ("<=>", .spaceship),
   ("...", .ellipsis), ("+=", .plusEqual), ("-=", .minusEqual), ("*=", .mulEqual),
   ("/=", .divEqual), (".=", .concatEqual), ("%=", .modEqual), ("&=", .andEqual),
   ("|=", .orEqual), ("^=", .xorEqual), ("??", .coalesce), ("||", .booleanOr),
   ("&&", .booleanAnd), ("==", .isEqual), ("!=", .isNotEqual), ("<>", .isNotEqual),
   ("<=", .isSmallerOrEqual), (">=", .isGreaterOrEqual), ("<<", .shiftLeft), (">>", .shiftRight),
   ("++", .inc), ("--", .dec), ("->", .objectOperator), ("=>", .doubleArrow),
   ("::", .doubleColon), ("**", .pow), ("\\", .nsSeparator), (";", .semicolon), (",", .comma),
   (".", .dot), ("(", .lParen), (")", .rParen), ("[", .lBracket), ("]", .rBracket),
   ("\x7b", .lBrace), ("\x7d", .rBrace), ("+", .plus), ("-", .minus), ("*", .star),
   ("/", .slash), ("%", .percent), ("=", .equal), ("<", .less), (">", .greater), ("!", .bang),
   ("~", .tilde), ("^", .caret), ("&", .amp), ("|", .pipe), ("?", .question), (":", .colon),
   ("@", .at), ("$", .dollar)]

def castWords : List (String × TokenKind) :=
  [("int", .intCast), ("integer", .intCast), ("float", .doubleCast), ("double", .doubleCast),
   ("real", .doubleCast), ("string", .stringCast), ("binary", .stringCast),
   ("array", .arrayCast), ("object", .objectCast), ("bool", .boolCast),
   ("boolean", .boolCast), ("unset", .unsetCast)]

namespace Lexeme

def symbol? (cs : List Char) : Option Lexeme :=
  (symbols.find? fun s => s.1.toList.isPrefixOf cs).map fun s => ⟨s.2, s.1.length⟩

def cast? (cs : List Char) : Option Lexeme :=
  match cs with
  | '(' :: r =>
    let before := runLength isBlank r
    let inner := r.drop before
    let n := runLength Char.isAlpha inner
    let after := runLength isBlank (inner.drop n)
    if (inner.drop (n + after)).head? = some ')' then
      (castWords.lookup (String.ofList ((inner.take n).map Char.toLower))).map fun k =>
        ⟨k, 2 + before + n + after⟩
    else
      none
  | _ => none

/-- The tag that ends a stretch of code, together with a line end right behind
it.  Before a carriage return that no line feed follows the same two characters
are a question mark of that length. -/
def closeTag? : List Char → Option Lexeme
  | '?' :: '>' :: '\n' :: _ => some ⟨.closeTag, 3⟩
  | '?' :: '>' :: '\r' :: '\n' :: _ => some ⟨.closeTag, 4⟩
  | '?' :: '>' :: '\r' :: _ => some ⟨.question, 2⟩
  | '?' :: '>' :: _ => some ⟨.closeTag, 2⟩
  | _ => none

end Lexeme
end PhpSyntax
