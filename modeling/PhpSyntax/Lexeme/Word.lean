import PhpSyntax.Lexeme.Basic

namespace PhpSyntax

def keywords : List (String × TokenKind) :=
  [("abstract", .kwAbstract), ("array", .kwArray), ("as", .kwAs), ("break", .kwBreak),
   ("callable", .kwCallable), ("case", .kwCase), ("catch", .kwCatch), ("class", .kwClass),
   ("clone", .kwClone), ("const", .kwConst), ("continue", .kwContinue), ("declare", .kwDeclare),
   ("default", .kwDefault), ("do", .kwDo), ("echo", .kwEcho), ("else", .kwElse),
   ("elseif", .kwElseIf), ("empty", .kwEmpty), ("enddeclare", .kwEndDeclare),
   ("endfor", .kwEndFor), ("endforeach", .kwEndForeach), ("endif", .kwEndIf),
   ("endswitch", .kwEndSwitch), ("endwhile", .kwEndWhile), ("eval", .kwEval), ("exit", .kwExit),
   ("die", .kwExit), ("extends", .kwExtends), ("final", .kwFinal), ("finally", .kwFinally),
   ("fn", .kwFn), ("for", .kwFor), ("foreach", .kwForeach), ("function", .kwFunction),
   ("global", .kwGlobal), ("goto", .kwGoto), ("__halt_compiler", .kwHaltCompiler), ("if", .kwIf),
   ("implements", .kwImplements), ("include", .kwInclude), ("include_once", .kwIncludeOnce),
   ("instanceof", .kwInstanceOf), ("insteadof", .kwInsteadOf), ("interface", .kwInterface),
   ("isset", .kwIsset), ("list", .kwList), ("and", .kwLogicalAnd), ("or", .kwLogicalOr),
   ("xor", .kwLogicalXor), ("namespace", .kwNamespace), ("new", .kwNew), ("print", .kwPrint),
   ("private", .kwPrivate), ("protected", .kwProtected), ("public", .kwPublic),
   ("require", .kwRequire), ("require_once", .kwRequireOnce), ("return", .kwReturn),
   ("static", .kwStatic), ("switch", .kwSwitch), ("throw", .kwThrow), ("trait", .kwTrait),
   ("try", .kwTry), ("unset", .kwUnset), ("use", .kwUse), ("var", .kwVar), ("while", .kwWhile),
   ("yield", .kwYield), ("__class__", .classC), ("__trait__", .traitC), ("__function__", .funcC),
   ("__method__", .methodC), ("__line__", .line), ("__file__", .file), ("__dir__", .dir),
   ("__namespace__", .nsC)]

namespace Lexeme

def keyword? (word : List Char) : Option TokenKind :=
  keywords.lookup (String.ofList (word.map Char.toLower))

/-- After `yield`, the number of characters up to the end of the word `from`,
if that is the next word and at least one blank comes before it. -/
def fromLength? (cs : List Char) : Option Nat :=
  let blanks := runLength isSpace cs
  let word := cs.drop blanks
  if 0 < blanks && startsWith "from" (word.take 4) && endsWord (word.drop 4) then
    some (blanks + 4)
  else
    none

def word? (cs : List Char) : Option Lexeme :=
  match cs with
  | [] => none
  | c :: _ =>
    if isWordStart c then
      let n := runLength isWordPart cs
      match keyword? (cs.take n) with
      | some .kwYield =>
        match fromLength? (cs.drop n) with
        | some m => some ⟨.kwYieldFrom, n + m⟩
        | none => some ⟨.kwYield, n⟩
      | some k => some ⟨k, n⟩
      | none => some ⟨.identifier, n⟩
    else
      none

def variableWord? (cs : List Char) : Option Lexeme :=
  match cs with
  | '$' :: c :: r =>
    if isWordStart c then some ⟨.variable, 2 + runLength isWordPart r⟩ else none
  | _ => none

end Lexeme
end PhpSyntax
