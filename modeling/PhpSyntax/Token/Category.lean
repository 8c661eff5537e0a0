import PhpSyntax.Token.Set

namespace PhpSyntax

namespace TokenKind

def reservedWords : List TokenKind :=
  [.kwAbstract, .kwArray, .kwAs, .kwBreak, .kwCallable, .kwCase, .kwCatch, .kwClass, .classC,
   .kwClone, .kwConst, .kwContinue, .kwDeclare, .kwDefault, .dir, .kwDo, .kwEcho, .kwElse,
   .kwElseIf, .kwEmpty, .kwEndDeclare, .kwEndFor, .kwEndForeach, .kwEndIf, .kwEndSwitch,
   .kwEndWhile, .kwEval, .kwExit, .kwExtends, .file, .kwFinal, .kwFinally, .kwFn, .funcC,
   .kwFor, .kwForeach, .kwFunction, .kwGlobal, .kwGoto, .kwIf, .kwImplements, .kwInclude,
   .kwIncludeOnce, .kwInstanceOf, .kwInsteadOf, .kwInterface, .kwIsset, .line, .kwList,
   .kwLogicalAnd, .kwLogicalOr, .kwLogicalXor, .methodC, .kwNamespace, .kwNew, .nsC, .kwPrint,
   .kwPrivate, .kwProtected, .kwPublic, .kwRequire, .kwRequireOnce, .kwReturn, .kwStatic,
   .kwSwitch, .kwThrow, .kwTrait, .traitC, .kwTry, .kwUnset, .kwUse, .kwVar, .kwWhile, .kwYield]

def variableStarts : List TokenKind :=
  [.variable, .dollar, .amp, .nsSeparator, .identifier, .kwNamespace, .kwStatic]

def magicConstants : List TokenKind :=
  [.classC, .traitC, .funcC, .methodC, .line, .file, .dir, .nsC]

def scalarStarts : List TokenKind :=
  [.constantString, .encapsedString, .heredoc, .lNumber, .dNumber, .kwArray, .lBracket, .minus,
   .nsSeparator] ++
    magicConstants

def memberModifiers : List TokenKind :=
  [.kwPublic, .kwPrivate, .kwProtected, .kwStatic, .kwAbstract, .kwFinal]

/-- The kinds before which a statement may end.  Inline HTML ends a statement
and is not part of it. -/
def statementEnds : List TokenKind :=
  [.semicolon, .eof, .inlineHtml]

def casts : List TokenKind :=
  [.intCast, .doubleCast, .stringCast, .arrayCast, .objectCast, .boolCast, .unsetCast]

def expressionStarts : List TokenKind :=
  [.at, .minus, .plus, .bang, .tilde, .lParen, .shellCommand, .kwList, .kwClone, .inc, .dec,
   .kwNew, .kwIsset, .kwEmpty, .kwInclude, .kwIncludeOnce, .kwRequire, .kwRequireOnce, .kwEval,
   .kwExit, .kwPrint, .kwYield, .kwYieldFrom, .kwStatic, .kwFunction, .kwFn, .variable,
   .dollar, .nsSeparator, .kwNamespace, .identifier] ++
    casts ++ scalarStarts

/-- The kinds that close the construct around an expression.  Recovery from a
broken expression never consumes one of these. -/
def closers : List TokenKind :=
  [.semicolon, .comma, .rParen, .rBracket, .rBrace, .eof, .inlineHtml]

end TokenKind

/-- The set of the kinds that close the construct around an expression. -/
def TokenSet.closers : TokenSet := .ofList TokenKind.closers

inductive Category where
  | identifier
  | variable
  | scalar
  | magicConstant
  | memberModifier
  | statementEnd
  | expression
deriving DecidableEq, Repr, Inhabited

namespace Category

def kinds : Category → List TokenKind
  | .identifier => TokenKind.reservedWords
  | .variable => TokenKind.variableStarts
  | .scalar => TokenKind.scalarStarts
  | .magicConstant => TokenKind.magicConstants
  | .memberModifier => TokenKind.memberModifiers
  | .statementEnd => TokenKind.statementEnds
  | .expression => TokenKind.expressionStarts

def set (c : Category) : TokenSet := .ofList c.kinds

def name : Category → String
  | .identifier => "IDENTIFIER"
  | .variable => "VARIABLE"
  | .scalar => "SCALAR"
  | .magicConstant => "T_MAGIC_CONST"
  | .memberModifier => "T_MEMBER_FLAGS"
  | .statementEnd => "EOS"
  | .expression => "EXPR"

end Category
end PhpSyntax
