/-
The kinds of tokens.

`TokenKind` lists every kind in a fixed order, and `index` is a kind's place in
it.  A kind has a `T_` name, or a symbol that is its only spelling, or (the end
of the input) neither.
-/

namespace PhpSyntax

/-- What a token is.  The keyword kinds start with `kw`. -/
inductive TokenKind where
  -- the document
  | inlineHtml | openTag | openTagWithEcho | closeTag | whitespace | comment | docComment
  -- names and literals
  | variable | identifier | lNumber | dNumber | constantString | encapsedString | heredoc
  | shellCommand
  -- keywords
  | kwAbstract | kwArray | kwAs | kwBreak | kwCallable | kwCase | kwCatch | kwClass | kwClone
  | kwConst | kwContinue | kwDeclare | kwDefault | kwDo | kwEcho | kwElse | kwElseIf | kwEmpty
  | kwEndDeclare | kwEndFor | kwEndForeach | kwEndIf | kwEndSwitch | kwEndWhile | kwEval
  | kwExit | kwExtends | kwFinal | kwFinally | kwFn | kwFor | kwForeach | kwFunction | kwGlobal
  | kwGoto | kwHaltCompiler | kwIf | kwImplements | kwInclude | kwIncludeOnce | kwInstanceOf
  | kwInsteadOf | kwInterface | kwIsset | kwList | kwLogicalAnd | kwLogicalOr | kwLogicalXor
  | kwNamespace | kwNew | kwPrint | kwPrivate | kwProtected | kwPublic | kwRequire
  | kwRequireOnce | kwReturn | kwStatic | kwSwitch | kwThrow | kwTrait | kwTry | kwUnset
  | kwUse | kwVar | kwWhile | kwYield | kwYieldFrom
  -- magic constants
  | classC | traitC | funcC | methodC | line | file | dir | nsC
  -- casts
  | intCast | doubleCast | stringCast | arrayCast | objectCast | boolCast | unsetCast
  -- operators of several characters
  | plusEqual | minusEqual | mulEqual | divEqual | concatEqual | modEqual | andEqual | orEqual
  | xorEqual | shiftLeftEqual | shiftRightEqual | powEqual | coalesceEqual | coalesce
  | booleanOr | booleanAnd | isEqual | isNotEqual | isIdentical | isNotIdentical
  | isSmallerOrEqual | isGreaterOrEqual | spaceship | shiftLeft | shiftRight | inc | dec
  | objectOperator | doubleArrow | doubleColon | nsSeparator | ellipsis | pow
  -- operators and marks of one character
  | semicolon | comma | dot | lParen | rParen | lBracket | rBracket | lBrace | rBrace | plus
  | minus | star | slash | percent | equal | less | greater | bang | tilde | caret | amp | pipe
  | question | colon | at | dollar
  -- neither
  | badCharacter | eof
deriving DecidableEq, Repr, Inhabited

namespace TokenKind

def index (k : TokenKind) : Nat := k.ctorIdx

def count : Nat := eof.index + 1

def all : List TokenKind := (List.range count).map ofNat

theorem ofNat_index (k : TokenKind) : ofNat k.index = k := ofNat_ctorIdx k

theorem index_ofNat : ∀ i < count, (ofNat i).index = i := by decide

/-- Kinds at the same place are the same. -/
theorem index_injective {j k : TokenKind} (h : j.index = k.index) : j = k := by
  rw [← ofNat_index j, h, ofNat_index k]

theorem index_lt_count (k : TokenKind) : k.index < count := by
  cases k <;> decide

theorem mem_all (k : TokenKind) : k ∈ all :=
  List.mem_map.mpr ⟨k.index, List.mem_range.mpr (index_lt_count k), ofNat_index k⟩

/-- The `T_` name of a kind.  Marks of one character, shell commands and the
end of the input have none. -/
def name : TokenKind → Option String
  | .inlineHtml => "T_INLINE_HTML"
  | .openTag => "T_OPEN_TAG"
  | .openTagWithEcho => "T_OPEN_TAG_WITH_ECHO"
  | .closeTag => "T_CLOSE_TAG"
  | .whitespace => "T_WHITESPACE"
  | .comment => "T_COMMENT"
  | .docComment => "T_DOC_COMMENT"
  | .variable => "T_VARIABLE"
  | .identifier => "T_STRING"
  | .lNumber => "T_LNUMBER"
  | .dNumber => "T_DNUMBER"
  | .constantString => "T_CONSTANT_ENCAPSED_STRING"
  | .encapsedString => "T_ENCAPSED_AND_WHITESPACE"
  | .heredoc => "T_START_HEREDOC"
  | .kwAbstract => "T_ABSTRACT"
  | .kwArray => "T_ARRAY"
  | .kwAs => "T_AS"
  | .kwBreak => "T_BREAK"
  | .kwCallable => "T_CALLABLE"
  | .kwCase => "T_CASE"
  | .kwCatch => "T_CATCH"
  | .kwClass => "T_CLASS"
  | .kwClone => "T_CLONE"
  | .kwConst => "T_CONST"
  | .kwContinue => "T_CONTINUE"
  | .kwDeclare => "T_DECLARE"
  | .kwDefault => "T_DEFAULT"
  | .kwDo => "T_DO"
  | .kwEcho => "T_ECHO"
  | .kwElse => "T_ELSE"
  | .kwElseIf => "T_ELSEIF"
  | .kwEmpty => "T_EMPTY"
  | .kwEndDeclare => "T_ENDDECLARE"
  | .kwEndFor => "T_ENDFOR"
  | .kwEndForeach => "T_ENDFOREACH"
  | .kwEndIf => "T_ENDIF"
  | .kwEndSwitch => "T_ENDSWITCH"
  | .kwEndWhile => "T_ENDWHILE"
  | .kwEval => "T_EVAL"
  | .kwExit => "T_EXIT"
  | .kwExtends => "T_EXTENDS"
  | .kwFinal => "T_FINAL"
  | .kwFinally => "T_FINALLY"
  | .kwFn => "T_FN"
  | .kwFor => "T_FOR"
  | .kwForeach => "T_FOREACH"
  | .kwFunction => "T_FUNCTION"
  | .kwGlobal => "T_GLOBAL"
  | .kwGoto => "T_GOTO"
  | .kwHaltCompiler => "T_HALT_COMPILER"
  | .kwIf => "T_IF"
  | .kwImplements => "T_IMPLEMENTS"
  | .kwInclude => "T_INCLUDE"
  | .kwIncludeOnce => "T_INCLUDE_ONCE"
  | .kwInstanceOf => "T_INSTANCEOF"
  | .kwInsteadOf => "T_INSTEADOF"
  | .kwInterface => "T_INTERFACE"
  | .kwIsset => "T_ISSET"
  | .kwList => "T_LIST"
  | .kwLogicalAnd => "T_LOGICAL_AND"
  | .kwLogicalOr => "T_LOGICAL_OR"
  | .kwLogicalXor => "T_LOGICAL_XOR"
  | .kwNamespace => "T_NAMESPACE"
  | .kwNew => "T_NEW"
  | .kwPrint => "T_PRINT"
  | .kwPrivate => "T_PRIVATE"
  | .kwProtected => "T_PROTECTED"
  | .kwPublic => "T_PUBLIC"
  | .kwRequire => "T_REQUIRE"
  | .kwRequireOnce => "T_REQUIRE_ONCE"
  | .kwReturn => "T_RETURN"
  | .kwStatic => "T_STATIC"
  | .kwSwitch => "T_SWITCH"
  | .kwThrow => "T_THROW"
  | .kwTrait => "T_TRAIT"
  | .kwTry => "T_TRY"
  | .kwUnset => "T_UNSET"
  | .kwUse => "T_USE"
  | .kwVar => "T_VAR"
  | .kwWhile => "T_WHILE"
  | .kwYield => "T_YIELD"
  | .kwYieldFrom => "T_YIELD_FROM"
  | .classC => "T_CLASS_C"
  | .traitC => "T_TRAIT_C"
  | .funcC => "T_FUNC_C"
  | .methodC => "T_METHOD_C"
  | .line => "T_LINE"
  | .file => "T_FILE"
  | .dir => "T_DIR"
  | .nsC => "T_NS_C"
  | .intCast => "T_INT_CAST"
  | .doubleCast => "T_DOUBLE_CAST"
  | .stringCast => "T_STRING_CAST"
  | .arrayCast => "T_ARRAY_CAST"
  | .objectCast => "T_OBJECT_CAST"
  | .boolCast => "T_BOOL_CAST"
  | .unsetCast => "T_UNSET_CAST"
  | .plusEqual => "T_PLUS_EQUAL"
  | .minusEqual => "T_MINUS_EQUAL"
  | .mulEqual => "T_MUL_EQUAL"
  | .divEqual => "T_DIV_EQUAL"
  | .concatEqual => "T_CONCAT_EQUAL"
  | .modEqual => "T_MOD_EQUAL"
  | .andEqual => "T_AND_EQUAL"
  | .orEqual => "T_OR_EQUAL"
  | .xorEqual => "T_XOR_EQUAL"
  | .shiftLeftEqual => "T_SL_EQUAL"
  | .shiftRightEqual => "T_SR_EQUAL"
  | .powEqual => "T_POW_EQUAL"
  | .coalesceEqual => "T_COALESCE_EQUAL"
  | .coalesce => "T_COALESCE"
  | .booleanOr => "T_BOOLEAN_OR"
  | .booleanAnd => "T_BOOLEAN_AND"
  | .isEqual => "T_IS_EQUAL"
  | .isNotEqual => "T_IS_NOT_EQUAL"
  | .isIdentical => "T_IS_IDENTICAL"
  | .isNotIdentical => "T_IS_NOT_IDENTICAL"
  | .isSmallerOrEqual => "T_IS_SMALLER_OR_EQUAL"
  | .isGreaterOrEqual => "T_IS_GREATER_OR_EQUAL"
  | .spaceship => "T_SPACESHIP"
  | .shiftLeft => "T_SL"
  | .shiftRight => "T_SR"
  | .inc => "T_INC"
  | .dec => "T_DEC"
  | .objectOperator => "T_OBJECT_OPERATOR"
  | .doubleArrow => "T_DOUBLE_ARROW"
  | .doubleColon => "T_PAAMAYIM_NEKUDOTAYIM"
  | .nsSeparator => "T_NS_SEPARATOR"
  | .ellipsis => "T_ELLIPSIS"
  | .pow => "T_POW"
  | .badCharacter => "T_BAD_CHARACTER"
  | _ => none

/-- The one spelling of a kind without a name.  A shell command is known by its
quote. -/
def symbol : TokenKind → Option String
  | .shellCommand => "`"
  | .semicolon => ";"
  | .comma => ","
  | .dot => "."
  | .lParen => "("
  | .rParen => ")"
  | .lBracket => "["
  | .rBracket => "]"
  | .lBrace => "\x7b"
  | .rBrace => "\x7d"
  | .plus => "+"
  | .minus => "-"
  | .star => "*"
  | .slash => "/"
  | .percent => "%"
  | .equal => "="
  | .less => "<"
  | .greater => ">"
  | .bang => "!"
  | .tilde => "~"
  | .caret => "^"
  | .amp => "&"
  | .pipe => "|"
  | .question => "?"
  | .colon => ":"
  | .at => "@"
  | .dollar => "$"
  | _ => none

/-- Whether the grammar skips tokens of this kind: blanks, comments and the tag
that opens a stretch of code. -/
def isTrivia : TokenKind → Bool
  | .whitespace | .comment | .docComment | .openTag => true
  | _ => false

def describe (k : TokenKind) : String :=
  match k.name, k.symbol with
  | some name, _ => name
  | none, some symbol => "'" ++ symbol ++ "'"
  | none, none => "the end of file (EOF)"

def tag (k : TokenKind) : String :=
  match k.name, k.symbol with
  | some name, _ => name
  | none, some symbol => symbol
  | none, none => "EOF"

end TokenKind
end PhpSyntax
