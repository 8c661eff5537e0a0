/-
Faults: why a text is no program, and how that is put into words.

A fault has a cause, and every cause has a code.  Most causes are recoverable:
in tolerant mode they leave an error node behind.  The two fatal ones end the
parse in either mode.
-/
import PhpSyntax.Token.Basic
import PhpSyntax.Token.Category

namespace PhpSyntax

inductive Cause where
  /-- A token stands where another one has to stand. -/
  | unexpectedToken
  /-- No expression stands where one has to stand. -/
  | expectedExpression
  /-- The syntax is not part of the chosen version of the language. -/
  | unavailableSyntax
  /-- A namespace is declared inside another one. -/
  | nestedNamespace
  /-- The key of a collection loop is a destructuring list. -/
  | listAsKey
  /-- The parse gave up inside a construct. -/
  | unclosedNode
deriving DecidableEq, Repr, Inhabited

namespace Cause

def code : Cause → String
  | unexpectedToken => "E1001"
  | expectedExpression => "E1002"
  | unavailableSyntax => "E1003"
  | nestedNamespace => "E1004"
  | listAsKey => "E1100"
  | unclosedNode => "E9001"

/-- Whether the parse ends in either mode. -/
def isFatal : Cause → Bool
  | listAsKey | unclosedNode => true
  | _ => false

def all : List Cause :=
  [unexpectedToken, expectedExpression, unavailableSyntax, nestedNamespace, listAsKey,
   unclosedNode]

end Cause

structure Fault where
  cause : Cause
  message : String
  fileName : String
  line : Nat
  column : Nat
deriving DecidableEq, Repr, Inhabited

/-- What has to stand at a place where something else was found. -/
inductive Expected where
  | nothing
  | kind (k : TokenKind)
  | oneOf (ks : List TokenKind)
  | category (c : Category)
deriving DecidableEq, Repr, Inhabited

namespace Expected

/-- What an error node says was expected. -/
def describe? : Expected → Option String
  | nothing => none
  | kind k => some k.tag
  | oneOf ks => some (", ".intercalate (ks.map TokenKind.tag))
  | category c => some c.name

/-- The part of a message that tells what was expected.  Only a single kind is
worth it. -/
def clause : Expected → String
  | kind k => ", expecting " ++ k.describe
  | _ => ""

end Expected

namespace Fault

/-- A text as a message quotes it: at most ten characters, or seven and dots. -/
def quote (text : String) : String :=
  if 10 < text.length then String.ofList (text.toList.take 7) ++ "..." else text

def describeToken (t : Token) : String :=
  match t.kind.name with
  | some name => "'" ++ quote t.text ++ "' (" ++ name ++ ")"
  | none => t.kind.describe

/-- The message about `t` where `e` was expected.  The end of the input is not
named in it. -/
def unexpected (t : Token) (e : Expected) : String :=
  "Parse Error : syntax error" ++
    (if t.isEof then "" else ", unexpected " ++ describeToken t) ++ e.clause

def onLine (message : String) (line : Nat) : String := s!"{message} on line {line}"

end Fault
end PhpSyntax
