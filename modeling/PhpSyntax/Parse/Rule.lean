/-
The rules of the grammar, as data.

A rule is named by a value of `Rule`; what it does is its body, which is defined
elsewhere and asks for other rules by name.  A repetition is a rule that asks for
itself.  Rules differ in what they yield, and `Shape` says what that is.
-/
import PhpSyntax.Program
import PhpSyntax.Token.Set

namespace PhpSyntax

inductive Shape where
  | node
  | nodes
  | segments
  | modifiers
  | classFlags
  | nothing
deriving DecidableEq, Repr, Inhabited

/-- The type of what a rule yields.  The flags of a class say whether it is
abstract and whether it is final. -/
abbrev Shape.Value : Shape → Type
  | .node => Node
  | .nodes => List Node
  | .segments => List String
  | .modifiers => Modifiers
  | .classFlags => Bool × Bool
  | .nothing => Unit

inductive Rule : Shape → Type where
  /-- One or more items with `mark` between them. -/
  | separated (mark : TokenKind) (item : Rule .node) : Rule .nodes
  /-- Items with commas between them, and one behind the last if need be, up to
  `close`. -/
  | delimited (close : TokenKind) (item : Rule .node) : Rule .nodes
  /-- Statements up to a token of `stop`. -/
  | statements (stop : TokenSet) : Rule .nodes
  /-- Statements of the outermost scope up to a token of `stop`. -/
  | topStatements (stop : TokenSet) : Rule .nodes
  /-- Statements of the outermost scope up to the next namespace. -/
  | namespaceStatements : Rule .nodes
  | statement : Rule .node
  | ifStatement : Rule .node
  /-- An `elseif` between the marks of a short form. -/
  | shortElseIf : Rule .node
  /-- The cases of a choice up to `close`. -/
  | cases (close : TokenKind) : Rule .nodes
  /-- The handlers of a `try`. -/
  | handlers : Rule .nodes
  | useItem (kind : UseKind) (mixed : Bool) : Rule .node
  | directive : Rule .node
  | staticVariable : Rule .node
  /-- A constant; the name of a class constant may be a reserved word. -/
  | constant (reserved : Bool) : Rule .node
  | classFlags (isAbstract isFinal : Bool) : Rule .classFlags
  /-- The members of a class up to the closing brace. -/
  | members : Rule .nodes
  /-- Modifiers that go with those read already. -/
  | memberModifiers (before : Modifiers) : Rule .modifiers
  | property : Rule .node
  /-- The rest of a group of braces of which `depth` are open. -/
  | braceGroup (depth : Nat) : Rule .nothing
  | parameter : Rule .node
  /-- A variable that a closure takes over. -/
  | lexicalVariable : Rule .node
  /-- An expression of operators that bind at least as tight as `min`. -/
  | expression (min : Nat) : Rule .node
  /-- The operators that bind at least as tight as `min` behind the operand
  `left`. -/
  | infixes (min : Nat) (left : Node) : Rule .node
  | operand : Rule .node
  /-- A variable with its lookups.  A variable that is only read takes no
  arguments. -/
  | «variable» (readOnly : Bool) : Rule .node
  /-- A variable without lookups. -/
  | simpleVariable : Rule .node
  /-- Lookups and calls behind `base`. -/
  | lookups (base : Node) (readOnly : Bool) : Rule .node
  | argument : Rule .node
  /-- The entries of an array, or of a destructuring list, up to `close`. -/
  | entries (close : TokenKind) (isPattern : Bool) : Rule .nodes
  | name : Rule .node
  /-- The segments of a name behind the first. -/
  | segments : Rule .segments

end PhpSyntax
