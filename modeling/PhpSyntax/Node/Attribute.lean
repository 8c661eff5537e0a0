namespace PhpSyntax

/-- How a name was written: one segment, several, with a leading separator, or
after `namespace` and a separator. -/
inductive NameResolution where
  | unqualified | qualified | fullyQualified | relative
deriving DecidableEq, Repr, Inhabited

namespace NameResolution

def label : NameResolution → String
  | .unqualified => "Unqualified"
  | .qualified => "Qualified"
  | .fullyQualified => "FullyQualified"
  | .relative => "Relative"

end NameResolution

inductive Visibility where
  | «public» | «protected» | «private»
deriving DecidableEq, Repr, Inhabited

namespace Visibility

def label : Visibility → String
  | .public => "Public"
  | .protected => "Protected"
  | .private => "Private"

end Visibility

structure Modifiers where
  visibility : Option Visibility
  isStatic : Bool
  isAbstract : Bool
  isFinal : Bool
deriving DecidableEq, Repr, Inhabited

def Modifiers.none : Modifiers := ⟨Option.none, false, false, false⟩

inductive UseKind where
  | «class»
  | function
  | const
deriving DecidableEq, Repr, Inhabited

namespace UseKind

def label : UseKind → String
  | .class => "Class"
  | .function => "Function"
  | .const => "Const"

end UseKind

/-- The body of a declare statement: none, in which case the directives hold for the
rest of the scope, a block in braces, or statements up to `enddeclare`. -/
inductive DeclareMode where
  | none | block | short
deriving DecidableEq, Repr, Inhabited

namespace DeclareMode

def label : DeclareMode → String
  | .none => "None"
  | .block => "Block"
  | .short => "Short"

end DeclareMode

/-- The quotes of a literal whose text is kept raw. -/
inductive EncapsedKind where
  | string | shell | heredoc
deriving DecidableEq, Repr, Inhabited

namespace EncapsedKind

def label : EncapsedKind → String
  | .string => "String"
  | .shell => "Shell"
  | .heredoc => "Heredoc"

end EncapsedKind

end PhpSyntax
