import PhpSyntax.Character.Extending
import PhpSyntax.Character.Ignorable
import PhpSyntax.Character.Printing
import PhpSyntax.Node.Basic

namespace PhpSyntax

/-- Whether a character can be read in a quoted text: it prints, not on top of the one
before it, and a display does not leave it out. -/
def Dump.isReadable (c : Char) : Bool :=
  let inTable (rs : CodeRanges) : Bool := rs.covers c.toNat
  inTable .printing && !inTable .extending && !inTable .ignorable

/-- The characters that stand for `c` in a quoted text: a backslash before quotes
and backslashes, a letter for the common control characters and a hexadecimal
number for the others that cannot be read. -/
def Dump.escape (c : Char) : List Char :=
  match c with
  | '"' => ['\\', '"']
  | '\\' => ['\\', '\\']
  | '\n' => ['\\', 'n']
  | '\r' => ['\\', 'r']
  | '\t' => ['\\', 't']
  | '\x00' => ['\\', '0']
  | c =>
    if Dump.isReadable c then [c]
    else ['\\', 'u', '{'] ++ Nat.toDigits 16 c.toNat ++ ['}']

def Dump.quote (s : String) : String :=
  "\"" ++ String.ofList (s.toList.flatMap Dump.escape) ++ "\""

def Dump.optional (s : Option String) : String :=
  match s with
  | none => "None"
  | some s => "Some(" ++ s ++ ")"

def Dump.record (title : String) (fields : List (String × String)) : String :=
  title ++ " \x7b " ++ ", ".intercalate (fields.map fun f => f.1 ++ ": " ++ f.2) ++ " \x7d"

def Modifiers.dump (m : Modifiers) : String :=
  Dump.record "Modifiers"
    [("visibility", Dump.optional (m.visibility.map Visibility.label)),
     ("is_static", toString m.isStatic),
     ("is_abstract", toString m.isAbstract),
     ("is_final", toString m.isFinal)]

def Field.dump : Field String → String
  | .node s => s
  | .optional s => Dump.optional s
  | .nodes ss => "[" ++ ", ".intercalate ss ++ "]"
  | .variableName (.named s) => "Named(" ++ Dump.quote s ++ ")"
  | .variableName (.dynamic s) => "Dynamic(" ++ s ++ ")"
  | .text s => Dump.quote s
  | .optionalText s => Dump.optional (s.map Dump.quote)
  | .flag b => toString b
  | .number n => toString n
  | .choice label => label
  | .modifiers m => m.dump

def Production.dump (p : Production String) : String :=
  if p.fields.isEmpty then p.title
  else Dump.record p.title (p.fields.map fun f => (f.1, f.2.dump))

/-- A node with all below it: identity, span, production. -/
def Node.dump : Node → String :=
  Node.fold fun info p => s!"#{info.id} {info.span.exact} {p.dump}"

/-- A comment: style, text, position. -/
def Comment.dump (c : Comment) : String :=
  c.style.label ++ " " ++ Dump.quote c.text ++ " @ " ++ c.position.exact

end PhpSyntax
