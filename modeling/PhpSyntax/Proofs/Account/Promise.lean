/-
What rules promise to note.

A rule that yields a node has noted what the node answers for, and one that continues an
operand has noted the rest of it (`Rule.owes`).  Only statements of the outermost scope end
the code (`Rule.isInert`), and their texts are noted where they are listed.  Statements and
operands consume whatever token is a node of its own (`Rule.isKeen`).
-/
import PhpSyntax.Proofs.Account.Passage
import PhpSyntax.Proofs.Trace.Stage

namespace PhpSyntax

namespace ParseState

def modern (s : ParseState) : ParseState := { s with stream := s.stream.modern }

/-- In strict mode a token that is a node of its own is consumed on the way. -/
def Eats (x : Text) (s t : ParseState) : Prop :=
  x.strict = true → s.kind.isLeaf = true → t.stream.rest < s.stream.rest

theorem Eats.of_isMark {x : Text} {s t : ParseState} (hk : s.kind.isMark = true) : s.Eats x t :=
  fun _ hleaf => by
    rw [TokenKind.isLeaf_of_isMark hk] at hleaf
    cases hleaf

theorem Eats.of_tolerant {x : Text} {s t : ParseState} (hx : x.strict = false) : s.Eats x t :=
  fun hstrict => by
    rw [hx] at hstrict
    cases hstrict

end ParseState

/-! ## Rules -/

namespace Rule

def owes {c : Shape} (r : Rule c) : Notes :=
  match r with
  | .infixes _ n | .lookups n _ => n.notes
  | _ => 0

/-- Whether a rule consumes a token that is a node of its own. -/
def isKeen : Rule .node → Bool
  | .statement | .expression _ | .operand | .variable _ | .simpleVariable | .property => true
  | _ => false

/-- Whether what a rule yields does not end the code. -/
def isInert : Rule .node → Bool
  | .statement | .ifStatement => true
  | _ => false

/-- What a rule needs to know about its parameters or about the current token. -/
def Apt {c : Shape} (r : Rule c) (s : ParseState) : Prop :=
  match r with
  | .separated mark item => mark.isMark = true ∧ item.isPlain = true
  | .delimited close item => close.isMark = true ∧ item.isPlain = true
  | .entries close _ => close.isMark = true
  | .ifStatement | .shortElseIf => s.kind.isMark = true
  | .braceGroup depth => depth = 0 → s.kind = .lBrace
  | _ => True

/-- What is noted in a group of braces, which in strict mode ends at the boundary. -/
structure Skips (x : Text) (s : ParseState) (f : Notes) (t : ParseState) : Prop where
  skipped : ∀ n ∈ f, ∃ k, n = .skipped k ∧ (x.strict = true → k ≤ t.stream.prev.offset)
  covers : x.strict = true → s.stream.current.stop.offset ≤ t.stream.prev.offset
  opened : s.kind = .lBrace → s.offset ≤ t.stream.prev.offset

def Lists (x : Text) (r : Rule .nodes) (s : ParseState) (f : Notes) (ns : List Node)
    (t : ParseState) : Prop :=
  match r with
  | .separated _ item => f = notesOf ns ∧ ns ≠ [] ∧ (item.isKeen = true → s.Eats x t)
  | .statements _ => f = notesOf ns ∧ (ns = [] → t.offset = s.offset)
  | .topStatements _ | .namespaceStatements => f = notesOf ns + tailsOf ns
  | _ => f = notesOf ns

/-- What has been noted behind a rule, together with what it owes. -/
def Yields (x : Text) {c : Shape} (r : Rule c) (s : ParseState) (f : Notes) (v : c.Value)
    (t : ParseState) : Prop :=
  match c with
  | .node =>
    f = Node.notes v ∧ (r.isKeen = true → s.Eats x t) ∧ (r.isInert = true → Node.after? v = none)
  | .nodes => r.Lists x s f v t
  | .nothing => Skips x s f t
  | .segments | .modifiers | .classFlags => f = 0

end Rule
end PhpSyntax
