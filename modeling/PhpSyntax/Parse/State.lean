import PhpSyntax.Fault
import PhpSyntax.Parse.Trivia
import PhpSyntax.Stream

namespace PhpSyntax

structure ParseState where
  fileName : String
  stream : Stream
  /-- The errors recorded so far. -/
  errors : Array Node
  trivia : Trivia
  /-- The identity of the next node. -/
  nextId : Nat
  /-- The number of nodes that are open. -/
  openNodes : Nat
  /-- The number of namespace declarations around the current token. -/
  namespaceDepth : Nat
deriving Inhabited

namespace ParseState

def start (source fileName : String) (o : Options) : ParseState where
  fileName := fileName
  stream := .ofSource source o
  errors := #[]
  trivia := .start
  nextId := 0
  openNodes := 0
  namespaceDepth := 0

def advance (s : ParseState) : ParseState := { s with stream := s.stream.advance }

/-- A fault at the current token.  Its message names the line. -/
def fault (s : ParseState) (cause : Cause) (message : String) : Fault :=
  let p := s.stream.current.start
  ⟨cause, Fault.onLine message p.line, s.fileName, p.line, p.column⟩

def unclosedAt (s : ParseState) (p : Position) : Fault :=
  ⟨.unclosedNode, "Some nodes are not closed", s.fileName, p.line, p.column⟩

def unclosed (s : ParseState) : Fault := s.unclosedAt s.stream.current.start

end ParseState
end PhpSyntax
