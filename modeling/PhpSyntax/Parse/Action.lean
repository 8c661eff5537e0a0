/-
The actions of which the bodies of rules consist.

Rules decide on the kind of the current token.  They open a node at its first
token and finish it behind its last one.  Where the token that has to come next
is missing they record an error, which in strict mode ends the parse.
-/
import PhpSyntax.Parse.Step

namespace PhpSyntax

/-- A node that has been opened: where it starts and what leads it. -/
structure Opened where
  start : Position
  leading : List Comment
deriving Inhabited

namespace Opened

/-- A node opened at an earlier position.  No comments lead it. -/
def startingAt (start : Position) : Opened := ⟨start, []⟩

def handTo (o : Opened) (n : Node) : Node := { n with leading := o.leading ++ n.leading }

end Opened

namespace ParseState

/-- Open a node at the current token.  All unread comments lead it. -/
def openNode (s : ParseState) : Opened × ParseState :=
  let (leading, trivia) := s.trivia.lead s.stream.comments
  (⟨s.stream.current.start, leading⟩, { s with trivia := trivia, openNodes := s.openNodes + 1 })

def openAt (s : ParseState) (start : Position) : Opened × ParseState :=
  (.startingAt start, { s with openNodes := s.openNodes + 1 })

/-- Give up an open node that is not needed: its comments go to `n`. -/
def abandon (s : ParseState) (o : Opened) (n : Node) : Node × ParseState :=
  (o.handTo n, { s with openNodes := s.openNodes - 1 })

/-- Finish a node at the boundary.  A node that consumed nothing is empty. -/
def finishNode (s : ParseState) (o : Opened) : NodeInfo × ParseState :=
  let prev := s.stream.prev
  let stop := if o.start.offset ≤ prev.offset then prev else o.start
  let (trailing, trivia) :=
    s.trivia.trail s.stream.comments s.nextId prev s.stream.current.isEof
  (⟨s.nextId, .between o.start stop, o.leading, trailing⟩,
   { s with trivia := trivia, nextId := s.nextId + 1, openNodes := s.openNodes - 1 })

def errorNode (s : ParseState) (message : String) (e : Expected) : Node :=
  let t := s.stream.current
  ⟨⟨s.nextId, .between t.start t.start, [], []⟩,
   .error (Fault.onLine message t.start.line) (Fault.describeToken t) t.start.line e.describe?⟩

end ParseState

namespace Parser

/-! ## The current token -/

def kind : Parser TokenKind := read (·.stream.current.kind)

def text : Parser String := read (·.stream.current.text)

def peek : Parser TokenKind := read (·.stream.peek)

def isAt (k : TokenKind) : Parser Bool := read (·.stream.current.kind = k)

def isIn (c : Category) : Parser Bool := read fun s => c.set.contains s.stream.current.kind

def atEnd : Parser Bool := read (·.stream.current.isEof)

def option (f : Options → Bool) : Parser Bool := read fun s => f s.stream.options

def eat (k : TokenKind) : Parser Bool := do
  if ← isAt k then
    advance
    return true
  else
    return false

/-! ## Nodes -/

def openNode : Parser Opened := update ParseState.openNode

def openAt (start : Position) : Parser Opened := update (·.openAt start)

def abandon (o : Opened) (n : Node) : Parser Node := update (·.abandon o n)

def finish (o : Opened) (p : Production Node) : Parser Node :=
  update fun s => let (info, s) := s.finishNode o; (⟨info, p⟩, s)

/-! ## Errors -/

/-- Record an error at the current token, or end the parse in strict mode. -/
def raise (cause : Cause) (message : String) (e : Expected) : Parser Node := fun s =>
  if s.stream.options.suppressErrors then
    let n := s.errorNode message e
    .done n { s with errors := s.errors.push n, nextId := s.nextId + 1 }
  else
    .stop (s.fault cause message)

def unexpected (cause : Cause) (e : Expected) : Parser Node := do
  raise cause (Fault.unexpected (← read (·.stream.current)) e) e

def missing (e : Expected) : Parser Node :=
  unexpected (if e = .category .expression then .expectedExpression else .unexpectedToken) e

def unavailable : Parser Node := unexpected .unavailableSyntax .nothing

def objection (cause : Cause) (message : String) : Parser Node := raise cause message .nothing

def fatal {α : Type} (cause : Cause) (message : String) : Parser α := stop (·.fault cause message)

def requireOption (f : Options → Bool) : Parser Unit := do
  unless ← option f do
    let _ ← unavailable

/-- Consume a token of kind `k`, or raise an error.  The answer tells whether
there was one. -/
def expect (k : TokenKind) : Parser Bool := do
  if ← eat k then
    return true
  else
    let _ ← missing (.kind k)
    return false

def require (k : TokenKind) : Parser Unit := do
  let _ ← expect k

/-- Consume the semicolon at the end of a statement.  HTML and the end of the
input end a statement too and are left where they are. -/
def endStatement : Parser Unit := do
  match ← kind with
  | .semicolon => advance
  | .inlineHtml | .eof => pure ()
  | _ =>
    let _ ← missing (.kind .semicolon)

/-- Consume the current token if nothing has been consumed since `before`.  Only
an error that was recorded can have led to that. -/
def forceProgress (before : Position) : Parser Unit := do
  let stuck ← read fun s =>
    !s.stream.current.isEof && s.stream.current.start.offset = before.offset
  if stuck then advance

/-! ## Other rules -/

def separated (mark : TokenKind) (item : Rule .node) : Parser (List Node) :=
  call (.separated mark item)

def delimited (close : TokenKind) (item : Rule .node) : Parser (List Node) :=
  call (.delimited close item)

def expression : Parser Node := call (.expression 0)

def optionally {α : Type} (condition : Bool) (p : Parser α) : Parser (Option α) := do
  if condition then return some (← p) else return none

def after {α : Type} (k : TokenKind) (p : Parser α) : Parser (Option α) := do
  optionally (← eat k) p

end Parser
end PhpSyntax
