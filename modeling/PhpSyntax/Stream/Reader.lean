/-
How the tokens of a stream are got.

A `Stream` has all the tokens of its text ahead of it.  A `Reader` has a scanner and pulls one
token at a time out of it.  Looking ahead really pulls the next token: it is kept, with what has
been passed on the way to it, until the reader moves on to it, or is thrown away when the reader
halts.
-/
import PhpSyntax.Proofs.Scanner.Exact
import PhpSyntax.Stream

namespace PhpSyntax

/-! ## Pulling a token -/

/-- A token that has been pulled out of a scanner, the scanner behind it, and the comments and
the log with what has been passed. -/
structure Pulled where
  token : Token
  scanner : Scanner
  comments : Array Comment
  log : Option (Array LogEntry)

def Scanner.pull (o : Options) (s : Scanner) (comments : Array Comment)
    (log : Option (Array LogEntry)) : Pulled :=
  match _h : s.next with
  | (none, s') => ⟨Token.eof s'.position, s', comments, log⟩
  | (some t, s') =>
    let log := log.map (·.push (.ofToken t))
    if t.kind.isTrivia then
      let comments := if o.extractDoc then comments ++ (Comment.ofToken? t).toArray else comments
      pull o s' comments log
    else
      ⟨t.forGrammar o, s', comments, log⟩
termination_by s.ahead.length
decreasing_by exact next_ahead_length _h

/-! ## Readers -/

/-- A token that has been pulled ahead of its time, with what was passed on the way to it. -/
structure Lookahead where
  token : Token
  comments : Array Comment
  log : Array LogEntry

structure Reader where
  options : Options
  scanner : Scanner
  current : Token
  lookahead : Option Lookahead
  /-- The boundary behind the last token consumed. -/
  prev : Position
  comments : Array Comment
  log : Option (Array LogEntry)

/-- The characters behind the first `n` bytes, if a character starts there. -/
def behindBytes? : Nat → List Char → Option (List Char)
  | 0, cs => some cs
  | _ + 1, [] => none
  | n + 1, c :: cs => if c.utf8Size ≤ n + 1 then behindBytes? (n + 1 - c.utf8Size) cs else none

namespace Reader

/-- The place before the first token.  The current token is an empty one there. -/
def ofSource (source : String) (o : Options) : Reader where
  options := o
  scanner := .ofSource source
  current := Token.eof .origin
  lookahead := none
  prev := .origin
  comments := #[]
  log := if o.extractTokens then some #[] else none

def atTag (r : Reader) : Bool := r.current.kind = .semicolon && r.current.text ≠ ";"

/-- The boundary behind the current token.  A closing tag does not move it. -/
def boundary (r : Reader) : Position := if r.atTag then r.prev else r.current.stop

/-- Consume the current token.  What was passed on the way to the next one is only now told. -/
def advance (r : Reader) : Reader :=
  match r.lookahead with
  | some ahead =>
    { r with
      current := ahead.token
      lookahead := none
      prev := r.boundary
      comments := r.comments ++ ahead.comments
      log := r.log.map (· ++ ahead.log) }
  | none =>
    let pulled := r.scanner.pull r.options r.comments r.log
    { r with
      scanner := pulled.scanner
      current := pulled.token
      prev := r.boundary
      comments := pulled.comments
      log := pulled.log }

/-- The kind of the token behind the current one, which is pulled unless it has been. -/
def peek (r : Reader) : TokenKind × Reader :=
  match r.lookahead with
  | some ahead => (ahead.token.kind, r)
  | none =>
    let pulled := r.scanner.pull r.options #[] (r.log.map fun _ => #[])
    (pulled.token.kind,
     { r with
       scanner := pulled.scanner
       lookahead := some ⟨pulled.token, pulled.comments, pulled.log.getD #[]⟩ })

/-- Stop reading: the text behind the current token, and the place at the end of the text. -/
def halt (r : Reader) : String × Reader :=
  let source := r.scanner.source
  let start := if r.current.isEof then source.utf8ByteSize else r.current.stop.offset
  (String.ofList ((behindBytes? start source.toList).getD []),
   { r with
     scanner := .ofSource ""
     current := Token.eof r.scanner.endPosition
     lookahead := none })

def finish (r : Reader) : Reader :=
  { r with prev := if r.current.isEof then r.current.stop else r.scanner.endPosition }

end Reader

/-! ## Runs -/

inductive StreamOp where
  | advance
  | peek
  | halt
  | finish
deriving DecidableEq, Repr, Inhabited

inductive StreamAnswer where
  | nothing
  | kind (k : TokenKind)
  | text (text : String)
deriving DecidableEq, Repr, Inhabited

/-- What can be seen from outside: the current token, the boundary behind the previous one, and
the comments and the tokens that have been passed. -/
structure StreamView where
  current : Token
  prev : Position
  comments : Array Comment
  log : Option (Array LogEntry)
deriving DecidableEq, Repr

/-- One operation, its answer and what can be seen behind it. -/
structure StreamEvent where
  op : StreamOp
  answer : StreamAnswer
  view : StreamView
deriving DecidableEq, Repr

def traceOf {σ : Type} (perform : σ → StreamOp → StreamAnswer × σ) (view : σ → StreamView) :
    σ → List StreamOp → List StreamEvent
  | _, [] => []
  | s, op :: ops =>
    let (answer, s') := perform s op
    ⟨op, answer, view s'⟩ :: traceOf perform view s' ops

namespace Reader

def view (r : Reader) : StreamView := ⟨r.current, r.prev, r.comments, r.log⟩

def perform (r : Reader) : StreamOp → StreamAnswer × Reader
  | .advance => (.nothing, r.advance)
  | .peek => (.kind r.peek.1, r.peek.2)
  | .halt => (.text r.halt.1, r.halt.2)
  | .finish => (.nothing, r.finish)

def trace : Reader → List StreamOp → List StreamEvent := traceOf perform view

def after (r : Reader) (ops : List StreamOp) : Reader := ops.foldl (fun r op => (r.perform op).2) r

end Reader

namespace Stream

def view (s : Stream) : StreamView := ⟨s.current, s.prev, s.comments, s.log⟩

def perform (s : Stream) : StreamOp → StreamAnswer × Stream
  | .advance => (.nothing, s.advance)
  | .peek => (.kind s.peek, s)
  | .halt => (.text s.halt.1, s.halt.2)
  | .finish => (.nothing, s.finish)

def trace : Stream → List StreamOp → List StreamEvent := traceOf perform view

end Stream
end PhpSyntax
