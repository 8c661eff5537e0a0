import PhpSyntax.Parse.Machine

namespace PhpSyntax

/-- How deep rules may call each other.  A rule that calls itself again, directly or
not, has consumed a token, and there are fewer rules than this for each token. -/
def ParseState.callDepth (s : ParseState) : Nat := 32 * (s.stream.ahead.length + 2)

def ParseState.atFirstToken (source fileName : String) (o : Options) : Opened × ParseState :=
  let (root, s) := (ParseState.start source fileName o).openNode
  (root, s.advance)

/-- The program opened as `root` and made of statements, in the state behind them.  It
spans the whole text. -/
def ParseState.program (s : ParseState) (root : Opened) (children : List Node) :
    Except Fault Program :=
  let s := { s with stream := s.stream.finish }
  let (info, s) := s.finishNode root
  if s.stream.options.debug && s.openNodes ≠ 0 then .error (s.unclosedAt info.span.stop)
  else
    .ok <| s.trivia.settle
      { info with
        children := children
        errors := s.errors.toList
        comments := if s.stream.options.extractDoc then some s.stream.comments.toList else none
        tokens := s.stream.log.map Array.toList }

def defaultFileName : String := "eval"

def statementsFrom (s : ParseState) : Outcome (List Node) :=
  Config.run (d := .nodes) ⟨s.callDepth, (Rule.topStatements .empty).body s, .nil⟩

/-- The statements of a text are what the rule for the outermost scope yields. -/
theorem statementsFrom_eq (s : ParseState) :
    statementsFrom s = Rule.run (s.callDepth + 1) .nodes (.topStatements .empty) s :=
  Config.run_eq _ _

/-- Parse a source text.  In strict mode the first error is the answer; in tolerant
mode errors are part of the program, and only a fatal one is the answer. -/
def parse (source : String) (fileName : Option String) (o : Options) : Except Fault Program :=
  let (root, s) :=
    ParseState.atFirstToken source (fileName.getD defaultFileName) o.effective
  match statementsFrom s with
  | .ok (children, s) => s.program root children
  | .error f => .error f

end PhpSyntax
