import PhpSyntax.Node.Dump
import PhpSyntax.Parser
import PhpSyntax.Proofs.Token.Set
import PhpSyntax.Proofs.Scanner.Exact
import PhpSyntax.Proofs.Scanner.Modes
import PhpSyntax.Proofs.Scanner.Words
import PhpSyntax.Proofs.Scanner.Remarks
import PhpSyntax.Proofs.Mode.Agreement
import PhpSyntax.Proofs.Comment.Attached
import PhpSyntax.Proofs.Comment.Sides
import PhpSyntax.Proofs.Node.Identity
import PhpSyntax.Proofs.Node.Traversal
import PhpSyntax.Proofs.Progress.Termination
import PhpSyntax.Proofs.Precedence.Grouped
import PhpSyntax.Proofs.Layout.Independence
import PhpSyntax.Proofs.Span.Nesting
import PhpSyntax.Proofs.Span.Exact
import PhpSyntax.Proofs.Span.Anchors
import PhpSyntax.Proofs.Span.Collection
import PhpSyntax.Proofs.Span.Names
import PhpSyntax.Proofs.Span.Order
import PhpSyntax.Proofs.Bracket.Slots
import PhpSyntax.Proofs.Bracket.Members
import PhpSyntax.Proofs.Bracket.Branch
import PhpSyntax.Proofs.Mode.Versions
import PhpSyntax.Proofs.Account.Log
import PhpSyntax.Proofs.Account.Leaves
import PhpSyntax.Proofs.Observation.Independence
import PhpSyntax.Proofs.Halt.Inert
import PhpSyntax.Proofs.Typing.Tree
import PhpSyntax.Proofs.Typing.Declare
import PhpSyntax.Proofs.Halt.Lexeme
import PhpSyntax.Proofs.Halt.Tokens
import PhpSyntax.Proofs.Formula.RoundTrip
import PhpSyntax.Proofs.Fork.Forms
import PhpSyntax.Proofs.Fork.Destructuring
import PhpSyntax.Proofs.Stream.Reader
import PhpSyntax.Proofs.Literal.Quoted
import PhpSyntax.Proofs.Literal.Nowdoc
import PhpSyntax.Proofs.Node.Error
