/-
Spans of source text and the anchors inside them.

A node of the syntax tree covers a `Span`.  The header of a counted or
collection loop has punctuation that no child node covers; the positions of
those tokens are kept on the loop's span, each under an `Anchor`.
-/
import PhpSyntax.Position

namespace PhpSyntax

/-- The token of a loop header that an anchored position belongs to. -/
inductive Anchor where
  | leftParen
  | rightParen
  | firstSemicolon
  | secondSemicolon
  | as
  | arrow
deriving DecidableEq, Repr, Inhabited

namespace Anchor

def label : Anchor → String
  | leftParen => "LeftParen"
  | rightParen => "RightParen"
  | firstSemicolon => "FirstSemicolon"
  | secondSemicolon => "SecondSemicolon"
  | as => "As"
  | arrow => "Arrow"

def all : List Anchor :=
  [leftParen, rightParen, firstSemicolon, secondSemicolon, as, arrow]

end Anchor

/-- A stretch of source text with the anchors recorded on it, in the order in
which they were first recorded.  An anchor is recorded once. -/
structure Span where
  start : Position
  stop : Position
  anchors : List (Anchor × Position)
deriving DecidableEq, Repr, Inhabited

namespace Span

def between (start stop : Position) : Span := ⟨start, stop, []⟩

def anchor? (s : Span) (a : Anchor) : Option Position := s.anchors.lookup a

/-- Record `p` under `a`.  A position already recorded there is replaced where
it stands. -/
def setAnchor (s : Span) (a : Anchor) (p : Position) : Span :=
  if s.anchors.any (·.1 = a) then
    { s with anchors := s.anchors.map fun e => if e.1 = a then (a, p) else e }
  else
    { s with anchors := s.anchors ++ [(a, p)] }

/-- Record those of `ps` that are present, in order. -/
def setAnchors (s : Span) (ps : List (Anchor × Option Position)) : Span :=
  ps.foldl (fun s e => match e.2 with
    | some p => s.setAnchor e.1 p
    | none => s) s

def contains (s t : Span) : Bool :=
  s.start.offset ≤ t.start.offset && t.stop.offset ≤ s.stop.offset

def containsPosition (s : Span) (p : Position) : Bool :=
  s.start.offset ≤ p.offset && p.offset ≤ s.stop.offset

def exact (s : Span) : String :=
  let ends := s.start.exact ++ ".." ++ s.stop.exact
  if s.anchors.isEmpty then ends
  else
    let anchors := s.anchors.map fun e => "(" ++ e.1.label ++ ", " ++ e.2.exact ++ ")"
    ends ++ " [" ++ ", ".intercalate anchors ++ "]"

end Span
end PhpSyntax
