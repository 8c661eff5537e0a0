/-
Source coordinates.

A `Position` names a point between two characters of a source text by line,
column and byte offset.  The three are redundant: `Position.after` computes the
position reached from another one by reading characters, and every position
the scanner produces is `Position.origin` moved over a part of the source.
Reading is a fold, so reading two texts one after the other is reading their
concatenation (`after_append`).
-/

namespace PhpSyntax

/-- A point in a source text.  Lines count from one and columns from zero;
a column counts characters since the last line feed and an offset counts
bytes of the UTF-8 form. -/
structure Position where
  line : Nat
  column : Nat
  offset : Nat
deriving DecidableEq, Repr, Inhabited

namespace Position

def origin : Position := ⟨1, 0, 0⟩

/-- The point after one more character.  A line feed, and nothing else, starts
a line. -/
def next (p : Position) (c : Char) : Position :=
  if c = '\n' then ⟨p.line + 1, 0, p.offset + c.utf8Size⟩
  else ⟨p.line, p.column + 1, p.offset + c.utf8Size⟩

def after (p : Position) (cs : List Char) : Position := cs.foldl next p

def advance (p : Position) (text : String) : Position := p.after text.toList

/-- The same point with its column moved `width` characters to the left, or to
the start of the line if that is nearer.  The offset stays, so the result
names the first column of a token and the boundary behind it. -/
def back (p : Position) (width : Nat) : Position :=
  { p with column := p.column - width }

def brief (p : Position) : String := s!"{p.line}:{p.column}"

def exact (p : Position) : String := s!"{p.line}:{p.column}@{p.offset}"

@[simp] theorem after_nil (p : Position) : p.after [] = p := rfl

@[simp] theorem after_cons (p : Position) (c : Char) (cs : List Char) :
    p.after (c :: cs) = (p.next c).after cs := rfl

theorem after_append (p : Position) (cs ds : List Char) :
    p.after (cs ++ ds) = (p.after cs).after ds :=
  List.foldl_append

theorem offset_next (p : Position) (c : Char) : (p.next c).offset = p.offset + c.utf8Size := by
  unfold next
  split <;> rfl

/-- Reading moves the offset by the size of what is read. -/
theorem offset_after (p : Position) (cs : List Char) :
    (p.after cs).offset = p.offset + (String.ofList cs).utf8ByteSize := by
  induction cs generalizing p with
  | nil => simp
  | cons c cs ih => simp [ih, offset_next, Nat.add_assoc]

theorem offset_advance (p : Position) (text : String) :
    (p.advance text).offset = p.offset + text.utf8ByteSize := by
  rw [advance, offset_after, String.ofList_toList]

end Position
end PhpSyntax
