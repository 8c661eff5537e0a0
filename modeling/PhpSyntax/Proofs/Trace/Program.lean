import PhpSyntax.Proofs.Node.MapInfo
import PhpSyntax.Proofs.Trace.Bench
import PhpSyntax.Proofs.Trace.Run

namespace PhpSyntax

namespace Trivia

/-! ## What settling leaves as it is -/

variable (t : Trivia) (p : Program)

@[simp] theorem settle_errors : (t.settle p).errors = p.errors := by
  unfold settle
  split <;> rfl

@[simp] theorem settle_comments : (t.settle p).comments = p.comments := by
  unfold settle
  split <;> rfl

@[simp] theorem settle_leading : (t.settle p).leading = p.leading := by
  unfold settle
  split <;> rfl

@[simp] theorem settle_span : (t.settle p).span = p.span := by
  unfold settle
  split <;> rfl

def deliver (info : NodeInfo) : NodeInfo :=
  { info with trailing := info.trailing ++ t.deferredFor info.id }

@[simp] theorem span_deliver (info : NodeInfo) : (t.deliver info).span = info.span := rfl

theorem settle_children : (t.settle p).children = p.children.map (Node.mapInfo t.deliver) := by
  by_cases h : t.deferred.isEmpty = true
  · have hnone (info : NodeInfo) : t.deliver info = info := by
      have hdeferred : t.deferred = #[] := Array.isEmpty_iff.mp h
      simp [deliver, deferredFor, hdeferred]
    have hmap : Node.mapInfo t.deliver = id := funext fun n => Node.mapInfo_id hnone n
    rw [settle, if_pos h, hmap, List.map_id]
  · rw [settle, if_neg h]
    rfl

theorem settle_tree : (t.settle p).tree = p.tree.map (Node.mapInfo t.deliver) := by
  rw [Program.tree, settle_children, Node.walkFrom_map_mapInfo]
  rfl

end Trivia

namespace ParseState

/-! ## The program behind its statements -/

/-- The state behind the last node that a parse finishes, which is the program, and what
that node is. -/
def sealed (s : ParseState) (root : Opened) : NodeInfo × ParseState :=
  { s with stream := s.stream.finish }.finishNode root

def unsettled (s : ParseState) (root : Opened) (children : List Node) : Program :=
  { (s.sealed root).1 with
    children := children
    errors := s.errors.toList
    comments := if s.stream.options.extractDoc then some s.stream.comments.toList else none
    tokens := s.stream.log.map Array.toList }

/-- The program opened as `root` and made of statements, whether or not all nodes are
closed. -/
def completed (s : ParseState) (root : Opened) (children : List Node) : Program :=
  (s.sealed root).2.trivia.settle (s.unsettled root children)

/-- Where only the program itself is open, nothing is left open behind it. -/
theorem program_eq {s : ParseState} (h : s.openNodes = 1) (root : Opened) (children : List Node) :
    s.program root children = .ok (s.completed root children) := by
  have hclosed : (s.sealed root).2.openNodes = 0 := by
    show s.openNodes - 1 = 0
    omega
  have hpassed : ((s.sealed root).2.stream.options.debug &&
      decide ((s.sealed root).2.openNodes ≠ 0)) = false := by
    rw [hclosed]
    exact Bool.and_false _
  show (if ((s.sealed root).2.stream.options.debug &&
    decide ((s.sealed root).2.openNodes ≠ 0)) = true then _ else _) = _
  rw [hpassed, if_neg Bool.false_ne_true]
  rfl

@[simp] theorem completed_errors (s : ParseState) (root : Opened) (children : List Node) :
    (s.completed root children).errors = s.errors.toList := by
  rw [completed, Trivia.settle_errors]
  rfl

theorem completed_tree (s : ParseState) (root : Opened) (children : List Node) :
    (s.completed root children).tree =
      (Node.walkFrom children).map (Node.mapInfo (s.sealed root).2.trivia.deliver) :=
  Trivia.settle_tree _ _

/-! ## The first token -/

variable (source : String) (fileName : Option String) (o : Options)

def first : ParseState := (atFirstToken source (fileName.getD defaultFileName) o.effective).2

def root : Opened := (atFirstToken source (fileName.getD defaultFileName) o.effective).1

/-- The statements of a text are reached by moves from its first token. -/
theorem first_meets :
    Meets (first source fileName o)
      (fun children s =>
        Moves ([.opened (root source fileName o)], first source fileName o)
          (stack children [.opened (root source fileName o)], s) ∧
        s.stream.Sound ∧ s.kind = .eof)
      (statementsFrom (first source fileName o))
      (statementsFrom (first source fileName o).strict) := by
  refine statementsFrom_meets (Stream.first_sound source _) fun i hi => ?_
  rw [List.mem_singleton.mp hi]
  exact Nat.zero_le _

variable {source fileName o} in
/-- No move changes the mode. -/
theorem first_tolerates {w w' : Bench} {s : ParseState}
    (h : Moves (w, first source fileName o) (w', s)) : s.tolerates = o.suppressErrors := by
  rw [tolerates, h.constant.1]
  rfl

end ParseState

open ParseState in
theorem parse_eq (source : String) (fileName : Option String) (o : Options) :
    parse source fileName o =
      match statementsFrom (first source fileName o) with
      | .ok (children, s) => .ok (s.completed (root source fileName o) children)
      | .error f => .error f := by
  show (match statementsFrom (first source fileName o) with
    | .ok (children, s) => s.program (root source fileName o) children
    | .error f => .error f) = _
  split
  · next children s hs =>
    obtain ⟨hmoves, _, _⟩ := ((first_meets source fileName o).ok hs).1
    have hopen := hmoves.openNodes rfl
    rw [Bench.openCount_stack] at hopen
    exact program_eq hopen _ _
  · rfl

open ParseState in
/-- A program is made of the statements of its text. -/
theorem parse_statements {source : String} {fileName : Option String} {o : Options} {p : Program}
    (h : parse source fileName o = .ok p) :
    ∃ children s, statementsFrom (first source fileName o) = .ok (children, s) ∧
      p = s.completed (root source fileName o) children := by
  rw [parse_eq] at h
  split at h
  · next children s hs =>
    cases h
    exact ⟨children, s, hs, rfl⟩
  · cases h

/-- A run that is seen to make a program with a property makes one. -/
theorem parse_of_any {source : String} {fileName : Option String} {o : Options}
    {f : Program → Bool} (h : (parse source fileName o).toOption.any f = true) :
    ∃ p, parse source fileName o = .ok p ∧ f p = true := by
  cases hp : parse source fileName o with
  | ok p =>
    rw [hp] at h
    exact ⟨p, rfl, h⟩
  | error e =>
    rw [hp] at h
    cases h

/-- A run that is seen to make a program with a value makes one. -/
theorem parse_of_map {β : Type} {source : String} {fileName : Option String} {o : Options}
    {f : Program → β} {b : β} (h : (parse source fileName o).toOption.map f = some b) :
    ∃ p, parse source fileName o = .ok p ∧ f p = b := by
  cases hp : parse source fileName o with
  | ok p =>
    rw [hp] at h
    exact ⟨p, rfl, Option.some.inj h⟩
  | error e =>
    rw [hp] at h
    cases h

open ParseState in
/-- What a program has come from. -/
theorem parse_ok {source : String} {fileName : Option String} {o : Options} {p : Program}
    (h : parse source fileName o = .ok p) :
    ∃ children s, p = s.completed (root source fileName o) children ∧
      Moves ([.opened (root source fileName o)], first source fileName o)
        (stack children [.opened (root source fileName o)], s) ∧
      s.stream.Sound ∧ s.kind = .eof := by
  obtain ⟨children, s, hs, rfl⟩ := parse_statements h
  exact ⟨children, s, rfl, ((first_meets source fileName o).ok hs).1⟩

end PhpSyntax
