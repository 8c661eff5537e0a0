/-
The parse as a machine that opens and finishes nodes.

What a rule has made so far lies on a bench: the nodes that are open, and the finished
ones that have no parent yet, the latest on top.  A `Move` is one action of a rule: it
consumes a token, opens a node, or takes the children of the open node off the bench and
puts the finished node in its place.  Every run of the grammar is a sequence of moves, so
what each move keeps holds at the end of every parse.
-/
import PhpSyntax.Parse.Action
import PhpSyntax.Proofs.Precedence.Table
import PhpSyntax.Proofs.Stream.Progress

namespace PhpSyntax

/-! ## Actions on the state -/

namespace ParseState

def kind (s : ParseState) : TokenKind := s.stream.current.kind

def offset (s : ParseState) : Nat := s.stream.current.start.offset

theorem kind_eq {s t : ParseState} (h : t.stream = s.stream) : t.kind = s.kind := by
  rw [kind, h]
  rfl

theorem offset_eq {s t : ParseState} (h : t.stream = s.stream) : t.offset = s.offset := by
  rw [offset, h]
  rfl

def tolerates (s : ParseState) : Bool := s.stream.options.suppressErrors

def halt (s : ParseState) : ParseState := { s with stream := s.stream.halt.2 }

def record (s : ParseState) (message : String) (e : Expected) : ParseState :=
  { s with errors := s.errors.push (s.errorNode message e), nextId := s.nextId + 1 }

end ParseState

/-! ## Nodes as the moves see them -/

def Production.testsLast {α : Type} : Production α → Bool
  | .do .. => true
  | _ => false

/-- The children of a production in the order in which they are read.  The body of a loop
that tests last comes before its test. -/
def Production.parts {α : Type} : Production α → List α
  | .do test body => [body, test]
  | p => p.children

theorem Production.parts_perm {α : Type} (p : Production α) : p.parts.Perm p.children := by
  cases p with
  | «do» test body => exact List.Perm.swap _ _ _
  | _ => exact List.Perm.refl _

/-- Whether a node can stand for no text at all in a text without errors: a statement
that is nothing but a closing tag, a skipped slot, and a branch without statements. -/
def Production.isHollow {α : Type} : Production α → Bool
  | .noop | .block _ => true
  | _ => false

def Production.isError {α : Type} : Production α → Bool
  | .error .. => true
  | _ => false

/-- Whether a rule may finish a node with this production: it is no error, and what stands
beside an operator binds as tight as it has to. -/
def Production.isProper (p : Production Node) : Bool :=
  !p.isError &&
    p.infix?.all fun (op, left, right) => left.binds op.leftMin && right.binds op.rightMin

theorem Production.isError_of_isProper {p : Production Node} (h : p.isProper = true) :
    p.isError = false := by
  rw [isProper, Bool.and_eq_true, Bool.not_eq_true'] at h
  exact h.1

namespace Node

theorem isError_eq (n : Node) : n.isError = n.production.isError := by
  obtain ⟨info, p⟩ := n
  cases p <;> rfl

structure Complaint where
  span : Span
  message : String
  token : String
  line : Nat
  expected : Option String

def complaint? (n : Node) : Option Complaint :=
  match n.production with
  | .error message token line expected => some ⟨n.span, message, token, line, expected⟩
  | _ => none

theorem complaint?_of_isError {n : Node} (h : n.isError = false) : n.complaint? = none := by
  obtain ⟨info, p⟩ := n
  cases p with
  | error => cases h
  | _ => rfl

/-- What a node has beside its children and the fields of its production.  Of an error that is
all. -/
structure Outline where
  id : Nat
  start : Position
  stop : Position
  leading : List Comment
  trailing : List Comment
  isError : Bool
  isHollow : Bool
  testsLast : Bool
  operator? : Option Infix
  complaint? : Option Complaint

def outline (n : Node) : Outline :=
  ⟨n.id, n.span.start, n.span.stop, n.leading, n.trailing, n.isError, n.production.isHollow,
    n.production.testsLast, n.operator?, n.complaint?⟩

def signature (n : Node) : Outline × List Outline := (n.outline, n.children.map outline)

/-- Two trees of the same shape with the same outlines. -/
def Resembles (m n : Node) : Prop := m.walk.map signature = n.walk.map signature

theorem Resembles.refl (n : Node) : n.Resembles n := rfl

theorem Resembles.outline {m n : Node} (h : m.Resembles n) : m.outline = n.outline := by
  rw [Resembles, walk_eq, walk_eq, List.map_cons, List.map_cons] at h
  exact congrArg Prod.fst (List.cons.inj h).1

end Node

/-! ## The bench -/

/-- A node that is open, or a finished one that has no parent yet. -/
inductive Item where
  | opened (o : Opened)
  | node (n : Node)

/-- What lies on the bench, the latest on top. -/
abbrev Bench := List Item

namespace Item

def start : Item → Position
  | opened o => o.start
  | node n => n.span.start

end Item

def stack : List Node → Bench → Bench
  | [], w => w
  | n :: ns, w => stack ns (.node n :: w)

@[simp] theorem stack_nil (w : Bench) : stack [] w = w := rfl

@[simp] theorem stack_cons (n : Node) (ns : List Node) (w : Bench) :
    stack (n :: ns) w = stack ns (.node n :: w) := rfl

@[simp] theorem stack_append (ms ns : List Node) (w : Bench) :
    stack (ms ++ ns) w = stack ns (stack ms w) := by
  induction ms generalizing w with
  | nil => rfl
  | cons m ms ih => exact ih _

theorem mem_stack {ns : List Node} {w : Bench} {i : Item} :
    i ∈ stack ns w ↔ (∃ n ∈ ns, i = .node n) ∨ i ∈ w := by
  induction ns generalizing w with
  | nil => simp
  | cons n ns ih =>
    rw [stack_cons, ih, List.mem_cons]
    simp only [List.mem_cons, exists_eq_or_imp, or_assoc]
    exact or_left_comm

/-! ## Moves -/

/-- One action on the bench and the state.  In strict mode a node that is finished and is
not hollow has consumed something. -/
inductive Move : Bench × ParseState → Bench × ParseState → Prop
  | advance {w s} (h : s.kind ≠ .eof) : Move (w, s) (w, s.advance)
  | openNode {w s} : Move (w, s) (.opened s.openNode.1 :: w, s.openNode.2)
  /-- A node that starts where the node on top does is opened below it, as soon as the
  boundary has come up to its start. -/
  | openAt {n w s} (h : n.span.start.offset ≤ s.stream.prev.offset) :
    Move (.node n :: w, s)
      (.node n :: .opened (s.openAt n.span.start).1 :: w, (s.openAt n.span.start).2)
  /-- The nodes read last become children.  Those in `before`, read since the node was
  opened, stay for another parent. -/
  | finish {before : List Node} {p : Production Node} {o w s} (he : p.isProper = true)
      (h : s.tolerates = false → p.isHollow = true ∨ o.start.offset ≤ s.stream.prev.offset) :
    Move (stack (before ++ p.parts) (.opened o :: w), s)
      (stack before (.node ⟨(s.finishNode o).1, p⟩ :: w), (s.finishNode o).2)
  | record {message e w s} (h : s.tolerates = true) :
    Move (w, s) (.node (s.errorNode message e) :: w, s.record message e)
  /-- An error node that nothing took the place of is left out of the tree. -/
  | drop {n w s} (h : n.isError = true) (hl : n.leading = []) (ht : n.trailing = []) :
    Move (.node n :: w, s) (w, s)
  | abandon {o n w s} :
    Move (.node n :: .opened o :: w, s) (.node (s.abandon o n).1 :: w, (s.abandon o n).2)
  | relabel {m n w s} (h : n.Resembles m) : Move (.node m :: w, s) (.node n :: w, s)
  | nest {d w s} : Move (w, s) (w, { s with namespaceDepth := d })
  | halt {w s} : Move (w, s) (w, s.halt)

abbrev Moves : Bench × ParseState → Bench × ParseState → Prop := Relation.ReflTransGen Move

/-- What each move keeps holds behind any number of them. -/
theorem Moves.preserves {P : Bench × ParseState → Prop} (step : ∀ {x y}, Move x y → P x → P y)
    {x y : Bench × ParseState} (h : Moves x y) (hx : P x) : P y := by
  induction h with
  | refl => exact hx
  | tail _ hyz ih => exact step hyz ih

/-! ## What moves do to the stream -/

/-- A move leaves the place in the text alone, consumes the current token, or halts. -/
theorem Move.stream {x y : Bench × ParseState} (h : Move x y) :
    y.2.stream = x.2.stream ∨ (x.2.kind ≠ .eof ∧ y.2.stream = x.2.stream.advance) ∨
      y.2.stream = x.2.stream.halt.2 := by
  cases h with
  | advance h => exact Or.inr (Or.inl ⟨h, rfl⟩)
  | halt => exact Or.inr (Or.inr rfl)
  | _ => exact Or.inl rfl

theorem Move.sound {x y : Bench × ParseState} (h : Move x y) (hx : x.2.stream.Sound) :
    y.2.stream.Sound := by
  rcases h.stream with e | ⟨_, e⟩ | e <;> rw [e]
  · exact hx
  · exact Stream.advance_sound hx
  · exact Stream.halt_sound hx

theorem Move.constant {x y : Bench × ParseState} (h : Move x y) :
    y.2.stream.options = x.2.stream.options ∧ y.2.stream.source = x.2.stream.source ∧
      y.2.stream.stop = x.2.stream.stop := by
  rcases h.stream with e | ⟨_, e⟩ | e <;> rw [e]
  · exact ⟨rfl, rfl, rfl⟩
  · exact ⟨rfl, rfl, rfl⟩
  · exact ⟨rfl, rfl, rfl⟩

theorem Move.tolerates {x y : Bench × ParseState} (h : Move x y) :
    y.2.tolerates = x.2.tolerates := by
  rw [ParseState.tolerates, ParseState.tolerates, h.constant.1]

/-- No move goes back in the text. -/
theorem Move.offset_le {x y : Bench × ParseState} (h : Move x y) (hx : x.2.stream.Sound) :
    x.2.offset ≤ y.2.offset := by
  rcases h.stream with e | ⟨_, e⟩ | e
  · exact Nat.le_of_eq (ParseState.offset_eq e).symm
  · rw [ParseState.offset, ParseState.offset, e]
    exact Stream.start_le_advance hx
  · have hstart : x.2.offset ≤ x.2.stream.current.stop.offset := hx.start_le
    have hstop : x.2.stream.current.stop.offset ≤ x.2.stream.stop.offset := hx.ahead.offset_le
    show _ ≤ y.2.stream.current.start.offset
    rw [e]
    exact Nat.le_trans hstart hstop

theorem Move.prev_le {x y : Bench × ParseState} (h : Move x y) (hx : x.2.stream.Sound) :
    x.2.stream.prev.offset ≤ y.2.stream.prev.offset := by
  rcases h.stream with e | ⟨_, e⟩ | e
  · exact Nat.le_of_eq (congrArg (·.prev.offset) e.symm)
  · exact e ▸ Stream.prev_le_advance hx
  · exact Nat.le_of_eq (congrArg (·.prev.offset) e.symm)

/-! ## What moves do to the bench -/

/-- What lies on the bench starts where something did before, or at the current token. -/
theorem Move.start_eq {x y : Bench × ParseState} (h : Move x y) :
    ∀ i ∈ y.1, (∃ j ∈ x.1, i.start = j.start) ∨ i.start = x.2.stream.current.start := by
  have same {w : Bench} {p : Position} {i : Item} (hi : i ∈ w) :
      (∃ j ∈ w, i.start = j.start) ∨ i.start = p := Or.inl ⟨i, hi, rfl⟩
  cases h with
  | advance | nest | halt => exact fun _ => same
  | openNode | record => exact List.forall_mem_cons.mpr ⟨Or.inr rfl, fun _ => same⟩
  | @openAt n w s =>
    refine List.forall_mem_cons.mpr ⟨same List.mem_cons_self, List.forall_mem_cons.mpr
      ⟨Or.inl ⟨.node n, List.mem_cons_self, rfl⟩, fun i hi => same (List.mem_cons_of_mem _ hi)⟩⟩
  | @finish before p o w s =>
    intro i hi
    simp only [mem_stack, List.mem_cons] at hi
    rcases hi with ⟨n, hn, rfl⟩ | rfl | hi
    · exact same (mem_stack.mpr (Or.inl ⟨n, List.mem_append_left _ hn, rfl⟩))
    · exact Or.inl ⟨.opened o, mem_stack.mpr (Or.inr List.mem_cons_self), rfl⟩
    · exact same (mem_stack.mpr (Or.inr (List.mem_cons_of_mem _ hi)))
  | drop => exact fun i hi => same (List.mem_cons_of_mem _ hi)
  | @abandon o n w s =>
    exact List.forall_mem_cons.mpr ⟨Or.inl ⟨.node n, List.mem_cons_self, rfl⟩,
      fun i hi => same (List.mem_cons_of_mem _ (List.mem_cons_of_mem _ hi))⟩
  | @relabel m n w s hr =>
    have hstart : n.span.start = m.span.start := congrArg Node.Outline.start hr.outline
    exact List.forall_mem_cons.mpr ⟨Or.inl ⟨.node m, List.mem_cons_self, hstart⟩,
      fun i hi => same (List.mem_cons_of_mem _ hi)⟩

/-- What lies on the bench has been read. -/
theorem Move.starts {x y : Bench × ParseState} (h : Move x y) (hsound : x.2.stream.Sound)
    (hx : ∀ i ∈ x.1, i.start.offset ≤ x.2.offset) : ∀ i ∈ y.1, i.start.offset ≤ y.2.offset := by
  intro i hi
  refine Nat.le_trans ?_ (h.offset_le hsound)
  rcases h.start_eq i hi with ⟨j, hj, e⟩ | e <;> rw [e]
  · exact hx j hj
  · exact Nat.le_refl _

/-- A node that is open has been open before, or it has just been opened, at the current token
or below the node on top. -/
theorem Move.opened {x y : Bench × ParseState} (h : Move x y) {o : Opened}
    (ho : .opened o ∈ y.1) :
    .opened o ∈ x.1 ∨ (o = x.2.openNode.1 ∧ y.2 = x.2.openNode.2) ∨
      ∃ n, .node n ∈ x.1 ∧ n.span.start.offset ≤ x.2.stream.prev.offset ∧
        o = (x.2.openAt n.span.start).1 := by
  have beside {n : Node} {w : Bench} (h : Item.opened o ∈ Item.node n :: w) : .opened o ∈ w :=
    List.mem_of_ne_of_mem (fun e => by cases e) h
  cases h with
  | advance | nest | halt => exact Or.inl ho
  | openNode =>
    rcases List.mem_cons.mp ho with e | ho
    · cases e
      exact Or.inr (Or.inl ⟨rfl, rfl⟩)
    · exact Or.inl ho
  | openAt hn =>
    rcases List.mem_cons.mp (beside ho) with e | ho
    · cases e
      exact Or.inr (Or.inr ⟨_, List.mem_cons_self, hn, rfl⟩)
    · exact Or.inl (List.mem_cons_of_mem _ ho)
  | finish =>
    have ho := (mem_stack.mp ho).resolve_left fun ⟨_, _, e⟩ => by cases e
    exact Or.inl (mem_stack.mpr (Or.inr (List.mem_cons_of_mem _ (beside ho))))
  | record => exact Or.inl (beside ho)
  | drop => exact Or.inl (List.mem_cons_of_mem _ ho)
  | abandon => exact Or.inl (List.mem_cons_of_mem _ (List.mem_cons_of_mem _ (beside ho)))
  | relabel => exact Or.inl (List.mem_cons_of_mem _ (beside ho))

/-! ## What moves consume -/

/-- A move consumes something or leaves the stream as it is. -/
theorem Move.rest {x y : Bench × ParseState} (h : Move x y) (hx : x.2.stream.Sound) :
    y.2.stream.rest < x.2.stream.rest ∨ y.2.stream = x.2.stream := by
  rcases h.stream with e | ⟨he, e⟩ | e
  · exact Or.inr e
  · have := Stream.rest_advance hx he
    rw [e]
    exact Or.inl (by omega)
  · by_cases he : x.2.kind = .eof
    · exact Or.inr (e.trans (Stream.halt_of_eof hx he))
    · have hne : x.2.stream.rest ≠ 0 := fun h0 => he ((Stream.rest_eq_zero hx).mp h0)
      rw [e, Stream.rest_halt]
      exact Or.inl (by omega)

theorem Moves.leads {x y : Bench × ParseState} (h : Moves x y) :
    x.2.stream.Leads y.2.stream := by
  refine h.preserves (P := fun y => x.2.stream.Leads y.2.stream) ?_ .refl
  intro y z hyz hxy
  rcases hyz.stream with e | ⟨hk, e⟩ | e <;> rw [e]
  · exact hxy
  · exact hxy.tail (.advance hk)
  · exact hxy.tail .halt

theorem Moves.constant {x y : Bench × ParseState} (h : Moves x y) :
    y.2.stream.options = x.2.stream.options ∧ y.2.stream.source = x.2.stream.source ∧
      y.2.stream.stop = x.2.stream.stop := by
  refine h.preserves (P := fun y => y.2.stream.options = x.2.stream.options ∧
    y.2.stream.source = x.2.stream.source ∧ y.2.stream.stop = x.2.stream.stop) ?_ ⟨rfl, rfl, rfl⟩
  intro y z hyz ⟨h₁, h₂, h₃⟩
  obtain ⟨e₁, e₂, e₃⟩ := hyz.constant
  exact ⟨e₁.trans h₁, e₂.trans h₂, e₃.trans h₃⟩

theorem Moves.rest {x y : Bench × ParseState} (h : Moves x y) (hx : x.2.stream.Sound) :
    y.2.stream.rest < x.2.stream.rest ∨ y.2.stream = x.2.stream := by
  have hboth : y.2.stream.Sound ∧
      (y.2.stream.rest < x.2.stream.rest ∨ y.2.stream = x.2.stream) := by
    refine h.preserves (P := fun y => y.2.stream.Sound ∧
      (y.2.stream.rest < x.2.stream.rest ∨ y.2.stream = x.2.stream)) ?_ ⟨hx, Or.inr rfl⟩
    intro y z hyz ⟨hy, hle⟩
    refine ⟨hyz.sound hy, ?_⟩
    rcases hyz.rest hy with hlt | e
    · rcases hle with hlt' | e'
      · exact Or.inl (by omega)
      · rw [e'] at hlt
        exact Or.inl hlt
    · rw [e]
      exact hle
  exact hboth.2

end PhpSyntax
