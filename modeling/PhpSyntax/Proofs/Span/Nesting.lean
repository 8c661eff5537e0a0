/-
Where the nodes of a program stand.

A node ends at the boundary behind the last token consumed, and a closing tag moves no
boundary.  So a statement that is nothing but a closing tag, and a branch without
statements, may stand for no text and lie behind the end of its parent.  In strict mode
every other child lies within its parent (`spans_nest`).

The invariant is `Placed`: nodes on the bench start in the order in which they were read,
and end at the boundary or where they start.
-/
import PhpSyntax.Proofs.Trace.Program

namespace PhpSyntax

/-! ## What a node keeps to -/

namespace Node.Outline

/-- Where a child may stand: within its parent or, if it is hollow and stands for no text,
behind it. -/
def Admits (parent child : Outline) : Prop :=
  parent.start.offset ≤ child.start.offset ∧
    (child.stop.offset ≤ parent.stop.offset ∨
      (child.isHollow = true ∧ child.stop.offset = child.start.offset ∧
        parent.stop.offset < child.start.offset))

/-- A node ends at the boundary, in front of it, or where it starts. -/
structure Ended (boundary : Nat) (a : Outline) : Prop where
  start_le : a.start.offset ≤ a.stop.offset
  stop_le : a.stop.offset ≤ boundary ∨ (a.isHollow = true ∧ a.stop.offset = a.start.offset)

theorem Ended.mono {m n : Nat} {a : Outline} (h : Ended m a) (hmn : m ≤ n) : Ended n a := by
  refine ⟨h.start_le, ?_⟩
  rcases h.stop_le with hle | hempty
  · exact Or.inl (Nat.le_trans hle hmn)
  · exact Or.inr hempty

end Node.Outline

/-- A node that is finished ends at the boundary, unless it starts behind it. -/
theorem ParseState.finishNode_stop (s : ParseState) (o : Opened) :
    (s.finishNode o).1.span.stop.offset = max o.start.offset s.stream.prev.offset := by
  by_cases hle : o.start.offset ≤ s.stream.prev.offset
  · have hstop : (s.finishNode o).1.span.stop = s.stream.prev := by
      simp [finishNode, Span.between, hle]
    rw [hstop]
    omega
  · have hstop : (s.finishNode o).1.span.stop = o.start := by
      simp [finishNode, Span.between, hle]
    rw [hstop]
    omega

namespace ParseState

variable {s : ParseState} {o : Opened} {p : Production Node}

theorem ended_finishNode (h : p.isHollow = true ∨ o.start.offset ≤ s.stream.prev.offset) :
    (Node.mk (s.finishNode o).1 p).outline.Ended s.stream.prev.offset := by
  have hstop := s.finishNode_stop o
  constructor
  · show o.start.offset ≤ (s.finishNode o).1.span.stop.offset
    omega
  · show (s.finishNode o).1.span.stop.offset ≤ s.stream.prev.offset ∨
      (p.isHollow = true ∧ (s.finishNode o).1.span.stop.offset = o.start.offset)
    by_cases hle : o.start.offset ≤ s.stream.prev.offset
    · exact Or.inl (by omega)
    · exact Or.inr ⟨h.resolve_right hle, by omega⟩

/-- A finished node admits what was read since it was opened. -/
theorem finishNode_admits {m : Node} (hstart : o.start.offset ≤ m.span.start.offset)
    (hended : m.outline.Ended s.stream.prev.offset) :
    (Node.mk (s.finishNode o).1 p).outline.Admits m.outline := by
  have hstop := s.finishNode_stop o
  have hle : m.span.stop.offset ≤ s.stream.prev.offset ∨
      (m.production.isHollow = true ∧ m.span.stop.offset = m.span.start.offset) :=
    hended.stop_le
  refine ⟨hstart, ?_⟩
  show m.span.stop.offset ≤ (s.finishNode o).1.span.stop.offset ∨
    (m.production.isHollow = true ∧ m.span.stop.offset = m.span.start.offset ∧
      (s.finishNode o).1.span.stop.offset < m.span.start.offset)
  rcases hle with hle | ⟨hhollow, hempty⟩
  · exact Or.inl (by omega)
  · by_cases hwithin : m.span.stop.offset ≤ (s.finishNode o).1.span.stop.offset
    · exact Or.inl hwithin
    · exact Or.inr ⟨hhollow, hempty, by omega⟩

end ParseState

/-! ## The bench in order -/

namespace Bench

def Ordered : Bench → Prop
  | [] => True
  | i :: w => (∀ o, .opened o ∈ w → o.start.offset ≤ i.start.offset) ∧ Ordered w

theorem ordered_stack {ns : List Node} {w : Bench} :
    Ordered (stack ns w) ↔
      (∀ n ∈ ns, ∀ o, .opened o ∈ w → o.start.offset ≤ n.span.start.offset) ∧ Ordered w := by
  induction ns generalizing w with
  | nil => simp
  | cons n ns ih =>
    rw [stack_cons, ih]
    simp [Ordered, Item.start, and_left_comm, and_assoc]

end Bench

/-- The nodes on the bench stand where nodes may stand. -/
structure Placed (x : Bench × ParseState) : Prop where
  sound : x.2.stream.Sound
  starts : ∀ i ∈ x.1, i.start.offset ≤ x.2.offset
  ordered : Bench.Ordered x.1
  ended : x.2.tolerates = false →
    ∀ g ∈ Bench.signatures x.1, g.1.Ended x.2.stream.prev.offset ∧ ∀ c ∈ g.2, g.1.Admits c

/-- A child of a node that is finished has been read since the node was opened. -/
theorem Placed.child_start {before : List Node} {p : Production Node} {o : Opened} {w : Bench}
    {s : ParseState} {m : Node} (hx : Placed (stack (before ++ p.parts) (.opened o :: w), s))
    (hm : m ∈ p.children) : o.start.offset ≤ m.span.start.offset := by
  have hpart : m ∈ before ++ p.parts :=
    List.mem_append_right _ (p.parts_perm.mem_iff.mpr hm)
  exact (Bench.ordered_stack.mp hx.ordered).1 m hpart o List.mem_cons_self

namespace Move

variable {x y : Bench × ParseState}

theorem ordered (h : Move x y) (hx : Placed x) : Bench.Ordered y.1 := by
  have hold := hx.ordered
  have hstarts := hx.starts
  cases h with
  | advance | nest | halt => exact hold
  | openNode => exact ⟨fun o ho => hstarts (.opened o) ho, hold⟩
  | record => exact ⟨fun o ho => hstarts (.opened o) ho, hold⟩
  | @openAt n w s =>
    refine ⟨fun o ho => ?_, hold⟩
    rcases List.mem_cons.mp ho with e | ho
    · cases e
      exact Nat.le_refl _
    · exact hold.1 o ho
  | @finish before p o w s he h =>
    obtain ⟨habove, hopened, hw⟩ := Bench.ordered_stack.mp hold
    refine Bench.ordered_stack.mpr ⟨fun n hn q hq => ?_, hopened, hw⟩
    have hq : Item.opened q ∈ w := by simpa using hq
    exact habove n (List.mem_append_left _ hn) q (List.mem_cons_of_mem _ hq)
  | drop => exact hold.2
  | @abandon o n w s => exact ⟨fun q hq => hold.1 q (List.mem_cons_of_mem _ hq), hold.2.2⟩
  | @relabel m n w s hr =>
    have hstart : n.span.start = m.span.start := congrArg Node.Outline.start hr.outline
    refine ⟨fun o ho => ?_, hold.2⟩
    rw [Item.start, hstart]
    exact hold.1 o ho

theorem ended (h : Move x y) (hx : Placed x) (hs : y.2.tolerates = false) :
    ∀ g ∈ Bench.signatures y.1,
      g.1.Ended y.2.stream.prev.offset ∧ ∀ c ∈ g.2, g.1.Admits c := by
  have hstrict : x.2.tolerates = false := h.tolerates.symm.trans hs
  have hold := hx.ended hstrict
  intro g hg
  rcases h.signatures g hg with hg | hadds
  · obtain ⟨hended, hadmits⟩ := hold g hg
    exact ⟨hended.mono (h.prev_le hx.sound), hadmits⟩
  · cases hadds with
    | finish he hplace =>
      refine ⟨ParseState.ended_finishNode (hplace hstrict), fun c hc => ?_⟩
      obtain ⟨m, hm, rfl⟩ := List.mem_map.mp hc
      have hchild := hold m.signature (Bench.signature_mem_child hm _)
      exact ParseState.finishNode_admits (hx.child_start hm) hchild.1
    | record ht => exact absurd hstrict (ne_false_of_eq_true ht)
    | @abandon o n =>
      obtain ⟨hended, hadmits⟩ := hold n.signature (Bench.signature_mem List.mem_cons_self)
      exact ⟨⟨hended.start_le, hended.stop_le⟩, hadmits⟩

theorem placed (h : Move x y) (hx : Placed x) : Placed y :=
  ⟨h.sound hx.sound, h.starts hx.sound hx.starts, h.ordered hx, h.ended hx⟩

end Move

theorem Moves.placed {x y : Bench × ParseState} (h : Moves x y) (hx : Placed x) : Placed y :=
  h.preserves Move.placed hx

/-! ## Programs -/

namespace ParseState

variable (source : String) (fileName : Option String) (o : Options)

theorem first_placed :
    Placed ([.opened (root source fileName o)], first source fileName o) where
  sound := Stream.first_sound source o.effective
  starts := fun i hi => by
    rw [List.mem_singleton.mp hi]
    exact Nat.zero_le _
  ordered := ⟨fun q hq => absurd hq List.not_mem_nil, trivial⟩
  ended := fun _ g hg => absurd hg List.not_mem_nil

theorem completed_span {s : ParseState} (hs : s.stream.Sound) (he : s.kind = .eof)
    (children : List Node) :
    (s.completed (root source fileName o) children).span =
      .between Position.origin s.stream.stop := by
  have hprev : s.stream.finish.prev = s.stream.stop := Stream.finish_prev hs he
  have hsealed : (s.sealed (root source fileName o)).1.span =
      .between Position.origin s.stream.finish.prev := by
    show Span.between Position.origin
      (if 0 ≤ s.stream.finish.prev.offset then s.stream.finish.prev else Position.origin) = _
    rw [if_pos (Nat.zero_le _)]
  rw [completed, Trivia.settle_span, ← hprev]
  exact hsealed

end ParseState

theorem Production.isHollow_map {α β : Type} (f : α → β) (p : Production α) :
    (p.map f).isHollow = p.isHollow := by
  cases p <;> rfl

theorem Node.isHollow_mapInfo (g : NodeInfo → NodeInfo) (n : Node) :
    (mapInfo g n).production.isHollow = n.production.isHollow := by
  rw [mapInfo_eq]
  exact Production.isHollow_map _ _

/-- A statement that is nothing but a closing tag, or a branch without statements, behind
the end of `n`. -/
def Node.Trails (c n : Node) : Prop :=
  c.production.isHollow = true ∧ c.span.stop.offset = c.span.start.offset ∧
    n.span.stop.offset < c.span.start.offset

theorem Node.contains_iff {n c : Node} (h : n.outline.Admits c.outline) :
    n.span.contains c.span = true ↔ ¬c.Trails n := by
  have hstart : n.span.start.offset ≤ c.span.start.offset := h.1
  have hstop : c.span.stop.offset ≤ n.span.stop.offset ∨ c.Trails n := h.2
  rw [Span.contains, Bool.and_eq_true, decide_eq_true_eq, decide_eq_true_eq]
  constructor
  · intro ⟨_, hle⟩ ⟨_, hempty, hlt⟩
    omega
  · intro htrails
    rcases hstop with hle | htrails'
    · exact ⟨hstart, hle⟩
    · exact absurd htrails' htrails

namespace ParseState

variable {s : ParseState} {root : Opened} {children : List Node}

theorem completed_contains (h : Placed (stack children [.opened root], s))
    (hs : s.tolerates = false) {c : Node} (hc : c ∈ (s.completed root children).children) :
    (Span.between Position.origin s.stream.stop).contains c.span = true := by
  rw [completed, Trivia.settle_children] at hc
  obtain ⟨m, hm, rfl⟩ := List.mem_map.mp hc
  have hend : m.span.stop.offset ≤ s.stream.prev.offset ∨
      (m.production.isHollow = true ∧ m.span.stop.offset = m.span.start.offset) :=
    (h.ended hs _ (Bench.signature_mem_stack (Node.mem_walkFrom hm) _)).1.stop_le
  have hstart : m.span.start.offset ≤ s.stream.current.start.offset :=
    h.starts (.node m) (mem_stack.mpr (Or.inl ⟨m, hm, rfl⟩))
  have hsound : s.stream.Sound := h.sound
  have hprev := hsound.prev_le
  have hoffset := Nat.le_trans hsound.start_le hsound.ahead.offset_le
  rw [Node.span_mapInfo (Trivia.span_deliver _), Span.contains, Bool.and_eq_true, decide_eq_true_eq,
    decide_eq_true_eq]
  refine ⟨Nat.zero_le _, ?_⟩
  show m.span.stop.offset ≤ s.stream.stop.offset
  rcases hend with hle | ⟨_, hempty⟩
  · omega
  · omega

theorem completed_nests (h : Placed (stack children [.opened root], s))
    (hs : s.tolerates = false) {n c : Node} (hn : n ∈ (s.completed root children).tree)
    (hc : c ∈ n.children) : n.span.contains c.span = true ↔ ¬c.Trails n := by
  rw [completed_tree] at hn
  obtain ⟨m, hm, rfl⟩ := List.mem_map.mp hn
  rw [Node.children_mapInfo] at hc
  obtain ⟨d, hd, rfl⟩ := List.mem_map.mp hc
  have hadmits := (h.ended hs _ (Bench.signature_mem_stack hm _)).2 d.outline
    (List.mem_map_of_mem hd)
  have hiff := Node.contains_iff hadmits
  rw [Node.Trails] at hiff ⊢
  rw [Node.isHollow_mapInfo, Node.span_mapInfo (Trivia.span_deliver _),
    Node.span_mapInfo (Trivia.span_deliver _)]
  exact hiff

end ParseState

/-- In strict mode the program spans the text, its statements lie within it, and so does
every other child within its parent, unless it stands for no text behind it. -/
theorem spans_nest {source : String} {fileName : Option String} {o : Options} {p : Program}
    (ho : o.suppressErrors = false) (h : parse source fileName o = .ok p) :
    p.span.start = Position.origin ∧ p.span.stop = Position.origin.advance source ∧
      (∀ c ∈ p.children, p.span.contains c.span = true) ∧
      ∀ n ∈ p.tree, ∀ c ∈ n.children, (n.span.contains c.span = true ↔ ¬c.Trails n) := by
  obtain ⟨children, s, rfl, hmoves, hsound, heof⟩ := parse_ok h
  have hplaced := hmoves.placed (ParseState.first_placed source fileName o)
  have hstrict : s.tolerates = false := (ParseState.first_tolerates hmoves).trans ho
  have hstop : s.stream.stop = Position.origin.advance source := hmoves.constant.2.2
  have hspan := ParseState.completed_span source fileName o hsound heof children
  refine ⟨?_, ?_, ?_, ?_⟩
  · rw [hspan]
    rfl
  · rw [hspan]
    exact hstop
  · rw [hspan]
    exact fun c hc => ParseState.completed_contains hplaced hstrict hc
  · exact fun n hn c hc => ParseState.completed_nests hplaced hstrict hn hc

/-- The closing tag that is the body of a conditional lies behind it. -/
theorem spans_nest_closingTag :
    ∃ p, parse "<?php if ($a) ?>" none {} = .ok p ∧
      (p.span.start = Position.origin ∧
        p.span.stop = Position.origin.advance "<?php if ($a) ?>" ∧
        (∀ c ∈ p.children, p.span.contains c.span = true) ∧
        ∀ n ∈ p.tree, ∀ c ∈ n.children, (n.span.contains c.span = true ↔ ¬c.Trails n)) ∧
      ∃ n ∈ p.tree, ∃ c ∈ n.children, n.span.contains c.span = false := by
  have hrun : ((parse "<?php if ($a) ?>" none {}).toOption.any fun p =>
      p.children.any fun n => n.children.any fun c => !n.span.contains c.span) = true := by
    rw [parse_eq, statementsFrom_eq]
    decide +kernel
  obtain ⟨p, hp, hany⟩ := parse_of_any hrun
  obtain ⟨n, hn, hany⟩ := List.any_eq_true.mp hany
  obtain ⟨c, hc, houtside⟩ := List.any_eq_true.mp hany
  have hfalse : n.span.contains c.span = false := by simpa using houtside
  exact ⟨p, hp, spans_nest rfl hp, n, Node.mem_walkFrom hn, c, hc, hfalse⟩

end PhpSyntax
