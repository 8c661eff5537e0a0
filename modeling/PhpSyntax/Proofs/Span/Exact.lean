/-
Where the spans of nodes begin and end.

In either mode a node starts where a token of the grammar does, or at the end of the text,
and ends behind a token that is no closing tag, or where it starts.  `Exact` keeps of every
node on the bench that its ends were such places when it was finished, and that no child
begins before it or, unless it is empty, ends behind it.
-/
import PhpSyntax.Proofs.Span.Nesting
import PhpSyntax.Proofs.Stream.OnTokens

namespace PhpSyntax

/-! ## Nodes -/

namespace Node.Outline

/-- A node begins where it may and is empty or ends where it may, not behind the
boundary. -/
structure Exact (source : String) (boundary : Nat) (a : Outline) : Prop where
  begins : a.start.Begins source
  ends : a.stop = a.start ∨
    (a.stop.Ends source ∧ a.start.offset ≤ a.stop.offset ∧ a.stop.offset ≤ boundary)

/-- A child does not begin before its parent and, unless it is empty, does not end behind
it. -/
def Keeps (parent child : Outline) : Prop :=
  parent.start.offset ≤ child.start.offset ∧
    (child.stop = child.start ∨ child.stop.offset ≤ parent.stop.offset)

theorem Exact.mono {source : String} {m n : Nat} {a : Outline} (h : a.Exact source m)
    (hmn : m ≤ n) : a.Exact source n := by
  refine ⟨h.begins, ?_⟩
  rcases h.ends with hempty | ⟨hends, hle, hstop⟩
  · exact Or.inl hempty
  · exact Or.inr ⟨hends, hle, Nat.le_trans hstop hmn⟩

end Node.Outline

/-- The nodes on the bench, and those recorded as errors, begin and end exactly. -/
structure Exact (source : String) (x : Bench × ParseState) : Prop where
  placed : Placed x
  tokens : x.2.stream.OnTokens source
  begins : ∀ i ∈ x.1, i.start.Begins source
  nodes : ∀ g ∈ Bench.signatures x.1,
    g.1.Exact source x.2.stream.prev.offset ∧ ∀ c ∈ g.2, g.1.Keeps c
  errors : ∀ n ∈ x.2.errors.toList,
    n.span.start.Begins source ∧ n.span.stop = n.span.start ∧ n.children = []

namespace ParseState

variable {source : String} {s : ParseState} {o : Opened} {p : Production Node}

/-- A node that is finished ends at the boundary, unless it starts there or behind it. -/
theorem finishNode_exact (hs : s.stream.OnTokens source) (ho : o.start.Begins source) :
    (Node.mk (s.finishNode o).1 p).outline.Exact source s.stream.prev.offset := by
  refine ⟨ho, ?_⟩
  show (if o.start.offset ≤ s.stream.prev.offset then s.stream.prev else o.start) = o.start ∨ _
  by_cases hle : o.start.offset ≤ s.stream.prev.offset
  · have hstop : (Node.mk (s.finishNode o).1 p).outline.stop = s.stream.prev := by
      simp [Node.outline, finishNode, Span.between, hle]
    rw [if_pos hle]
    rcases hs.prev with hprev | hprev
    · rw [hprev] at hle
      have hzero : o.start.offset = 0 := Nat.le_zero.mp hle
      exact Or.inl (hprev.trans (ho.isIn.eq_origin hzero).symm)
    · refine Or.inr ⟨hstop ▸ hprev, ?_, Nat.le_of_eq (congrArg Position.offset hstop)⟩
      rw [hstop]
      exact hle
  · rw [if_neg hle]
    exact Or.inl rfl

theorem finishNode_keeps {m : Node} (hstart : o.start.offset ≤ m.span.start.offset)
    (hm : m.outline.Exact source s.stream.prev.offset) :
    (Node.mk (s.finishNode o).1 p).outline.Keeps m.outline := by
  refine ⟨hstart, ?_⟩
  rcases hm.ends with hempty | ⟨_, _, hle⟩
  · exact Or.inl hempty
  · have hstop := s.finishNode_stop o
    right
    show m.span.stop.offset ≤ (s.finishNode o).1.span.stop.offset
    have hle' : m.span.stop.offset ≤ s.stream.prev.offset := hle
    omega

end ParseState

namespace Move

variable {source : String} {x y : Bench × ParseState}

theorem onTokens (h : Move x y) (hx : x.2.stream.OnTokens source) :
    y.2.stream.OnTokens source := by
  rcases h.stream with e | ⟨hk, e⟩ | e <;> rw [e]
  · exact hx
  · exact hx.advance hk
  · exact hx.halt

theorem begins (h : Move x y) (hs : x.2.stream.OnTokens source)
    (hx : ∀ i ∈ x.1, i.start.Begins source) : ∀ i ∈ y.1, i.start.Begins source := by
  intro i hi
  rcases h.start_eq i hi with ⟨j, hj, e⟩ | e <;> rw [e]
  · exact hx j hj
  · exact hs.begins

theorem nodes (h : Move x y) (hx : Exact source x) :
    ∀ g ∈ Bench.signatures y.1,
      g.1.Exact source y.2.stream.prev.offset ∧ ∀ c ∈ g.2, g.1.Keeps c := by
  intro g hg
  rcases h.signatures g hg with hg | hadds
  · obtain ⟨hexact, hkeeps⟩ := hx.nodes g hg
    exact ⟨hexact.mono (h.prev_le hx.placed.sound), hkeeps⟩
  · cases hadds with
    | @finish before p o w s =>
      have hopened : o.start.Begins source :=
        hx.begins (.opened o) (mem_stack.mpr (Or.inr List.mem_cons_self))
      refine ⟨ParseState.finishNode_exact hx.tokens hopened, fun c hc => ?_⟩
      obtain ⟨m, hm, rfl⟩ := List.mem_map.mp hc
      have hchild := hx.nodes m.signature (Bench.signature_mem_child hm _)
      exact ParseState.finishNode_keeps (hx.placed.child_start hm) hchild.1
    | record =>
      exact ⟨⟨hx.tokens.begins, Or.inl rfl⟩, fun c hc => absurd hc List.not_mem_nil⟩
    | @abandon o n =>
      obtain ⟨hexact, hkeeps⟩ := hx.nodes n.signature (Bench.signature_mem List.mem_cons_self)
      exact ⟨⟨hexact.begins, hexact.ends⟩, hkeeps⟩

theorem exact (h : Move x y) (hx : Exact source x) : Exact source y := by
  refine ⟨h.placed hx.placed, h.onTokens hx.tokens, h.begins hx.tokens hx.begins, h.nodes hx, ?_⟩
  cases h with
  | @record message e w s =>
    show ∀ n ∈ (s.errors.push (s.errorNode message e)).toList, _
    rw [Array.toList_push]
    refine List.forall_mem_append.mpr ⟨hx.errors, fun n hn => ?_⟩
    rw [List.mem_singleton.mp hn]
    exact ⟨hx.tokens.begins, rfl, rfl⟩
  | _ => exact hx.errors

end Move

theorem Moves.exact {source : String} {x y : Bench × ParseState} (h : Moves x y)
    (hx : Exact source x) : Exact source y :=
  h.preserves Move.exact hx

/-! ## Programs -/

namespace ParseState

variable (source : String) (fileName : Option String) (o : Options)

/-- In front of the first statement nothing has been made. -/
theorem first_exact : Exact source ([], first source fileName o) where
  placed :=
    { sound := Stream.first_sound source o.effective
      starts := fun _ hi => absurd hi List.not_mem_nil
      ordered := trivial
      ended := fun _ _ hg => absurd hg List.not_mem_nil }
  tokens := Stream.OnTokens.first source o.effective
  begins := fun _ hi => absurd hi List.not_mem_nil
  nodes := fun _ hg => absurd hg List.not_mem_nil
  errors := fun _ hn => absurd hn List.not_mem_nil

end ParseState

namespace Span

/-- A span begins and ends at tokens of the text, in this order, and the line and column of
either end are those of the text in front of it. -/
structure OnTokens (source : String) (s : Span) : Prop where
  begins : s.start.Begins source
  ends : s.stop = s.start ∨ s.stop.Ends source
  ordered : s.start.offset ≤ s.stop.offset
  start_isIn : s.start.IsIn source
  stop_isIn : s.stop.IsIn source

/-- What lies in `outer` begins no earlier and, unless it is empty, ends no later. -/
def Bounds (outer inner : Span) : Prop :=
  outer.start.offset ≤ inner.start.offset ∧
    (inner.start.offset < inner.stop.offset → inner.stop.offset ≤ outer.stop.offset)

end Span

namespace Node.Outline

variable {source : String} {boundary : Nat} {n c : Node}

theorem Exact.onTokens (h : n.outline.Exact source boundary) : n.span.OnTokens source := by
  have hbegins : n.span.start.Begins source := h.begins
  have hends : n.span.stop = n.span.start ∨ (n.span.stop.Ends source ∧
      n.span.start.offset ≤ n.span.stop.offset ∧ n.span.stop.offset ≤ boundary) := h.ends
  rcases hends with hempty | ⟨hends, hle, _⟩
  · exact ⟨hbegins, Or.inl hempty, Nat.le_of_eq (by rw [hempty]), hbegins.isIn,
      hempty ▸ hbegins.isIn⟩
  · exact ⟨hbegins, Or.inr hends, hle, hbegins.isIn, hends.isIn⟩

theorem Keeps.bounds (h : n.outline.Keeps c.outline) : n.span.Bounds c.span := by
  have hstop : c.span.stop = c.span.start ∨ c.span.stop.offset ≤ n.span.stop.offset := h.2
  refine ⟨h.1, fun hlt => ?_⟩
  rcases hstop with hempty | hle
  · rw [hempty] at hlt
    omega
  · exact hle

end Node.Outline

namespace ParseState

variable {source : String} {s : ParseState} {root : Opened} {children : List Node}

theorem completed_onTokens (h : Exact source (stack children [], s)) {n : Node}
    (hn : n ∈ (s.completed root children).walk) :
    n.span.OnTokens source ∧ ∀ c ∈ n.children, n.span.Bounds c.span := by
  rw [Program.walk_eq, Program.top, Node.walkFrom_append, List.mem_append] at hn
  rcases hn with hn | hn
  · have htree : n ∈ (s.completed root children).tree := hn
    rw [completed_tree] at htree
    obtain ⟨m, hm, rfl⟩ := List.mem_map.mp htree
    obtain ⟨hexact, hkeeps⟩ := h.nodes _ (Bench.signature_mem_stack hm _)
    have hexact : m.outline.Exact source s.stream.prev.offset := hexact
    rw [Node.span_mapInfo (Trivia.span_deliver _)]
    refine ⟨hexact.onTokens, fun c hc => ?_⟩
    rw [Node.children_mapInfo] at hc
    obtain ⟨d, hd, rfl⟩ := List.mem_map.mp hc
    have hd : m.outline.Keeps d.outline := hkeeps _ (List.mem_map_of_mem hd)
    rw [Node.span_mapInfo (Trivia.span_deliver _)]
    exact hd.bounds
  · rw [completed_errors, Node.walkFrom_eq] at hn
    obtain ⟨e, he, hn⟩ := List.mem_flatMap.mp hn
    obtain ⟨hbegins, hempty, hleaf⟩ := h.errors e he
    rw [Node.walk_eq, hleaf] at hn
    rw [List.mem_singleton.mp hn, hleaf]
    refine ⟨⟨hbegins, Or.inl hempty, Nat.le_of_eq (by rw [hempty]), hbegins.isIn, ?_⟩,
      fun c hc => absurd hc List.not_mem_nil⟩
    rw [hempty]
    exact hbegins.isIn

end ParseState

/-- In either mode the program spans the text.  Every node of its tree, and every error,
starts where a token of the grammar does or at the end of the text; it is empty, or ends
behind a token of the grammar that is no closing tag; and its ends are points of the text.
No child starts before its parent, and none that is not empty ends behind it. -/
theorem spans_exact {source : String} {fileName : Option String} {o : Options} {p : Program}
    (h : parse source fileName o = .ok p) :
    p.span.start = Position.origin ∧ p.span.stop = Position.origin.advance source ∧
      (∀ n ∈ p.walk, n.span.OnTokens source ∧ ∀ c ∈ n.children, n.span.Bounds c.span) ∧
      ∀ c ∈ p.children, p.span.Bounds c.span := by
  obtain ⟨children, s, hs, rfl⟩ := parse_statements h
  -- What is made lies on a bench of its own: the program starts where no token has to.
  obtain ⟨hmoves, hsound, heof⟩ := ((statementsFrom_meets (w := [])
    (Stream.first_sound source _) fun _ hi => absurd hi List.not_mem_nil).ok hs).1
  have hexact := hmoves.exact (ParseState.first_exact source fileName o)
  have hspan := ParseState.completed_span source fileName o hsound heof children
  have hstop : s.stream.stop = Position.origin.advance source := hexact.tokens.stop
  have hnodes : ∀ n ∈ (s.completed (ParseState.root source fileName o) children).walk,
      n.span.OnTokens source ∧ ∀ c ∈ n.children, n.span.Bounds c.span :=
    fun n => ParseState.completed_onTokens hexact
  refine ⟨?_, ?_, hnodes, fun c hc => ⟨?_, fun _ => ?_⟩⟩
  · rw [hspan]
    rfl
  · rw [hspan]
    exact hstop
  · rw [hspan]
    exact Nat.zero_le _
  · rw [hspan]
    have htop : c ∈ (s.completed (ParseState.root source fileName o) children).top :=
      List.mem_append_left _ hc
    rw [hstop]
    rw [Program.walk_eq] at hnodes
    exact (hnodes c (Node.mem_walkFrom htop)).1.stop_isIn.offset_le

/-- A text with a placeholder for a missing operand, whose end the parser does not read. -/
theorem spans_exact_halted :
    ∃ p, parse "<?php $a = ; __halt_compiler(); x" none .tolerant = .ok p ∧
      (p.span.start = Position.origin ∧
        p.span.stop = Position.origin.advance "<?php $a = ; __halt_compiler(); x" ∧
        (∀ n ∈ p.walk, n.span.OnTokens "<?php $a = ; __halt_compiler(); x" ∧
          ∀ c ∈ n.children, n.span.Bounds c.span) ∧
        ∀ c ∈ p.children, p.span.Bounds c.span) ∧
      p.tree.any Node.isError = true := by
  have hrun : ((parse "<?php $a = ; __halt_compiler(); x" none .tolerant).toOption.any fun p =>
      p.tree.any Node.isError) = true := by
    rw [parse_eq, statementsFrom_eq]
    decide +kernel
  obtain ⟨p, hp, herror⟩ := parse_of_any hrun
  exact ⟨p, hp, spans_exact hp, herror⟩

end PhpSyntax
