/-
Which node a comment trails.

A comment between two tokens is handed to the node finished last when the next node is
finished behind it.  Where it stands right behind a token, the node that ends with this
token may be the next one to be finished, and the comment goes to the node before.  In no
other case does a node that stands for some text lie between a comment and the node that
it trails (`trailing_touches`).

The invariant is `Trails`.  Nodes enter it by their `Extent` alone.
-/
import PhpSyntax.Proofs.Comment.Attached
import PhpSyntax.Proofs.Span.Nesting

namespace PhpSyntax

/-! ## What finishing a node hands out -/

namespace Trivia

variable (t : Trivia) (queue : Array Comment) (id : Nat) (boundary : Position) (atEnd : Bool)

theorem trail_lastFinished : (t.trail queue id boundary atEnd).2.lastFinished = some id := by
  unfold trail
  split
  · rfl
  · split <;> rfl

/-- Comments are kept aside for the node finished before, up to the boundary. -/
theorem mem_trail_deferred {d : Nat × Comment}
    (h : d ∈ (t.trail queue id boundary atEnd).2.deferred) :
    d ∈ t.deferred ∨ (t.lastFinished = some d.1 ∧ d.2 ∈ t.unread queue ∧
      d.2.offset ≤ boundary.offset) := by
  unfold trail at h
  split at h
  case h_1 last hlast =>
    rw [Array.mem_def, Array.toList_appendList] at h
    rcases List.mem_append.mp h with h | h
    · exact Or.inl (Array.mem_def.mpr h)
    · obtain ⟨c, hc, rfl⟩ := List.mem_map.mp h
      have hle : decide (c.offset ≤ boundary.offset) = true := (List.mem_takeWhile_imp hc :)
      have hunread : c ∈ t.unread queue := (List.takeWhile_sublist _).subset hc
      exact Or.inr ⟨hlast, hunread, of_decide_eq_true hle⟩
  case h_2 => split at h <;> exact Or.inl h

theorem atEnd_of_trail (h : (t.trail queue id boundary atEnd).1 ≠ []) : atEnd = true := by
  unfold trail at h
  split at h
  · exact absurd rfl h
  · split at h
    · assumption
    · exact absurd rfl h

end Trivia

/-! ## Extents -/

/-- Where a node stands, and the comments that it has taken itself. -/
structure Extent where
  id : Nat
  start : Nat
  stop : Nat
  trailing : List Comment
  isError : Bool

namespace Extent

/-- Whatever lies between `e` and the comment ends where the comment starts. -/
def Touches (e : Extent) (c : Comment) (k : Extent) : Prop :=
  k.start < k.stop → e.stop ≤ k.start → k.stop ≤ c.offset → k.stop = c.offset

theorem touches_of_stop_le {e k : Extent} {c : Comment} (h : k.start < k.stop → k.stop ≤ e.stop) :
    e.Touches c k := by
  intro hsome hbehind _
  have := h hsome
  omega

theorem touches_of_le_stop {e k : Extent} {c : Comment}
    (h : k.start < k.stop → c.offset ≤ k.stop) : e.Touches c k := by
  intro hsome _ hbefore
  have := h hsome
  omega

end Extent

def Node.Outline.extent (a : Node.Outline) : Extent :=
  ⟨a.id, a.start.offset, a.stop.offset, a.trailing, a.isError⟩

def ParseState.extent (s : ParseState) (o : Opened) (p : Production Node) : Extent :=
  (Node.mk (s.finishNode o).1 p).outline.extent

theorem ParseState.extent_stop (s : ParseState) (o : Opened) (p : Production Node) :
    (s.extent o p).stop = max o.start.offset s.stream.prev.offset :=
  s.finishNode_stop o

/-- The extent of an error that is recorded now: no text, and no comments. -/
structure Extent.Blank (s : ParseState) (e : Extent) : Prop where
  id : e.id = s.nextId
  start : e.start = s.offset
  stop : e.stop = s.offset
  trailing : e.trailing = []
  isError : e.isError = true

theorem Extent.Blank.not_lt {s : ParseState} {e : Extent} (h : e.Blank s) : ¬e.start < e.stop := by
  rw [h.start, h.stop]
  exact Nat.lt_irrefl _

namespace Bench

def extents (w : Bench) : List Extent := (signatures w).map (·.1.extent)

theorem mem_extents_finish {before : List Node} {s : ParseState} {p : Production Node}
    {o : Opened} {w : Bench} {e : Extent} :
    e ∈ extents (stack before (.node ⟨(s.finishNode o).1, p⟩ :: w)) ↔
      e = s.extent o p ∨ e ∈ extents (stack (before ++ p.parts) (.opened o :: w)) :=
  ((signatures_finish before (s.finishNode o).1 p o w).map _).mem_iff.trans List.mem_cons

theorem extent_lt {x : Bench × ParseState} (h : Distinct x) :
    ∀ e ∈ extents x.1, e.id < x.2.nextId := by
  intro e he
  obtain ⟨g, hg, rfl⟩ := List.mem_map.mp he
  exact h.2 g.1.id (List.mem_map_of_mem hg)

end Bench

/-! ## Moves that finish no node -/

/-- What stays where no node is finished: a new extent is that of an error, and no comment
changes hands. -/
structure Bench.Quiet (x y : Bench × ParseState) : Prop where
  extents : ∀ e ∈ Bench.extents y.1, e ∈ Bench.extents x.1 ∨ e.Blank x.2
  nextId : x.2.nextId ≤ y.2.nextId
  lastFinished : y.2.trivia.lastFinished = x.2.trivia.lastFinished
  deferred : y.2.trivia.deferred = x.2.trivia.deferred
  prev : x.2.stream.prev.offset ≤ y.2.stream.prev.offset
  eof : x.2.kind = .eof → y.2.kind = .eof ∧ y.2.stream.prev = x.2.stream.prev

theorem Move.quiet_or_finish {x y : Bench × ParseState} (h : Move x y)
    (hs : x.2.stream.Sound) :
    Bench.Quiet x y ∨ ∃ (before : List Node) (p : Production Node) (o : Opened) (w : Bench)
      (s : ParseState), x = (stack (before ++ p.parts) (.opened o :: w), s) ∧
        y = (stack before (.node ⟨(s.finishNode o).1, p⟩ :: w), (s.finishNode o).2) := by
  have hprev := h.prev_le hs
  cases h with
  | @finish before p o w s => exact Or.inr ⟨before, p, o, w, s, rfl, rfl⟩
  | advance hk =>
    exact Or.inl ⟨fun _ => Or.inl, Nat.le_refl _, rfl, rfl, hprev, fun he => absurd he hk⟩
  | openNode | openAt | nest =>
    exact Or.inl ⟨fun _ => Or.inl, Nat.le_refl _, rfl, rfl, hprev, fun he => ⟨he, rfl⟩⟩
  | halt =>
    exact Or.inl ⟨fun _ => Or.inl, Nat.le_refl _, rfl, rfl, hprev, fun _ => ⟨rfl, rfl⟩⟩
  | record =>
    refine Or.inl ⟨fun e he => ?_, Nat.le_succ _, rfl, rfl, hprev, fun he => ⟨he, rfl⟩⟩
    rw [Bench.extents, Bench.signatures_node, Node.signatures_eq] at he
    rcases List.mem_cons.mp he with rfl | he
    · exact Or.inr ⟨rfl, rfl, rfl, rfl, rfl⟩
    · exact Or.inl he
  | drop =>
    refine Or.inl ⟨fun e he => ?_, Nat.le_refl _, rfl, rfl, hprev, fun he => ⟨he, rfl⟩⟩
    rw [Bench.extents, Bench.signatures_node, List.map_append]
    exact Or.inl (List.mem_append_right _ he)
  | @abandon o n w s =>
    refine Or.inl ⟨fun e he => ?_, Nat.le_refl _, rfl, rfl, hprev, fun he => ⟨he, rfl⟩⟩
    have he : e ∈ Bench.extents (.node (o.handTo n) :: w) := he
    rw [Bench.extents, Bench.signatures_node, Opened.handTo_signatures] at he
    rw [Bench.extents, Bench.signatures_node, Node.signatures_eq]
    exact Or.inl he
  | relabel hr =>
    refine Or.inl ⟨fun e he => ?_, Nat.le_refl _, rfl, rfl, hprev, fun he => ⟨he, rfl⟩⟩
    rw [Bench.extents, Bench.signatures_node, hr.signatures] at he
    exact Or.inl he

/-! ## The invariant -/

/-- What has been handed out so far touches what lies in between. -/
structure Trails (x : Bench × ParseState) : Prop where
  sound : x.2.stream.Sound
  distinct : Distinct x
  /-- A node that stands for some text ends in front of the boundary. -/
  reached : ∀ e ∈ Bench.extents x.1, e.start < e.stop → e.stop ≤ x.2.stream.prev.offset
  /-- No such node ends behind the one finished last. -/
  latest : ∀ i, x.2.trivia.lastFinished = some i → i < x.2.nextId ∧
    ∀ e ∈ Bench.extents x.1, e.id = i →
      ∀ k ∈ Bench.extents x.1, k.start < k.stop → k.stop ≤ e.stop
  /-- The comments kept aside lie in front of the boundary, so what is finished from now
  on touches them. -/
  aside : ∀ d ∈ x.2.trivia.deferred, d.1 < x.2.nextId ∧ d.2.offset ≤ x.2.stream.prev.offset ∧
    ∀ e ∈ Bench.extents x.1, e.id = d.1 → ∀ k ∈ Bench.extents x.1, e.Touches d.2 k
  /-- Only at the end of the input a node takes comments itself. -/
  own : ∀ e ∈ Bench.extents x.1, e.trailing ≠ [] →
    x.2.kind = .eof ∧ x.2.stream.prev.offset ≤ e.stop

namespace Trails

/-- Where no node is finished, the comments stay where they are. -/
theorem keep {x y : Bench × ParseState} (hx : Trails x) (h : Move x y) (hquiet : Bench.Quiet x y) :
    Trails y where
  sound := h.sound hx.sound
  distinct := h.distinct hx.distinct
  reached := fun e he hsome => by
    rcases hquiet.extents e he with he | hblank
    · exact Nat.le_trans (hx.reached e he hsome) hquiet.prev
    · exact absurd hsome hblank.not_lt
  latest := fun i hi => by
    obtain ⟨hlt, hlatest⟩ := hx.latest i (hquiet.lastFinished ▸ hi)
    refine ⟨Nat.lt_of_lt_of_le hlt hquiet.nextId, fun e he hei k hk hsome => ?_⟩
    rcases hquiet.extents e he with he | hblank
    · rcases hquiet.extents k hk with hk | hblank
      · exact hlatest e he hei k hk hsome
      · exact absurd hsome hblank.not_lt
    · have := hblank.id
      omega
  aside := fun d hd => by
    obtain ⟨hlt, hle, htouches⟩ := hx.aside d (hquiet.deferred ▸ hd)
    refine ⟨Nat.lt_of_lt_of_le hlt hquiet.nextId, Nat.le_trans hle hquiet.prev,
      fun e he hed k hk => ?_⟩
    rcases hquiet.extents e he with he | hblank
    · rcases hquiet.extents k hk with hk | hblank
      · exact htouches e he hed k hk
      · exact Extent.touches_of_le_stop fun hsome => absurd hsome hblank.not_lt
    · have := hblank.id
      omega
  own := fun e he htrailing => by
    rcases hquiet.extents e he with he | hblank
    · obtain ⟨heof, hle⟩ := hx.own e he htrailing
      obtain ⟨heof', hprev⟩ := hquiet.eof heof
      exact ⟨heof', hprev ▸ hle⟩
    · exact absurd hblank.trailing htrailing

variable {w : Bench} {s : ParseState}

/-- What is kept aside where a node is finished was kept aside before, or it trails the node
finished last, behind which no other ends.  So what has been finished touches it. -/
theorem aside_trail (hx : Trails (w, s)) {id : Nat} {boundary : Position} {atEnd : Bool}
    {d : Nat × Comment}
    (hd : d ∈ (s.trivia.trail s.stream.comments id boundary atEnd).2.deferred) :
    d.1 < s.nextId ∧ d.2.offset ≤ max s.stream.prev.offset boundary.offset ∧
      ∀ e ∈ Bench.extents w, e.id = d.1 → ∀ k ∈ Bench.extents w, e.Touches d.2 k := by
  rcases Trivia.mem_trail_deferred _ _ _ _ _ hd with hd | ⟨hlast, _, hle⟩
  · obtain ⟨hlt, hle, htouches⟩ := hx.aside d hd
    exact ⟨hlt, Nat.le_trans hle (Nat.le_max_left _ _), htouches⟩
  · obtain ⟨hlt, hlatest⟩ := hx.latest d.1 hlast
    exact ⟨hlt, Nat.le_trans hle (Nat.le_max_right _ _),
      fun e he hid k hk => Extent.touches_of_stop_le (hlatest e he hid k hk)⟩

theorem finish {before : List Node} {p : Production Node} {o : Opened}
    (hx : Trails (stack (before ++ p.parts) (.opened o :: w), s))
    (hdistinct : Distinct (stack before (.node ⟨(s.finishNode o).1, p⟩ :: w), (s.finishNode o).2)) :
    Trails (stack before (.node ⟨(s.finishNode o).1, p⟩ :: w), (s.finishNode o).2) := by
  have hstop := s.extent_stop o p
  have hold : ∀ e ∈ Bench.extents (stack (before ++ p.parts) (.opened o :: w)), e.id < s.nextId :=
    Bench.extent_lt hx.distinct
  constructor
  case sound => exact hx.sound
  case distinct => exact hdistinct
  case reached =>
    intro e he hsome
    rcases Bench.mem_extents_finish.mp he with rfl | he
    · have hsome : o.start.offset < (s.extent o p).stop := hsome
      show (s.extent o p).stop ≤ s.stream.prev.offset
      omega
    · exact hx.reached e he hsome
  case latest =>
    intro i hi
    obtain rfl : s.nextId = i := by
      rw [ParseState.finishNode_trivia, Trivia.trail_lastFinished] at hi
      exact Option.some.inj hi
    refine ⟨Nat.lt_succ_self _, fun e he hei k hk hsome => ?_⟩
    obtain rfl : e = s.extent o p := by
      refine (Bench.mem_extents_finish.mp he).resolve_right fun he => ?_
      exact Nat.ne_of_lt (hold e he) hei
    rcases Bench.mem_extents_finish.mp hk with rfl | hk
    · exact Nat.le_refl _
    · have hreached : k.stop ≤ s.stream.prev.offset := hx.reached k hk hsome
      omega
  case aside =>
    intro d hd
    obtain ⟨hlt, hle, htouches⟩ := hx.aside_trail hd
    rw [Nat.max_self] at hle
    refine ⟨Nat.lt_succ_of_lt hlt, hle, fun e he hed k hk => ?_⟩
    rcases Bench.mem_extents_finish.mp he with rfl | he
    · exact absurd hed (Nat.ne_of_gt hlt)
    · rcases Bench.mem_extents_finish.mp hk with rfl | hk
      · exact Extent.touches_of_le_stop fun _ => by omega
      · exact htouches e he hed k hk
  case own =>
    intro e he htrailing
    rcases Bench.mem_extents_finish.mp he with rfl | he
    · have hend : s.stream.current.isEof = true := Trivia.atEnd_of_trail _ _ _ _ _ htrailing
      refine ⟨of_decide_eq_true hend, ?_⟩
      show s.stream.prev.offset ≤ (s.extent o p).stop
      omega
    · exact hx.own e he htrailing

end Trails

theorem Move.trails {x y : Bench × ParseState} (h : Move x y) (hx : Trails x) : Trails y := by
  rcases h.quiet_or_finish hx.sound with hquiet | ⟨before, p, o, w, s, rfl, rfl⟩
  · exact hx.keep h hquiet
  · exact hx.finish (h.distinct hx.distinct)

theorem Moves.trails {x y : Bench × ParseState} (h : Moves x y) (hx : Trails x) : Trails y :=
  h.preserves Move.trails hx

/-! ## Programs -/

namespace ParseState

theorem first_trails (source : String) (fileName : Option String) (o : Options) :
    Trails ([.opened (root source fileName o)], first source fileName o) where
  sound := Stream.first_sound source o.effective
  distinct := first_distinct source fileName o
  reached := fun e he => by cases he
  latest := fun i hi => by cases hi
  aside := fun d hd => absurd hd (Array.not_mem_empty d)
  own := fun e he => by cases he

variable {s : ParseState} {root : Opened} {children : List Node}

/-- The comments handed out when the program is finished trail the node finished last. -/
theorem completed_touches (h : Trails (stack children [.opened root], s)) {n m : Node}
    (hn : n ∈ Node.walkFrom children) (hm : m ∈ Node.walkFrom children) {c : Comment}
    (hc : c ∈ n.trailing ++ (s.sealed root).2.trivia.deferredFor n.id) :
    n.outline.extent.Touches c m.outline.extent := by
  have hextent {k : Node} (hk : k ∈ Node.walkFrom children) :
      k.outline.extent ∈ Bench.extents (stack children [.opened root]) :=
    List.mem_map_of_mem (Bench.signature_mem_stack hk _)
  rcases List.mem_append.mp hc with hc | hc
  · obtain ⟨_, hle⟩ := h.own _ (hextent hn) (List.ne_nil_of_mem hc)
    exact Extent.touches_of_stop_le fun hsome => Nat.le_trans (h.reached _ (hextent hm) hsome) hle
  · rw [Trivia.deferredFor_eq] at hc
    obtain ⟨d, hd, rfl⟩ := List.mem_map.mp hc
    obtain ⟨hd, hid⟩ := List.mem_filter.mp hd
    have hid : d.1 = n.id := of_decide_eq_true hid
    obtain ⟨_, _, htouches⟩ := h.aside_trail (Array.mem_def.mpr hd)
    exact htouches _ (hextent hn) hid.symm _ (hextent hm)

end ParseState

/-- If a node that stands for some text lies between a node and a comment that trails it,
then this node ends where the comment starts. -/
theorem trailing_touches {source : String} {fileName : Option String} {o : Options}
    {p : Program} (h : parse source fileName o = .ok p) :
    ∀ n ∈ p.tree, ∀ c ∈ n.trailing, ∀ m ∈ p.tree, m.span.start.offset < m.span.stop.offset →
      n.span.stop.offset ≤ m.span.start.offset → m.span.stop.offset ≤ c.offset →
        m.span.stop.offset = c.offset := by
  obtain ⟨children, s, rfl, hmoves, _, _⟩ := parse_ok h
  have htrails := hmoves.trails (ParseState.first_trails source fileName o)
  intro n hn c hc m hm
  rw [ParseState.completed_tree] at hn hm
  obtain ⟨n', hn', rfl⟩ := List.mem_map.mp hn
  obtain ⟨m', hm', rfl⟩ := List.mem_map.mp hm
  rw [Node.toNodeInfo_mapInfo] at hc ⊢
  rw [Node.toNodeInfo_mapInfo]
  exact ParseState.completed_touches htrails hn' hm' hc

/-- The comment trails the first argument, since the second is not finished when it is
handed out. -/
theorem trailing_touches_argument :
    ∃ p, parse "<?php f($a,$b/*c*/);" none { extractDoc := true } = .ok p ∧
      (∀ n ∈ p.tree, ∀ c ∈ n.trailing, ∀ m ∈ p.tree,
        m.span.start.offset < m.span.stop.offset → n.span.stop.offset ≤ m.span.start.offset →
          m.span.stop.offset ≤ c.offset → m.span.stop.offset = c.offset) ∧
      ∃ n ∈ p.tree, ∃ c ∈ n.trailing, ∃ m ∈ p.tree, m.span.start.offset < m.span.stop.offset ∧
        n.span.stop.offset ≤ m.span.start.offset ∧ m.span.stop.offset ≤ c.offset := by
  have hrun : ((parse "<?php f($a,$b/*c*/);" none { extractDoc := true }).toOption.any fun p =>
      p.tree.any fun n => n.trailing.any fun c => p.tree.any fun m =>
        m.span.start.offset < m.span.stop.offset && n.span.stop.offset ≤ m.span.start.offset &&
          m.span.stop.offset ≤ c.offset) = true := by
    rw [parse_eq, statementsFrom_eq]
    decide +kernel
  obtain ⟨p, hp, hany⟩ := parse_of_any hrun
  obtain ⟨n, hn, hany⟩ := List.any_eq_true.mp hany
  obtain ⟨c, hc, hany⟩ := List.any_eq_true.mp hany
  obtain ⟨m, hm, hbetween⟩ := List.any_eq_true.mp hany
  simp only [Bool.and_eq_true, decide_eq_true_eq] at hbetween
  obtain ⟨⟨hsome, hbehind⟩, hbefore⟩ := hbetween
  exact ⟨p, hp, trailing_touches hp, n, hn, c, hc, m, hm, hsome, hbehind, hbefore⟩

end PhpSyntax
