/-
Comments stand in the order of the text.

The comments that have been passed stand one behind the other, all in front of the current
token (`Stream.Lined`).  A node that is opened takes those that have not been read, so they
end in front of it, and what is read while it is open stands behind its start.  Where such
a node is given up, its comments go in front of those of the node that it is given up for,
and the order is kept (`Led`).
-/
import PhpSyntax.Proofs.Comment.Attached
import PhpSyntax.Proofs.Span.Nesting

namespace PhpSyntax

namespace Comment

def stop (c : Comment) : Nat := c.offset + c.text.utf8ByteSize

def Before (c d : Comment) : Prop := c.stop ≤ d.offset

theorem offset_le_stop (c : Comment) : c.offset ≤ c.stop := Nat.le_add_right _ _

theorem text_of_ofToken? {t : Token} {c : Comment} (h : ofToken? t = some c) :
    c.text = t.text := by
  unfold ofToken? at h
  split at h
  · cases h
    rfl
  · split at h
    · cases h
      rfl
    · cases h
      rfl
  · cases h

end Comment

/-! ## The comments that have been passed -/

/-- The comments among tokens that fill a stretch stand in it one behind the other. -/
theorem Contiguous.comments {p q : Position} {ts : List Token} (h : Contiguous p ts q) :
    (ts.filterMap Comment.ofToken?).Pairwise Comment.Before ∧
      ∀ c ∈ ts.filterMap Comment.ofToken?, p.offset ≤ c.offset ∧ c.stop ≤ q.offset := by
  induction ts generalizing p with
  | nil => exact ⟨List.Pairwise.nil, fun c hc => by cases hc⟩
  | cons t ts ih =>
    have hle := h.offset_le
    obtain ⟨hstart, _, hstop, _, hrest⟩ := h
    obtain ⟨hpairwise, hwithin⟩ := ih hrest
    have hsize : t.stop.offset = p.offset + t.text.utf8ByteSize := by
      rw [hstop, Position.offset_advance]
    have hrestle := hrest.offset_le
    have hlater : ∀ c ∈ ts.filterMap Comment.ofToken?, p.offset ≤ c.offset ∧ c.stop ≤ q.offset := by
      intro c hc
      obtain ⟨hlo, hhi⟩ := hwithin c hc
      exact ⟨by omega, hhi⟩
    cases hc : Comment.ofToken? t with
    | none =>
      rw [List.filterMap_cons_none hc]
      exact ⟨hpairwise, hlater⟩
    | some c =>
      rw [List.filterMap_cons_some hc]
      have hoffset : c.offset = p.offset := by
        rw [Comment.offset, Comment.position_of_ofToken? hc, hstart]
      have hend : c.stop = t.stop.offset := by
        rw [Comment.stop, Comment.text_of_ofToken? hc, hoffset, hsize]
      refine ⟨List.pairwise_cons.mpr ⟨fun d hd => ?_, hpairwise⟩,
        List.forall_mem_cons.mpr ⟨⟨by omega, by omega⟩, hlater⟩⟩
      show c.stop ≤ d.offset
      rw [hend]
      exact (hwithin d hd).1

namespace Stream

/-- The trivia fill the stretch up to the next token. -/
theorem trivia_contiguous {s : Stream} {p : Position} (h : Contiguous p s.ahead s.stop) :
    Contiguous p s.trivia s.advance.current.start := by
  rw [← s.trivia_append_upcoming] at h
  obtain ⟨m, htrivia, hupcoming⟩ := h.of_append
  cases hu : s.upcoming with
  | nil =>
    rw [hu] at hupcoming
    have hstart : s.advance.current.start = s.stop := by simp [advance, hu, Token.eof]
    rw [hstart, ← show m = s.stop from hupcoming]
    exact htrivia
  | cons t ts =>
    rw [hu] at hupcoming
    have hstart : s.advance.current.start = t.start := by simp [advance, hu]
    rw [hstart, hupcoming.1]
    exact htrivia

/-- The comments that advancing passes stand between the two tokens. -/
theorem advance_passes {s : Stream} (h : Contiguous s.current.stop s.ahead s.stop) :
    ∃ cs, s.advance.comments.toList = s.comments.toList ++ cs ∧ cs.Pairwise Comment.Before ∧
      ∀ c ∈ cs, s.current.stop.offset ≤ c.offset ∧ c.stop ≤ s.advance.current.start.offset := by
  by_cases hdoc : s.options.extractDoc = true
  · exact ⟨s.trivia.filterMap Comment.ofToken?, by simp [advance, hdoc],
      (trivia_contiguous h).comments⟩
  · exact ⟨[], by simp [advance, hdoc], List.Pairwise.nil, fun c hc => by cases hc⟩

/-- The comments that have been passed stand one behind the other in front of the current
token. -/
structure Lined (s : Stream) : Prop where
  sorted : s.comments.toList.Pairwise Comment.Before
  passed : ∀ c ∈ s.comments.toList, c.stop ≤ s.current.start.offset

theorem Lined.advance_of {s : Stream} (hs : s.Lined)
    (h : Contiguous s.current.stop s.ahead s.stop)
    (hle : s.current.start.offset ≤ s.current.stop.offset) : s.advance.Lined := by
  obtain ⟨cs, hcs, hpairwise, hbetween⟩ := advance_passes h
  have hforward : s.current.stop.offset ≤ s.advance.current.start.offset :=
    (trivia_contiguous h).offset_le
  constructor
  · rw [hcs]
    refine List.pairwise_append.mpr ⟨hs.sorted, hpairwise, fun c hc d hd => ?_⟩
    exact Nat.le_trans (hs.passed c hc) (Nat.le_trans hle (hbetween d hd).1)
  · rw [hcs]
    refine List.forall_mem_append.mpr ⟨fun c hc => ?_, fun c hc => (hbetween c hc).2⟩
    exact Nat.le_trans (hs.passed c hc) (Nat.le_trans hle hforward)

theorem Lined.halt {s : Stream} (hs : s.Lined) (h : s.Sound) : s.halt.2.Lined :=
  ⟨hs.sorted, fun c hc =>
    Nat.le_trans (hs.passed c hc) (Nat.le_trans h.start_le h.ahead.offset_le)⟩

theorem first_lined (source : String) (o : Options) : (ofSource source o).advance.Lined :=
  Lined.advance_of ⟨List.Pairwise.nil, fun c hc => by cases hc⟩ (ofSource_contiguous source o)
    (Nat.le_refl _)

end Stream

theorem Move.lined {x y : Bench × ParseState} (h : Move x y) (hs : x.2.stream.Sound)
    (hx : x.2.stream.Lined) : y.2.stream.Lined := by
  rcases h.stream with e | ⟨_, e⟩ | e <;> rw [e]
  · exact hx
  · exact hx.advance_of hs.ahead hs.start_le
  · exact hx.halt hs

/-! ## The comments that have not been read -/

namespace ParseState

def unread (s : ParseState) : List Comment := s.trivia.unread s.stream.comments

theorem unread_eq (s : ParseState) :
    s.unread = s.stream.comments.toList.drop s.trivia.read :=
  s.trivia.unread_eq _

theorem unread_sublist (s : ParseState) : s.unread.Sublist s.stream.comments.toList := by
  rw [unread_eq]
  exact List.drop_sublist _ _

theorem unread_openNode (s : ParseState) : s.openNode.2.unread = [] := by
  rw [unread_eq]
  exact List.drop_eq_nil_of_le (Nat.le_of_eq Array.length_toList)

/-- What advancing adds to the comments that have not been read stands behind the token
that is consumed. -/
theorem unread_advance {s : ParseState} (hs : s.stream.Sound)
    (hread : s.trivia.read ≤ s.stream.comments.size) :
    ∃ cs, s.advance.unread = s.unread ++ cs ∧ cs.Pairwise Comment.Before ∧
      ∀ c ∈ cs, s.stream.current.stop.offset ≤ c.offset := by
  obtain ⟨cs, hcs, hsorted, hbetween⟩ := Stream.advance_passes hs.ahead
  refine ⟨cs, ?_, hsorted, fun c hc => (hbetween c hc).1⟩
  rw [unread_eq, unread_eq, advance, hcs, List.drop_append_of_le_length]
  rw [Array.length_toList]
  exact hread

end ParseState

namespace Trivia

variable (t : Trivia) (queue : Array Comment) (id : Nat) (boundary : Position) (atEnd : Bool)

/-- Behind a node finished before, the comments from the boundary on remain. -/
theorem unread_trail_of_some {last : Nat} (h : t.lastFinished = some last) :
    (t.trail queue id boundary atEnd).2.unread queue =
      (t.unread queue).dropWhile (·.offset ≤ boundary.offset) := by
  simp only [trail, h]
  rw [unread_eq, unread_eq, ← List.drop_drop]
  generalize queue.toList.drop t.read = cs
  have hsplit := List.takeWhile_append_dropWhile (p := (·.offset ≤ boundary.offset)) (l := cs)
  conv => lhs; arg 2; rw [← hsplit]
  exact List.drop_left

theorem unread_trail_sublist :
    ((t.trail queue id boundary atEnd).2.unread queue).Sublist (t.unread queue) := by
  cases hlast : t.lastFinished with
  | some last =>
    rw [unread_trail_of_some t queue id boundary atEnd hlast]
    exact List.dropWhile_sublist _
  | none =>
    cases atEnd with
    | true =>
      have hnone : (t.trail queue id boundary true).2.unread queue = [] := by
        simp only [trail, hlast, if_true]
        rw [unread_eq]
        exact List.drop_eq_nil_of_le (Nat.le_of_eq Array.length_toList)
      rw [hnone]
      exact List.nil_sublist _
    | false =>
      simp only [trail, hlast]
      exact List.Sublist.refl _

end Trivia

theorem ParseState.unread_finishNode_sublist (s : ParseState) (o : Opened) :
    (s.finishNode o).2.unread.Sublist s.unread :=
  Trivia.unread_trail_sublist ..

/-- A comment that has not been read behind a move had not been read before, or it stands
behind the token that was consumed. -/
theorem Move.mem_unread {x y : Bench × ParseState} (h : Move x y) (hs : x.2.stream.Sound)
    (hread : x.2.trivia.read ≤ x.2.stream.comments.size) {c : Comment} (hc : c ∈ y.2.unread) :
    c ∈ x.2.unread ∨ (x.2.kind ≠ .eof ∧ x.2.offset ≤ c.offset) := by
  cases h with
  | @advance w s hk =>
    obtain ⟨cs, hcs, _, hbehind⟩ := ParseState.unread_advance hs hread
    rw [hcs] at hc
    refine (List.mem_append.mp hc).imp_right fun hc => ⟨hk, ?_⟩
    exact Nat.le_trans hs.start_le (hbehind c hc)
  | @openNode w s =>
    have hnone : s.openNode.2.unread = [] := s.unread_openNode
    rw [hnone] at hc
    exact absurd hc List.not_mem_nil
  | @finish before p o w s => exact Or.inl ((s.unread_finishNode_sublist o).subset hc)
  | _ => exact Or.inl hc

/-! ## Leading comments -/

def Item.leading : Item → List Comment
  | opened o => o.leading
  | node n => n.leading

namespace Bench

/-- What leads an item stands behind the start of each node below it that comments lead. -/
def Layered : Bench → Prop
  | [] => True
  | i :: w => (∀ o, .opened o ∈ w → o.leading ≠ [] → ∀ c ∈ i.leading, o.start.offset ≤ c.offset) ∧
      Layered w

theorem layered_stack {ns : List Node} {w : Bench} :
    Layered (stack ns w) ↔
      (∀ n ∈ ns, ∀ o, .opened o ∈ w → o.leading ≠ [] →
        ∀ c ∈ n.leading, o.start.offset ≤ c.offset) ∧ Layered w := by
  induction ns generalizing w with
  | nil => simp
  | cons n ns ih =>
    rw [stack_cons, ih]
    simp [Layered, Item.leading, and_left_comm, and_assoc]

end Bench

def Comment.Lead (cs : List Comment) (start : Position) : Prop :=
  cs.Pairwise Before ∧ ∀ c ∈ cs, c.stop ≤ start.offset

/-- What leads open and finished nodes stands in front of them. -/
structure Led (x : Bench × ParseState) : Prop where
  placed : Placed x
  balanced : Balanced x
  lined : x.2.stream.Lined
  layered : Bench.Layered x.1
  opened : ∀ o, .opened o ∈ x.1 → Comment.Lead o.leading o.start ∧
    (o.leading ≠ [] → ∀ c ∈ x.2.unread, o.start.offset ≤ c.offset)
  nodes : ∀ g ∈ Bench.signatures x.1, Comment.Lead g.1.leading g.1.start

namespace Move

variable {x y : Bench × ParseState}

theorem layered (h : Move x y) (hx : Led x) : Bench.Layered y.1 := by
  have hold := hx.layered
  cases h with
  | advance | nest | halt => exact hold
  | openNode =>
    refine ⟨fun o ho hled c hc => ?_, hold⟩
    exact (hx.opened o ho).2 hled c hc
  | record => exact ⟨fun o _ _ c hc => (List.not_mem_nil hc).elim, hold⟩
  | openAt =>
    refine ⟨fun o ho hled => ?_, fun o _ _ c hc => (List.not_mem_nil hc).elim, hold.2⟩
    rcases List.mem_cons.mp ho with e | ho
    · cases e
      exact absurd rfl hled
    · exact hold.1 o ho hled
  | @finish before p o w s he h =>
    obtain ⟨habove, hopened, hw⟩ := Bench.layered_stack.mp hold
    refine Bench.layered_stack.mpr ⟨fun n hn q hq => ?_, hopened, hw⟩
    have hq : Item.opened q ∈ w := by simpa using hq
    exact habove n (List.mem_append_left _ hn) q (List.mem_cons_of_mem _ hq)
  | drop => exact hold.2
  | @abandon o n w s =>
    refine ⟨fun q hq hled c hc => ?_, hold.2.2⟩
    rcases List.mem_append.mp hc with hc | hc
    · exact hold.2.1 q hq hled c hc
    · exact hold.1 q (List.mem_cons_of_mem _ hq) hled c hc
  | @relabel m n w s hr =>
    have hleading : n.leading = m.leading := congrArg Node.Outline.leading hr.outline
    refine ⟨fun o ho hled => ?_, hold.2⟩
    rw [Item.leading, hleading]
    exact hold.1 o ho hled

theorem openedLed (h : Move x y) (hx : Led x) :
    ∀ o, .opened o ∈ y.1 → Comment.Lead o.leading o.start ∧
      (o.leading ≠ [] → ∀ c ∈ y.2.unread, o.start.offset ≤ c.offset) := by
  intro o ho
  rcases h.opened ho with ho | ⟨rfl, hstate⟩ | ⟨n, _, _, rfl⟩
  · obtain ⟨hlead, hunread⟩ := hx.opened o ho
    refine ⟨hlead, fun hled c hc => ?_⟩
    rcases h.mem_unread hx.placed.sound hx.balanced.1 hc with hc | ⟨_, hbehind⟩
    · exact hunread hled c hc
    · exact Nat.le_trans (hx.placed.starts (.opened o) ho) hbehind
  · have hsublist := x.2.unread_sublist
    refine ⟨⟨hx.lined.sorted.sublist hsublist, fun c hc =>
      hx.lined.passed c (hsublist.subset hc)⟩, fun _ c hc => ?_⟩
    rw [hstate, ParseState.unread_openNode] at hc
    exact absurd hc List.not_mem_nil
  · exact ⟨⟨List.Pairwise.nil, fun c hc => absurd hc List.not_mem_nil⟩, fun h => absurd rfl h⟩

theorem nodesLed (h : Move x y) (hx : Led x) :
    ∀ g ∈ Bench.signatures y.1, Comment.Lead g.1.leading g.1.start := by
  intro g hg
  rcases h.signatures g hg with hg | hadds
  · exact hx.nodes g hg
  · cases hadds with
    | @finish before p o w s =>
      exact (hx.opened o (mem_stack.mpr (Or.inr List.mem_cons_self))).1
    | record => exact ⟨List.Pairwise.nil, fun c hc => absurd hc List.not_mem_nil⟩
    | @abandon o n w s =>
      obtain ⟨hown, hownFront⟩ := hx.nodes n.signature (Bench.signature_mem List.mem_cons_self)
      obtain ⟨⟨hsorted, hfront⟩, _⟩ := hx.opened o (List.mem_cons_of_mem _ List.mem_cons_self)
      have hstart : o.start.offset ≤ n.span.start.offset :=
        hx.placed.ordered.1 o List.mem_cons_self
      refine ⟨List.pairwise_append.mpr ⟨hsorted, hown, fun c hc d hd => ?_⟩,
        List.forall_mem_append.mpr ⟨fun c hc => Nat.le_trans (hfront c hc) hstart, hownFront⟩⟩
      have hbehind := hx.layered.1 o List.mem_cons_self (List.ne_nil_of_mem hc) d hd
      exact Nat.le_trans (hfront c hc) hbehind

theorem led (h : Move x y) (hx : Led x) : Led y :=
  ⟨h.placed hx.placed, h.balanced hx.balanced, h.lined hx.placed.sound hx.lined, h.layered hx,
    h.openedLed hx, h.nodesLed hx⟩

end Move

theorem ParseState.first_led (source : String) (fileName : Option String) (o : Options) :
    Led ([.opened (root source fileName o)], first source fileName o) where
  placed := first_placed source fileName o
  balanced := first_balanced source fileName o
  lined := Stream.first_lined source o.effective
  layered := ⟨fun q hq => absurd hq List.not_mem_nil, trivial⟩
  opened := fun q hq => by
    cases List.mem_singleton.mp hq
    exact ⟨⟨List.Pairwise.nil, fun c hc => (List.not_mem_nil hc).elim⟩, fun h => absurd rfl h⟩
  nodes := fun g hg => absurd hg List.not_mem_nil

end PhpSyntax
