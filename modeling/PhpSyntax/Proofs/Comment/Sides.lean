/-
On which side of a node its comments stand.

The comments that lead a node end in front of it, and both its lists are in the order of the
text.  A comment that trails a node has been left over when the node was finished, since it
stands behind the boundary that the node ends at.  Only for the first node that is finished
nothing takes the comments inside it: they are left over as well, and trail it
(`comments_beside`).  The invariant is `Sided`.
-/
import PhpSyntax.Proofs.Comment.Order
import PhpSyntax.Proofs.Comment.Trailing

namespace PhpSyntax

/-! ## What finishing a node leaves over -/

namespace Trivia

variable (t : Trivia) (queue : Array Comment) (id : Nat) (boundary : Position) (atEnd : Bool)

/-- The comments kept aside and those not read are one row, of which finishing a node
moves the border or leaves out the end. -/
theorem trail_sorted (h : (t.aside ++ t.unread queue).Pairwise Comment.Before) :
    ((t.trail queue id boundary atEnd).2.aside ++
      (t.trail queue id boundary atEnd).2.unread queue).Pairwise Comment.Before := by
  cases hlast : t.lastFinished with
  | some last =>
    rw [unread_trail_of_some t queue id boundary atEnd hlast]
    have haside : (t.trail queue id boundary atEnd).2.aside =
        t.aside ++ (t.unread queue).takeWhile (·.offset ≤ boundary.offset) := by
      simp [trail, hlast, aside, Function.comp_def]
    rw [haside, List.append_assoc, List.takeWhile_append_dropWhile]
    exact h
  | none =>
    have haside : (t.trail queue id boundary atEnd).2.aside = t.aside := by
      unfold trail
      rw [hlast]
      cases atEnd <;> rfl
    rw [haside]
    exact h.sublist ((unread_trail_sublist t queue id boundary atEnd).append_left _)

/-- Where comments in order are left over behind a node finished before, they stand behind
the boundary. -/
theorem lt_of_mem_unread_trail {last : Nat} (h : t.lastFinished = some last)
    (hsorted : (t.unread queue).Pairwise Comment.Before) :
    ∀ c ∈ (t.trail queue id boundary atEnd).2.unread queue, boundary.offset < c.offset := by
  rw [unread_trail_of_some t queue id boundary atEnd h]
  generalize t.unread queue = cs at hsorted
  induction cs with
  | nil => exact fun c hc => (List.not_mem_nil hc).elim
  | cons c cs ih =>
    obtain ⟨hhead, htail⟩ := List.pairwise_cons.mp hsorted
    by_cases hle : c.offset ≤ boundary.offset
    · rw [List.dropWhile_cons_of_pos (by simpa using hle)]
      exact ih htail
    · rw [List.dropWhile_cons_of_neg (by simpa using hle)]
      refine List.forall_mem_cons.mpr ⟨Nat.lt_of_not_le hle, fun d hd => ?_⟩
      have hbefore : c.stop ≤ d.offset := hhead d hd
      have := c.offset_le_stop
      omega

/-- The first node that is finished takes all comments or none. -/
theorem trail_of_none (h : t.lastFinished = none) :
    (t.trail queue id boundary atEnd).2.deferred = t.deferred ∧
      ((t.trail queue id boundary atEnd).1 ≠ [] →
        (t.trail queue id boundary atEnd).1 = t.unread queue ∧
          (t.trail queue id boundary atEnd).2.unread queue = []) := by
  cases atEnd with
  | true =>
    simp only [trail, h, if_true]
    refine ⟨trivial, fun _ => ⟨trivial, ?_⟩⟩
    rw [unread_eq]
    exact List.drop_eq_nil_of_le (Nat.le_of_eq Array.length_toList)
  | false =>
    simp only [trail, h]
    exact ⟨rfl, fun hne => absurd rfl hne⟩

theorem trail_of_some {last : Nat} (h : t.lastFinished = some last) :
    (t.trail queue id boundary atEnd).1 = [] := by
  simp only [trail, h]

end Trivia

/-! ## The invariant -/

def Bench.First (w : Bench) (e : Extent) : Prop :=
  ∀ k ∈ extents w, k.id < e.id → k.isError = true

/-- Where a comment stands that trails `e`. -/
def Extent.Beside (x : Bench × ParseState) (e : Extent) (c : Comment) : Prop :=
  (x.1.First e ∨ e.stop ≤ c.offset) ∧ (x.2.tolerates = false → e.start ≤ c.offset)

/-- What is left over stands behind the start of an open node, or the boundary does. -/
def Opened.Fresh (s : ParseState) (o : Opened) : Prop :=
  (∀ c ∈ s.unread, o.start.offset ≤ c.offset) ∨
    (o.start.offset ≤ s.stream.prev.offset ∧
      (s.tolerates = false → s.trivia.lastFinished ≠ none))

/-- Comments stand beside the nodes that they trail, and those left over beside the node
finished last. -/
structure Sided (x : Bench × ParseState) : Prop where
  led : Led x
  trails : Trails x
  faultless : Faultless x
  sorted : (x.2.trivia.aside ++ x.2.unread).Pairwise Comment.Before
  within : ∀ e ∈ Bench.extents x.1, e.start ≤ e.stop ∧ e.stop ≤ x.2.offset
  errors : x.2.trivia.lastFinished = none →
    x.2.trivia.deferred = #[] ∧ ∀ e ∈ Bench.extents x.1, e.isError = true
  opened : ∀ o, .opened o ∈ x.1 → o.Fresh x.2
  latest : ∀ i, x.2.trivia.lastFinished = some i →
    ∀ e ∈ Bench.extents x.1, e.id = i → ∀ c ∈ x.2.unread, e.Beside x c
  aside : ∀ d ∈ x.2.trivia.deferred, ∀ e ∈ Bench.extents x.1, e.id = d.1 → e.Beside x d.2
  own : ∀ e ∈ Bench.extents x.1, e.trailing ≠ [] → x.2.unread = [] ∧ x.2.trivia.deferred = #[] ∧
    e.trailing.Pairwise Comment.Before ∧ ∀ c ∈ e.trailing, e.Beside x c

/-- Nodes made later leave a comment beside an earlier one. -/
theorem Extent.Beside.keep {x y : Bench × ParseState} {e : Extent} {c : Comment}
    (h : e.Beside x c) (hid : e.id < x.2.nextId)
    (hnew : ∀ k ∈ Bench.extents y.1, k ∈ Bench.extents x.1 ∨ k.id = x.2.nextId)
    (ht : y.2.tolerates = x.2.tolerates) : e.Beside y c := by
  refine ⟨h.1.imp_left fun hfirst k hk hlt => ?_, fun hs => h.2 (ht.symm.trans hs)⟩
  rcases hnew k hk with hk | hnew
  · exact hfirst k hk hlt
  · omega

/-! ## The comments that go on -/

namespace Move

variable {x y : Bench × ParseState}

/-- Once a node has been finished there is one that was finished last. -/
theorem lastFinished_ne_none (h : Move x y) (hx : x.2.trivia.lastFinished ≠ none) :
    y.2.trivia.lastFinished ≠ none := by
  cases h with
  | finish =>
    rw [ParseState.finishNode_trivia, Trivia.trail_lastFinished]
    exact Option.some_ne_none _
  | _ => exact hx

/-- What is left over behind the start of a node stays there. -/
theorem fresh (h : Move x y) (hx : Sided x) : ∀ o, .opened o ∈ y.1 → o.Fresh y.2 := by
  have hsound := hx.led.placed.sound
  intro o ho
  rcases h.opened ho with ho | ⟨rfl, hstate⟩ | ⟨n, hn, hle, rfl⟩
  · rcases hx.opened o ho with hfresh | ⟨hle, hsome⟩
    · refine Or.inl fun c hc => ?_
      rcases h.mem_unread hsound hx.led.balanced.1 hc with hc | ⟨_, hbehind⟩
      · exact hfresh c hc
      · exact Nat.le_trans (hx.led.placed.starts (.opened o) ho) hbehind
    · exact Or.inr ⟨Nat.le_trans hle (h.prev_le hsound),
        fun hs => h.lastFinished_ne_none (hsome (h.tolerates.symm.trans hs))⟩
  · refine Or.inl fun c hc => ?_
    rw [hstate, ParseState.unread_openNode] at hc
    exact absurd hc List.not_mem_nil
  · -- The node that is continued is no error in strict mode, so it has been finished.
    refine Or.inr ⟨Nat.le_trans hle (h.prev_le hsound), fun hs => h.lastFinished_ne_none ?_⟩
    intro hnone
    have hsignature : n.signature ∈ Bench.signatures x.1 := Bench.signature_mem hn
    have hproper : n.isError = false :=
      (hx.faultless (h.tolerates.symm.trans hs)).2 _ hsignature
    have herror : n.isError = true := (hx.errors hnone).2 _ (List.mem_map_of_mem hsignature)
    exact Bool.false_ne_true (hproper.symm.trans herror)

/-- The row of the comments kept aside and of those not read goes on. -/
theorem sorted (h : Move x y) (hx : Sided x) :
    (y.2.trivia.aside ++ y.2.unread).Pairwise Comment.Before := by
  cases h with
  | @advance w s =>
    have hsound : s.stream.Sound := hx.led.placed.sound
    obtain ⟨hread, hperm⟩ := hx.led.balanced
    obtain ⟨cs, hcs, hsorted, hbehind⟩ := ParseState.unread_advance hsound hread
    have hpassed : ∀ c ∈ s.trivia.aside ++ s.unread, c ∈ s.stream.comments.toList := by
      refine List.forall_mem_append.mpr ⟨fun c hc => ?_, fun c hc => s.unread_sublist.subset hc⟩
      exact List.mem_of_mem_take (hperm.mem_iff.mp (List.mem_append_right _ hc))
    rw [hcs, ← List.append_assoc]
    refine List.pairwise_append.mpr ⟨hx.sorted, hsorted, fun c hc d hd => ?_⟩
    have hstop : c.stop ≤ s.stream.current.start.offset := hx.led.lined.passed c (hpassed c hc)
    exact Nat.le_trans hstop (Nat.le_trans hsound.start_le (hbehind d hd))
  | openNode =>
    rw [ParseState.unread_openNode, List.append_nil]
    exact (List.pairwise_append.mp hx.sorted).1
  | finish => exact Trivia.trail_sorted _ _ _ _ _ hx.sorted
  | _ => exact hx.sorted

end Move

/-! ## What moves do to the sides -/

namespace Sided

/-- Where no node is finished, comments stay beside nodes. -/
theorem keep {x y : Bench × ParseState} (hx : Sided x) (h : Move x y) (hquiet : Bench.Quiet x y) :
    Sided y := by
  have hsound := hx.led.placed.sound
  have hbound : ∀ e ∈ Bench.extents x.1, e.id < x.2.nextId := Bench.extent_lt hx.trails.distinct
  have hunread {c : Comment} (hc : c ∈ y.2.unread) :
      c ∈ x.2.unread ∨ (x.2.kind ≠ .eof ∧ x.2.offset ≤ c.offset) :=
    h.mem_unread hsound hx.led.balanced.1 hc
  have hkeep {e : Extent} {c : Comment} (he : e ∈ Bench.extents x.1) (hbeside : e.Beside x c) :
      e.Beside y c :=
    hbeside.keep (hbound e he) (fun k hk => (hquiet.extents k hk).imp_right (·.id)) h.tolerates
  constructor
  case led => exact h.led hx.led
  case trails => exact h.trails hx.trails
  case faultless => exact h.faultless hx.faultless
  case sorted => exact h.sorted hx
  case opened => exact h.fresh hx
  case within =>
    intro e he
    have hoffset := h.offset_le hsound
    rcases hquiet.extents e he with he | hblank
    · obtain ⟨hle, hstop⟩ := hx.within e he
      exact ⟨hle, Nat.le_trans hstop hoffset⟩
    · rw [hblank.start, hblank.stop]
      exact ⟨Nat.le_refl _, hoffset⟩
  case errors =>
    intro hnone
    obtain ⟨hdeferred, herrors⟩ := hx.errors (hquiet.lastFinished.symm.trans hnone)
    refine ⟨hquiet.deferred.trans hdeferred, fun e he => ?_⟩
    rcases hquiet.extents e he with he | hblank
    · exact herrors e he
    · exact hblank.isError
  case latest =>
    intro i hi e he hei c hc
    have hi : x.2.trivia.lastFinished = some i := hquiet.lastFinished.symm.trans hi
    rcases hquiet.extents e he with he | hblank
    · rcases hunread hc with hc | ⟨_, hbehind⟩
      · exact hkeep he (hx.latest i hi e he hei c hc)
      · obtain ⟨hle, hstop⟩ := hx.within e he
        have hstop := Nat.le_trans hstop hbehind
        exact ⟨Or.inr hstop, fun _ => Nat.le_trans hle hstop⟩
    · exact absurd (hblank.id.symm.trans hei) (Nat.ne_of_gt (hx.trails.latest i hi).1)
  case aside =>
    intro d hd e he hed
    have hd : d ∈ x.2.trivia.deferred := hquiet.deferred ▸ hd
    rcases hquiet.extents e he with he | hblank
    · exact hkeep he (hx.aside d hd e he hed)
    · exact absurd (hblank.id.symm.trans hed) (Nat.ne_of_gt (hx.trails.aside d hd).1)
  case own =>
    intro e he htrailing
    rcases hquiet.extents e he with he | hblank
    · obtain ⟨hread, hdeferred, hpairwise, hbeside⟩ := hx.own e he htrailing
      refine ⟨List.eq_nil_iff_forall_not_mem.mpr fun c hc => ?_, hquiet.deferred.trans hdeferred,
        hpairwise, fun c hc => hkeep he (hbeside c hc)⟩
      rcases hunread hc with hc | ⟨hne, _⟩
      · exact List.not_mem_nil (hread ▸ hc)
      · exact hne (hx.trails.own e he htrailing).1
    · exact absurd hblank.trailing htrailing

section

variable {w : Bench} {s : ParseState} {id : Nat} {boundary : Position} {atEnd : Bool}

/-- What is kept aside where a node is finished stands beside the nodes that it is kept for. -/
theorem aside_trail (hx : Sided (w, s)) {d : Nat × Comment}
    (hd : d ∈ (s.trivia.trail s.stream.comments id boundary atEnd).2.deferred) :
    d.1 < s.nextId ∧ ∀ e ∈ Bench.extents w, e.id = d.1 → e.Beside (w, s) d.2 := by
  rcases Trivia.mem_trail_deferred _ _ _ _ _ hd with hd | ⟨hlast, hc, _⟩
  · exact ⟨(hx.trails.aside d hd).1, hx.aside d hd⟩
  · exact ⟨(hx.trails.latest d.1 hlast).1, fun e he hed => hx.latest d.1 hlast e he hed d.2 hc⟩

/-- Where a node has taken comments itself, all that were left, none is kept aside from then
on. -/
theorem deferred_trail (hx : Sided (w, s)) {e : Extent} (he : e ∈ Bench.extents w)
    (h : e.trailing ≠ []) :
    (s.trivia.trail s.stream.comments id boundary atEnd).2.deferred = #[] := by
  obtain ⟨hread, hdeferred, _⟩ := hx.own e he h
  refine Array.eq_empty_iff_forall_not_mem.mpr fun d hd => ?_
  rcases Trivia.mem_trail_deferred _ _ _ _ _ hd with hd | ⟨_, hc, _⟩
  · exact Array.not_mem_empty d (hdeferred ▸ hd)
  · have hc : d.2 ∈ s.unread := hc
    exact List.not_mem_nil (hread ▸ hc)

end

section

variable {before : List Node} {p : Production Node} {o : Opened} {w : Bench} {s : ParseState}

/-- What is left over in front of a node that is finished stands beside it, if it stands behind
the boundary or no node has been finished before. -/
theorem beside_extent (hx : Sided (stack (before ++ p.parts) (.opened o :: w), s)) {c : Comment}
    (hc : c ∈ s.unread)
    (hlast : s.trivia.lastFinished = none ∨ s.stream.prev.offset < c.offset) :
    (s.extent o p).Beside
      (stack before (.node ⟨(s.finishNode o).1, p⟩ :: w), (s.finishNode o).2) c := by
  have hstop := s.extent_stop o p
  have hopen : o.Fresh s := hx.opened o (mem_stack.mpr (Or.inr List.mem_cons_self))
  refine ⟨?_, fun hs => ?_⟩
  · rcases hlast with hnone | hlt
    · refine Or.inl fun k hk hlt => ?_
      rcases Bench.mem_extents_finish.mp hk with rfl | hk
      · exact absurd hlt (Nat.lt_irrefl _)
      · exact (hx.errors hnone).2 k hk
    · refine Or.inr ?_
      rcases hopen with hfresh | ⟨hle, _⟩
      · have := hfresh c hc
        omega
      · omega
  · show o.start.offset ≤ c.offset
    rcases hopen with hfresh | ⟨hle, hsome⟩
    · exact hfresh c hc
    · rcases hlast with hnone | hlt
      · exact absurd hnone (hsome hs)
      · omega

/-- A node takes comments itself only where it is the first that is finished.  It takes all
that are left over, and nothing is kept aside. -/
theorem own_extent (hx : Sided (stack (before ++ p.parts) (.opened o :: w), s))
    (h : (s.extent o p).trailing ≠ []) :
    (s.finishNode o).2.unread = [] ∧ (s.finishNode o).2.trivia.deferred = #[] ∧
      (s.extent o p).trailing.Pairwise Comment.Before ∧
      ∀ c ∈ (s.extent o p).trailing, (s.extent o p).Beside
        (stack before (.node ⟨(s.finishNode o).1, p⟩ :: w), (s.finishNode o).2) c := by
  have htrailing : (s.finishNode o).1.trailing ≠ [] := h
  rw [ParseState.finishNode_trailing] at htrailing
  cases hlast : s.trivia.lastFinished with
  | some last => exact absurd (Trivia.trail_of_some _ _ _ _ _ hlast) htrailing
  | none =>
    obtain ⟨hdeferred, htaken⟩ := Trivia.trail_of_none s.trivia s.stream.comments s.nextId
      s.stream.prev s.stream.current.isEof hlast
    obtain ⟨hall, hrest⟩ := htaken htrailing
    have hown : (s.extent o p).trailing = s.unread := hall
    refine ⟨hrest, hdeferred.trans (hx.errors hlast).1, ?_, fun c hc => ?_⟩
    · rw [hown]
      exact (List.pairwise_append.mp hx.sorted).2.1
    · rw [hown] at hc
      exact hx.beside_extent hc (Or.inl hlast)

theorem finish (hx : Sided (stack (before ++ p.parts) (.opened o :: w), s))
    (h : Move (stack (before ++ p.parts) (.opened o :: w), s)
      (stack before (.node ⟨(s.finishNode o).1, p⟩ :: w), (s.finishNode o).2)) :
    Sided (stack before (.node ⟨(s.finishNode o).1, p⟩ :: w), (s.finishNode o).2) := by
  have hbound : ∀ e ∈ Bench.extents (stack (before ++ p.parts) (.opened o :: w)),
      e.id < s.nextId := Bench.extent_lt hx.trails.distinct
  have hkeep {e : Extent} {c : Comment}
      (he : e ∈ Bench.extents (stack (before ++ p.parts) (.opened o :: w)))
      (hbeside : e.Beside (stack (before ++ p.parts) (.opened o :: w), s) c) :
      e.Beside (stack before (.node ⟨(s.finishNode o).1, p⟩ :: w), (s.finishNode o).2) c :=
    hbeside.keep (hbound e he)
      (fun k hk => (Bench.mem_extents_finish.mp hk).symm.imp_right (congrArg Extent.id)) rfl
  have hunread : ∀ c ∈ (s.finishNode o).2.unread, c ∈ s.unread := fun c hc =>
    (s.unread_finishNode_sublist o).subset hc
  constructor
  case led => exact h.led hx.led
  case trails => exact h.trails hx.trails
  case faultless => exact h.faultless hx.faultless
  case sorted => exact h.sorted hx
  case opened => exact h.fresh hx
  case within =>
    intro e he
    rcases Bench.mem_extents_finish.mp he with rfl | he
    · have hstop := s.extent_stop o p
      have hstart : o.start.offset ≤ s.offset :=
        hx.led.placed.starts (.opened o) (mem_stack.mpr (Or.inr List.mem_cons_self))
      have hprev : s.stream.prev.offset ≤ s.offset := hx.led.placed.sound.prev_le
      show o.start.offset ≤ (s.extent o p).stop ∧ (s.extent o p).stop ≤ s.offset
      omega
    · exact hx.within e he
  case errors =>
    intro hnone
    rw [ParseState.finishNode_trivia, Trivia.trail_lastFinished] at hnone
    cases hnone
  case latest =>
    intro i hi e he hei c hc
    obtain rfl : s.nextId = i := by
      rw [ParseState.finishNode_trivia, Trivia.trail_lastFinished] at hi
      exact Option.some.inj hi
    rcases Bench.mem_extents_finish.mp he with rfl | he
    · refine hx.beside_extent (hunread c hc) ?_
      cases hlast : s.trivia.lastFinished with
      | none => exact Or.inl rfl
      | some last =>
        have hsorted : s.unread.Pairwise Comment.Before := (List.pairwise_append.mp hx.sorted).2.1
        exact Or.inr (Trivia.lt_of_mem_unread_trail _ _ _ _ _ hlast hsorted c hc)
    · exact absurd hei (Nat.ne_of_lt (hbound e he))
  case aside =>
    intro d hd e he hed
    obtain ⟨hlt, hbeside⟩ := hx.aside_trail hd
    rcases Bench.mem_extents_finish.mp he with rfl | he
    · exact absurd hed (Nat.ne_of_gt hlt)
    · exact hkeep he (hbeside e he hed)
  case own =>
    intro e he htrailing
    rcases Bench.mem_extents_finish.mp he with rfl | he
    · exact hx.own_extent htrailing
    · obtain ⟨hread, _, hpairwise, hbeside⟩ := hx.own e he htrailing
      refine ⟨List.eq_nil_iff_forall_not_mem.mpr fun c hc => ?_, hx.deferred_trail he htrailing,
        hpairwise, fun c hc => hkeep he (hbeside c hc)⟩
      have hc : c ∈ s.unread := hunread c hc
      exact List.not_mem_nil (hread ▸ hc)

end

end Sided

theorem Move.sided {x y : Bench × ParseState} (h : Move x y) (hx : Sided x) : Sided y := by
  rcases h.quiet_or_finish hx.led.placed.sound with hquiet | ⟨before, p, o, w, s, rfl, rfl⟩
  · exact hx.keep h hquiet
  · exact hx.finish h

theorem Moves.sided {x y : Bench × ParseState} (h : Moves x y) (hx : Sided x) : Sided y :=
  h.preserves Move.sided hx

/-! ## Programs -/

namespace ParseState

theorem first_sided (source : String) (fileName : Option String) (o : Options) :
    Sided ([.opened (root source fileName o)], first source fileName o) where
  led := first_led source fileName o
  trails := first_trails source fileName o
  faultless := fun _ => ⟨rfl, fun g hg => by cases hg⟩
  sorted := (Stream.first_lined source o.effective).sorted.sublist (unread_sublist _)
  within := fun e he => by cases he
  errors := fun _ => ⟨rfl, fun e he => by cases he⟩
  opened := fun q hq => by
    cases List.mem_singleton.mp hq
    exact Or.inl fun c _ => Nat.zero_le _
  latest := fun i hi => by cases hi
  aside := fun d hd => absurd hd (Array.not_mem_empty d)
  own := fun e he => by cases he

variable {s : ParseState} {root : Opened} {children : List Node}

/-- The comments that trail a node of the program stand in order beside it. -/
theorem completed_beside (h : Sided (stack children [.opened root], s)) {n : Node}
    (hn : n ∈ Node.walkFrom children) :
    (n.trailing ++ (s.sealed root).2.trivia.deferredFor n.id).Pairwise Comment.Before ∧
      ∀ c ∈ n.trailing ++ (s.sealed root).2.trivia.deferredFor n.id,
        n.outline.extent.Beside (stack children [.opened root], s) c := by
  have hextent : n.outline.extent ∈ Bench.extents (stack children [.opened root]) :=
    List.mem_map_of_mem (Bench.signature_mem_stack hn _)
  rw [Trivia.deferredFor_eq]
  by_cases hown : n.trailing = []
  · rw [hown, List.nil_append]
    constructor
    · have hsorted : (s.sealed root).2.trivia.aside.Pairwise Comment.Before :=
        (List.pairwise_append.mp (Trivia.trail_sorted _ _ _ _ _ h.sorted)).1
      exact hsorted.sublist (List.filter_sublist.map _)
    · intro c hc
      obtain ⟨d, hd, rfl⟩ := List.mem_map.mp hc
      obtain ⟨hd, hid⟩ := List.mem_filter.mp hd
      have hid : d.1 = n.id := of_decide_eq_true hid
      exact (h.aside_trail (Array.mem_def.mpr hd)).2 _ hextent hid.symm
  · -- What a node takes itself is all that was left, so nothing is kept aside for any node.
    obtain ⟨_, _, hpairwise, hbeside⟩ := h.own _ hextent hown
    have hnone : (s.sealed root).2.trivia.deferred = #[] := h.deferred_trail hextent hown
    rw [hnone]
    simp only [List.filter_nil, List.map_nil, List.append_nil]
    exact ⟨hpairwise, hbeside⟩

end ParseState

/-- Both lists of comments of a node are in the order of the text.  Those that lead it end in
front of it, and those that trail it start behind it, unless it is the first node that was
finished.  In strict mode even then they start behind its start. -/
theorem comments_beside {source : String} {fileName : Option String} {o : Options}
    {p : Program} (h : parse source fileName o = .ok p) :
    ∀ n ∈ p.tree, n.leading.Pairwise Comment.Before ∧ n.trailing.Pairwise Comment.Before ∧
      (∀ c ∈ n.leading, c.stop ≤ n.span.start.offset) ∧
      (o.suppressErrors = false → ∀ c ∈ n.trailing, n.span.start.offset ≤ c.offset) ∧
      ∀ m ∈ p.tree, m.id < n.id → m.isError = false →
        ∀ c ∈ n.trailing, n.span.stop.offset ≤ c.offset := by
  obtain ⟨children, s, rfl, hmoves, _, _⟩ := parse_ok h
  have hsided := hmoves.sided (ParseState.first_sided source fileName o)
  have hmode := ParseState.first_tolerates hmoves
  intro n hn
  rw [ParseState.completed_tree] at hn ⊢
  obtain ⟨n', hn', rfl⟩ := List.mem_map.mp hn
  obtain ⟨hleading, hfront⟩ := hsided.led.nodes _ (Bench.signature_mem_stack hn' _)
  obtain ⟨htrailing, hbeside⟩ := ParseState.completed_beside hsided hn'
  rw [Node.toNodeInfo_mapInfo]
  refine ⟨hleading, htrailing, hfront, fun hs c hc => (hbeside c hc).2 (hmode.trans hs), ?_⟩
  intro m hm hlt herror c hc
  obtain ⟨m', hm', rfl⟩ := List.mem_map.mp hm
  rw [Node.toNodeInfo_mapInfo] at hlt
  rw [Node.isError_mapInfo] at herror
  rcases (hbeside c hc).1 with hfirst | hle
  · have holder := hfirst m'.outline.extent
      (List.mem_map_of_mem (Bench.signature_mem_stack hm' _)) hlt
    have holder : m'.isError = true := holder
    rw [herror] at holder
    cases holder
  · exact hle

/-- A comment inside the name that is finished first trails it. -/
theorem comments_beside_name :
    ∃ p, parse "<?php A/*c*/\\B;" none { extractDoc := true } = .ok p ∧
      (∀ n ∈ p.tree, n.leading.Pairwise Comment.Before ∧ n.trailing.Pairwise Comment.Before ∧
        (∀ c ∈ n.leading, c.stop ≤ n.span.start.offset) ∧
        (({ extractDoc := true } : Options).suppressErrors = false →
          ∀ c ∈ n.trailing, n.span.start.offset ≤ c.offset) ∧
        ∀ m ∈ p.tree, m.id < n.id → m.isError = false →
          ∀ c ∈ n.trailing, n.span.stop.offset ≤ c.offset) ∧
      ∃ n ∈ p.tree, ∃ c ∈ n.trailing, c.stop < n.span.stop.offset := by
  have hrun : ((parse "<?php A/*c*/\\B;" none { extractDoc := true }).toOption.any fun p =>
      p.tree.any fun n => n.trailing.any fun c => c.stop < n.span.stop.offset) = true := by
    rw [parse_eq, statementsFrom_eq]
    decide +kernel
  obtain ⟨p, hp, hany⟩ := parse_of_any hrun
  obtain ⟨n, hn, hany⟩ := List.any_eq_true.mp hany
  obtain ⟨c, hc, hinside⟩ := List.any_eq_true.mp hany
  exact ⟨p, hp, comments_beside hp, n, hn, c, hc, of_decide_eq_true hinside⟩

end PhpSyntax
