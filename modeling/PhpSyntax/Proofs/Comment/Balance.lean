/-
No move loses a comment or keeps it twice.

The comments that have been read are, in some order, those that lead open nodes, those of
the nodes on the bench, and those kept aside for nodes below (`Balanced`).  A move reads
the next comments and puts each in one of these places.
-/
import Mathlib.Data.List.Perm.Basic
import PhpSyntax.Proofs.Trace.Bench

namespace PhpSyntax

namespace Trivia

theorem unread_eq (t : Trivia) (queue : Array Comment) :
    t.unread queue = queue.toList.drop t.read := by
  have hlength : (queue.toList.drop t.read).length = queue.size - t.read := by
    rw [List.length_drop, Array.length_toList]
  rw [unread, Array.toList_extract, List.extract_eq_take_drop,
    List.take_of_length_le (Nat.le_of_eq hlength)]

def aside (t : Trivia) : List Comment := t.deferred.toList.map (·.2)

/-- Finishing a node reads comments on and hands out just these. -/
theorem trail_balance {t : Trivia} {queue : Array Comment} (h : t.read ≤ queue.size) (id : Nat)
    (boundary : Position) (atEnd : Bool) :
    (t.trail queue id boundary atEnd).2.read ≤ queue.size ∧
      ((t.trail queue id boundary atEnd).1 ++ (t.trail queue id boundary atEnd).2.aside ++
          queue.toList.take t.read).Perm
        (t.aside ++ queue.toList.take (t.trail queue id boundary atEnd).2.read) := by
  have hsplit : queue.toList.take t.read ++ queue.toList.drop t.read = queue.toList :=
    List.take_append_drop _ _
  have hsize : queue.toList.length = queue.size := Array.length_toList
  cases hlast : t.lastFinished with
  | some last =>
    simp only [trail, hlast, unread_eq]
    generalize hown : (queue.toList.drop t.read).takeWhile (·.offset ≤ boundary.offset) = own
    have hprefix : own <+: queue.toList.drop t.read := hown ▸ List.takeWhile_prefix _
    have hlength := hprefix.length_le
    rw [List.length_drop, hsize] at hlength
    have htake : queue.toList.take (t.read + own.length) = queue.toList.take t.read ++ own := by
      rw [List.take_add, ← List.prefix_iff_eq_take.mp hprefix]
    have haside : aside ⟨t.read + own.length, some id,
        t.deferred ++ own.map fun c => (last, c)⟩ = t.aside ++ own := by
      simp [aside, Function.comp_def]
    refine ⟨by omega, ?_⟩
    rw [htake, haside, List.nil_append, List.append_assoc]
    exact List.perm_append_comm.append_left _
  | none =>
    cases atEnd with
    | true =>
      simp only [trail, hlast, unread_eq, if_true]
      have htake : queue.toList.take queue.size = queue.toList :=
        List.take_of_length_le (Nat.le_of_eq hsize)
      have hperm : (queue.toList.drop t.read ++ (t.aside ++ queue.toList.take t.read)).Perm
          (t.aside ++ queue.toList.take t.read ++ queue.toList.drop t.read) :=
        List.perm_append_comm
      rw [List.append_assoc t.aside, hsplit, ← List.append_assoc] at hperm
      refine ⟨Nat.le_refl _, ?_⟩
      rw [htake]
      exact hperm
    | false =>
      simp only [trail, hlast]
      exact ⟨h, List.Perm.refl _⟩

end Trivia

theorem Stream.advance_comments (s : Stream) :
    ∃ cs, s.advance.comments.toList = s.comments.toList ++ cs ∧
      ∀ c ∈ cs, ∃ t ∈ s.trivia, Comment.ofToken? t = some c := by
  by_cases h : s.options.extractDoc = true
  · exact ⟨s.trivia.filterMap Comment.ofToken?, by simp [advance, h], fun c => List.mem_filterMap.mp⟩
  · exact ⟨[], by simp [advance, h], fun c hc => by cases hc⟩

def Node.comments (n : Node) : List Comment := n.leading ++ n.trailing

def Node.Outline.comments (a : Node.Outline) : List Comment := a.leading ++ a.trailing

theorem Node.children_of_isError {n : Node} (h : n.isError = true) : n.children = [] := by
  obtain ⟨info, p⟩ := n
  cases p with
  | error => rfl
  | _ => cases h

namespace ParseState

variable (s : ParseState) (o : Opened)

theorem finishNode_leading : (s.finishNode o).1.leading = o.leading := rfl

theorem finishNode_trailing : (s.finishNode o).1.trailing =
    (s.trivia.trail s.stream.comments s.nextId s.stream.prev s.stream.current.isEof).1 := rfl

theorem finishNode_trivia : (s.finishNode o).2.trivia =
    (s.trivia.trail s.stream.comments s.nextId s.stream.prev s.stream.current.isEof).2 := rfl

theorem finishNode_stream : (s.finishNode o).2.stream = s.stream := rfl

end ParseState

namespace Bench

def pending : Bench → List Comment
  | [] => []
  | .opened o :: w => o.leading ++ pending w
  | .node _ :: w => pending w

@[simp] theorem pending_stack (ns : List Node) (w : Bench) : pending (stack ns w) = pending w := by
  induction ns generalizing w with
  | nil => rfl
  | cons n ns ih => exact ih _

def attached (w : Bench) : List Comment := (signatures w).flatMap (·.1.comments)

@[simp] theorem attached_opened (o : Opened) (w : Bench) : attached (.opened o :: w) = attached w :=
  rfl

@[simp] theorem attached_node (n : Node) (w : Bench) :
    attached (.node n :: w) = n.signatures.flatMap (·.1.comments) ++ attached w :=
  List.flatMap_append

theorem attached_stack (ns : List Node) (w : Bench) :
    (attached (stack ns w)).Perm ((Node.walkFrom ns).flatMap Node.comments ++ attached w) := by
  have hstack := (signatures_stack ns w).flatMap_right fun g => g.1.comments
  rw [List.flatMap_append, Node.flatMap_signatures, List.flatMap_map] at hstack
  exact hstack

theorem attached_finish (before : List Node) (info : NodeInfo) (p : Production Node)
    (o : Opened) (w : Bench) :
    (attached (stack before (.node ⟨info, p⟩ :: w))).Perm
      (info.leading ++ info.trailing ++ attached (stack (before ++ p.parts) (.opened o :: w))) :=
  (signatures_finish before info p o w).flatMap_right _

end Bench

/-- The comments that have been read are led by open nodes, attached or kept aside. -/
def Balanced (x : Bench × ParseState) : Prop :=
  x.2.trivia.read ≤ x.2.stream.comments.size ∧
    (Bench.pending x.1 ++ Bench.attached x.1 ++ x.2.trivia.aside).Perm
      (x.2.stream.comments.toList.take x.2.trivia.read)

namespace Balanced

variable {w : Bench} {s : ParseState}

theorem advance (hx : Balanced (w, s)) : Balanced (w, s.advance) := by
  obtain ⟨hread, hperm⟩ := hx
  obtain ⟨cs, hcs, _⟩ := s.stream.advance_comments
  have hsize : s.stream.comments.size ≤ s.stream.advance.comments.size := by
    rw [← Array.length_toList, ← Array.length_toList, hcs, List.length_append]
    omega
  have htake : s.stream.advance.comments.toList.take s.trivia.read =
      s.stream.comments.toList.take s.trivia.read := by
    rw [hcs, List.take_append_of_le_length]
    rw [Array.length_toList]
    exact hread
  refine ⟨Nat.le_trans hread hsize, ?_⟩
  show List.Perm _ (s.stream.advance.comments.toList.take s.trivia.read)
  rw [htake]
  exact hperm

theorem openNode (hx : Balanced (w, s)) :
    Balanced (.opened s.openNode.1 :: w, s.openNode.2) := by
  obtain ⟨_, hperm⟩ := hx
  -- The node takes all comments that have not been read, so all are read behind it.
  have hall : s.stream.comments.toList.take s.stream.comments.size =
      s.stream.comments.toList.take s.trivia.read ++
        s.stream.comments.toList.drop s.trivia.read := by
    rw [List.take_append_drop]
    exact List.take_of_length_le (Nat.le_of_eq Array.length_toList)
  refine ⟨Nat.le_refl _, List.perm_iff_count.mpr fun c => ?_⟩
  show List.count c (s.trivia.unread s.stream.comments ++ Bench.pending w ++ Bench.attached w ++
    s.trivia.aside) = List.count c (s.stream.comments.toList.take s.stream.comments.size)
  have hc := hperm.count_eq c
  rw [hall, Trivia.unread_eq]
  simp only [List.count_append] at hc ⊢
  omega

theorem finish {before : List Node} {p : Production Node} {o : Opened}
    (hx : Balanced (stack (before ++ p.parts) (.opened o :: w), s)) :
    Balanced (stack before (.node ⟨(s.finishNode o).1, p⟩ :: w), (s.finishNode o).2) := by
  obtain ⟨hread, hperm⟩ := hx
  have hread : s.trivia.read ≤ s.stream.comments.size := hread
  obtain ⟨hle, htrail⟩ := Trivia.trail_balance hread s.nextId s.stream.prev
    s.stream.current.isEof
  refine ⟨hle, List.perm_iff_count.mpr fun c => ?_⟩
  have hc := hperm.count_eq c
  have ht := htrail.count_eq c
  have hnode := (Bench.attached_finish before (s.finishNode o).1 p o w).count_eq c
  simp only [Bench.pending_stack, Bench.pending, List.count_append] at hc ht hnode ⊢
  rw [ParseState.finishNode_leading, ParseState.finishNode_trailing] at hnode
  rw [ParseState.finishNode_trivia, ParseState.finishNode_stream]
  omega

theorem drop {n : Node} (h : n.isError = true) (hl : n.leading = []) (ht : n.trailing = [])
    (hx : Balanced (.node n :: w, s)) : Balanced (w, s) := by
  obtain ⟨hread, hperm⟩ := hx
  have hnone : n.signature.1.comments = [] := by
    show n.leading ++ n.trailing = []
    rw [hl, ht, List.append_nil]
  rw [Bench.attached_node, Node.signatures_eq, Node.children_of_isError h, List.flatMap_cons,
    hnone] at hperm
  exact ⟨hread, hperm⟩

theorem abandon {o : Opened} {n : Node} (hx : Balanced (.node n :: .opened o :: w, s)) :
    Balanced (.node (s.abandon o n).1 :: w, (s.abandon o n).2) := by
  obtain ⟨hread, hperm⟩ := hx
  refine ⟨hread, List.perm_iff_count.mpr fun c => ?_⟩
  have hc := hperm.count_eq c
  have hnew : (o.handTo n).signature.1.comments = o.leading ++ n.leading ++ n.trailing := rfl
  have hold : n.signature.1.comments = n.leading ++ n.trailing := rfl
  show List.count c (Bench.pending w ++ Bench.attached (.node (o.handTo n) :: w) ++
    s.trivia.aside) = List.count c (s.stream.comments.toList.take s.trivia.read)
  rw [Bench.attached_node, Opened.handTo_signatures, List.flatMap_cons, hnew]
  rw [Bench.attached_node, Node.signatures_eq, List.flatMap_cons, hold] at hc
  simp only [Bench.pending, Bench.attached_opened, List.count_append] at hc ⊢
  omega

end Balanced

theorem Move.balanced {x y : Bench × ParseState} (h : Move x y) (hx : Balanced x) :
    Balanced y := by
  cases h with
  | advance => exact hx.advance
  | openNode => exact hx.openNode
  | openAt | nest | halt => exact hx
  | finish => exact hx.finish
  | record =>
    rw [Balanced, Bench.attached_node, Node.signatures_eq]
    exact hx
  | drop h hl ht => exact hx.drop h hl ht
  | abandon => exact hx.abandon
  | relabel hr =>
    rw [Balanced, Bench.attached_node] at hx ⊢
    rw [hr.signatures]
    exact hx

theorem Moves.balanced {x y : Bench × ParseState} (h : Moves x y) (hx : Balanced x) :
    Balanced y :=
  h.preserves Move.balanced hx

/-! ## Identities -/

def Bench.ids (w : Bench) : List Nat := (signatures w).map (·.1.id)

theorem Bench.ids_stack (ns : List Node) (w : Bench) :
    (ids (stack ns w)).Perm ((Node.walkFrom ns).map (·.id) ++ ids w) := by
  have hstack := (signatures_stack ns w).map fun g => g.1.id
  rw [List.map_append, Node.flatMap_signatures, List.map_map] at hstack
  exact hstack

/-- Giving up an open node changes no identity. -/
theorem Bench.ids_abandon (s : ParseState) (o : Opened) (n : Node) (w : Bench) :
    ids (.node (s.abandon o n).1 :: w) = ids (.node n :: .opened o :: w) := by
  have hsignatures := o.handTo_signatures n
  rw [ids, ids, signatures_node, signatures_node, Node.signatures_eq n]
  show List.map _ ((o.handTo n).signatures ++ _) = _
  rw [hsignatures]
  rfl

theorem Bench.ids_relabel {m n : Node} (h : n.Resembles m) (w : Bench) :
    ids (.node n :: w) = ids (.node m :: w) := by
  rw [ids, ids, signatures_node, signatures_node, h.signatures]

/-- No two nodes on the bench have the same identity, and that of the next node is new. -/
def Distinct (x : Bench × ParseState) : Prop :=
  (Bench.ids x.1).Nodup ∧ ∀ i ∈ Bench.ids x.1, i < x.2.nextId

/-- The next identity joins the others. -/
theorem distinct_cons {is js : List Nat} {i : Nat} (hp : js.Perm (i :: is))
    (h : is.Nodup ∧ ∀ j ∈ is, j < i) : js.Nodup ∧ ∀ j ∈ js, j < i + 1 := by
  obtain ⟨hnodup, hlt⟩ := h
  have hfresh : i ∉ is := fun hi => Nat.lt_irrefl i (hlt i hi)
  refine ⟨hp.nodup_iff.mpr (List.nodup_cons.mpr ⟨hfresh, hnodup⟩), fun j hj => ?_⟩
  rcases List.mem_cons.mp (hp.mem_iff.mp hj) with rfl | hj
  · omega
  · have := hlt j hj
    omega

theorem Move.distinct {x y : Bench × ParseState} (h : Move x y) (hx : Distinct x) :
    Distinct y := by
  cases h with
  | advance | openNode | openAt | nest | halt => exact hx
  | @finish before p o w s he h =>
    exact distinct_cons ((Bench.signatures_finish before (s.finishNode o).1 p o w).map _) hx
  | @record message e w s h =>
    refine distinct_cons ?_ hx
    rw [Bench.ids, Bench.signatures_node, Node.signatures_eq]
    exact List.Perm.refl _
  | @drop n w s h hl ht =>
    have hsublist : (Bench.ids w).Sublist (Bench.ids (.node n :: w)) :=
      (List.sublist_append_right _ _).map _
    exact ⟨hx.1.sublist hsublist, fun i hi => hx.2 i (hsublist.subset hi)⟩
  | abandon =>
    rw [Distinct, Bench.ids_abandon]
    exact hx
  | relabel hr =>
    rw [Distinct, Bench.ids_relabel hr]
    exact hx

theorem Moves.distinct {x y : Bench × ParseState} (h : Moves x y) (hx : Distinct x) :
    Distinct y :=
  h.preserves Move.distinct hx

end PhpSyntax
