/-
What lies on the bench, counted.

Moves create and change nodes one at a time.  The nodes of all trees on the bench are
listed with what `Node.signature` tells of them, which is all that later proofs ask for,
and finishing a node adds its signature to those of its children
(`signatures_finish`).  What any move adds is said once (`Move.signatures`): an invariant
about nodes is shown for the nodes that are finished, for the errors that are recorded, and
for the nodes that comments are handed to.  Two facts are read off at once: as many nodes are
open on the bench as in the state, and in strict mode none of the nodes is an error.
-/
import PhpSyntax.Proofs.Trace.Move

namespace PhpSyntax

/-! ## The nodes on the bench -/

def Node.signatures (n : Node) : List (Node.Outline × List Node.Outline) :=
  n.walk.map Node.signature

theorem Node.signatures_eq (n : Node) :
    n.signatures = n.signature :: n.children.flatMap Node.signatures := by
  rw [signatures, walk_eq, List.map_cons, List.map_flatMap]
  rfl

theorem Node.mem_walkFrom {n : Node} {ns : List Node} (h : n ∈ ns) : n ∈ walkFrom ns := by
  rw [walkFrom_eq]
  refine List.mem_flatMap.mpr ⟨n, h, ?_⟩
  rw [walk_eq]
  exact List.mem_cons_self

theorem Node.flatMap_signatures (ns : List Node) :
    ns.flatMap Node.signatures = (walkFrom ns).map Node.signature := by
  rw [walkFrom_eq, List.map_flatMap]
  rfl

theorem Node.Resembles.signatures {m n : Node} (h : m.Resembles n) :
    m.signatures = n.signatures := h

/-- Only what leads a node changes where comments are handed to it. -/
theorem Opened.handTo_signatures (o : Opened) (n : Node) :
    (o.handTo n).signatures = (o.handTo n).signature :: n.children.flatMap Node.signatures :=
  Node.signatures_eq _

namespace Bench

def signatures (w : Bench) : List (Node.Outline × List Node.Outline) :=
  w.flatMap fun
    | .opened _ => []
    | .node n => n.signatures

@[simp] theorem signatures_opened (o : Opened) (w : Bench) :
    signatures (.opened o :: w) = signatures w := rfl

@[simp] theorem signatures_node (n : Node) (w : Bench) :
    signatures (.node n :: w) = n.signatures ++ signatures w := rfl

theorem signatures_stack (ns : List Node) (w : Bench) :
    (signatures (stack ns w)).Perm (ns.flatMap Node.signatures ++ signatures w) := by
  induction ns generalizing w with
  | nil => exact List.Perm.refl _
  | cons n ns ih =>
    have hrest := ih (.node n :: w)
    rw [signatures_node] at hrest
    rw [stack_cons, List.flatMap_cons, List.append_assoc]
    exact hrest.trans (List.perm_append_comm_assoc _ _ _)

theorem signature_mem_stack {n : Node} {ns : List Node} (h : n ∈ Node.walkFrom ns) (w : Bench) :
    n.signature ∈ signatures (stack ns w) := by
  have hsignature : n.signature ∈ ns.flatMap Node.signatures := by
    rw [Node.flatMap_signatures]
    exact List.mem_map_of_mem h
  exact (signatures_stack ns w).mem_iff.mpr (List.mem_append_left _ hsignature)

/-- Finishing a node adds its own signature to the others. -/
theorem signatures_finish (before : List Node) (info : NodeInfo) (p : Production Node)
    (o : Opened) (w : Bench) :
    (signatures (stack before (.node ⟨info, p⟩ :: w))).Perm
      ((Node.mk info p).signature :: signatures (stack (before ++ p.parts) (.opened o :: w))) := by
  have hparts : (p.parts.flatMap Node.signatures).Perm (p.children.flatMap Node.signatures) :=
    p.parts_perm.flatMap_right _
  have hold := signatures_stack (before ++ p.parts) (.opened o :: w)
  rw [List.flatMap_append, signatures_opened, List.append_assoc] at hold
  have hnew := signatures_stack before (.node ⟨info, p⟩ :: w)
  rw [signatures_node, Node.signatures_eq] at hnew
  have hsame := ((hparts.symm.append_right (signatures w)).append_left _).trans hold.symm
  exact hnew.trans (List.perm_middle.trans (hsame.cons _))

inductive Adds : Bench × ParseState → Bench × ParseState → Node.Outline × List Node.Outline → Prop
  | finish {before : List Node} {p : Production Node} {o w s} (he : p.isProper = true)
      (h : s.tolerates = false → p.isHollow = true ∨ o.start.offset ≤ s.stream.prev.offset) :
    Adds (stack (before ++ p.parts) (.opened o :: w), s)
      (stack before (.node ⟨(s.finishNode o).1, p⟩ :: w), (s.finishNode o).2)
      (Node.mk (s.finishNode o).1 p).signature
  | record {message e w s} (h : s.tolerates = true) :
    Adds (w, s) (.node (s.errorNode message e) :: w, s.record message e)
      (s.errorNode message e).signature
  | abandon {o n w s} :
    Adds (.node n :: .opened o :: w, s) (.node (s.abandon o n).1 :: w, (s.abandon o n).2)
      (o.handTo n).signature

theorem signature_mem {n : Node} {w : Bench} (h : .node n ∈ w) : n.signature ∈ signatures w := by
  refine List.mem_flatMap.mpr ⟨.node n, h, ?_⟩
  show n.signature ∈ n.signatures
  rw [Node.signatures_eq]
  exact List.mem_cons_self

/-- The children of a node that is finished have been on the bench. -/
theorem signature_mem_child {before : List Node} {p : Production Node} {m : Node}
    (h : m ∈ p.children) (w : Bench) : m.signature ∈ signatures (stack (before ++ p.parts) w) := by
  have hpart : m ∈ before ++ p.parts :=
    List.mem_append_right _ (p.parts_perm.mem_iff.mpr h)
  exact signature_mem_stack (Node.mem_walkFrom hpart) w

end Bench

/-- What a move does to the signatures: it keeps them, leaves some out or adds one. -/
theorem Move.signatures {x y : Bench × ParseState} (h : Move x y) :
    ∀ g ∈ Bench.signatures y.1, g ∈ Bench.signatures x.1 ∨ Bench.Adds x y g := by
  intro g hg
  cases h with
  | advance | openNode | openAt | nest | halt => exact Or.inl hg
  | finish he h =>
    rcases List.mem_cons.mp ((Bench.signatures_finish _ _ _ _ _).mem_iff.mp hg) with rfl | hg
    · exact Or.inr (.finish he h)
    · exact Or.inl hg
  | record h =>
    rw [Bench.signatures_node, Node.signatures_eq] at hg
    rcases List.mem_cons.mp hg with rfl | hg
    · exact Or.inr (.record h)
    · exact Or.inl hg
  | drop => exact Or.inl (List.mem_append_right _ hg)
  | @abandon o n w s =>
    have hg : g ∈ Bench.signatures (.node (o.handTo n) :: w) := hg
    rw [Bench.signatures_node, Opened.handTo_signatures] at hg
    rw [Bench.signatures_node, Node.signatures_eq]
    rcases List.mem_cons.mp hg with rfl | hg
    · exact Or.inr .abandon
    · exact Or.inl (List.mem_cons_of_mem _ hg)
  | relabel hr =>
    rw [Bench.signatures_node, hr.signatures] at hg
    exact Or.inl hg

/-! ## Open nodes -/

namespace Bench

def openCount : Bench → Nat
  | [] => 0
  | .opened _ :: w => openCount w + 1
  | .node _ :: w => openCount w

@[simp] theorem openCount_opened (o : Opened) (w : Bench) :
    openCount (.opened o :: w) = openCount w + 1 := rfl

@[simp] theorem openCount_node (n : Node) (w : Bench) :
    openCount (.node n :: w) = openCount w := rfl

@[simp] theorem openCount_stack (ns : List Node) (w : Bench) :
    openCount (stack ns w) = openCount w := by
  induction ns generalizing w with
  | nil => rfl
  | cons n ns ih => rw [stack_cons, ih, openCount_node]

end Bench

theorem Move.openNodes {x y : Bench × ParseState} (h : Move x y)
    (hx : x.2.openNodes = Bench.openCount x.1) : y.2.openNodes = Bench.openCount y.1 := by
  cases h with
  | openNode | openAt =>
    simp only [Bench.openCount_opened, Bench.openCount_node] at hx ⊢
    rw [← hx]
    rfl
  | finish he h =>
    simp only [Bench.openCount_stack, Bench.openCount_opened, Bench.openCount_node] at hx ⊢
    show _ - 1 = _
    omega
  | abandon =>
    simp only [Bench.openCount_opened, Bench.openCount_node] at hx ⊢
    show _ - 1 = _
    omega
  | advance | record | drop | relabel | nest | halt => exact hx

theorem Moves.openNodes {x y : Bench × ParseState} (h : Moves x y)
    (hx : x.2.openNodes = Bench.openCount x.1) : y.2.openNodes = Bench.openCount y.1 :=
  h.preserves (P := fun y => y.2.openNodes = Bench.openCount y.1) Move.openNodes hx

/-! ## Strict mode -/

/-- In strict mode nothing is recorded, and no node is an error. -/
def Faultless (x : Bench × ParseState) : Prop :=
  x.2.tolerates = false → x.2.errors = #[] ∧ ∀ g ∈ Bench.signatures x.1, g.1.isError = false

theorem Move.faultless {x y : Bench × ParseState} (h : Move x y) (hx : Faultless x) :
    Faultless y := by
  intro hs
  have hstrict : x.2.tolerates = false := h.tolerates.symm.trans hs
  obtain ⟨herrors, hnodes⟩ := hx hstrict
  refine ⟨?_, fun g hg => ?_⟩
  · cases h with
    | record h => exact absurd hstrict (ne_false_of_eq_true h)
    | _ => exact herrors
  · rcases h.signatures g hg with hg | hadds
    · exact hnodes g hg
    · cases hadds with
      | finish he => exact (Node.isError_eq _).trans (Production.isError_of_isProper he)
      | record ht => exact absurd hstrict (ne_false_of_eq_true ht)
      | @abandon o n =>
        have hsound : n.isError = false :=
          hnodes n.signature (Bench.signature_mem List.mem_cons_self)
        exact hsound

theorem Moves.faultless {x y : Bench × ParseState} (h : Moves x y) (hx : Faultless x) :
    Faultless y :=
  h.preserves Move.faultless hx

end PhpSyntax
