/-
The order of the children of a node.

What lies on the bench starts in the order in which it was read, so the parts of a production
that is finished do (`Sequenced`).  Those are its children in their order, but for a loop that
tests last: its test is its first child, and its body is read first.  In strict mode the test of
such a loop starts behind its body, so these loops are the nodes whose children are not in the
order of the text (`children_ascend`).
-/
import PhpSyntax.Proofs.Span.Reading

namespace PhpSyntax

/-! ## Starts that never go back -/

/-- Each node starts where the nodes in front of it do, or behind. -/
def Node.Ascend (ns : List Node) : Prop :=
  ns.Pairwise fun m n => m.span.start.offset ≤ n.span.start.offset

theorem Node.Ascend.mapInfo {g : NodeInfo → NodeInfo} (hg : ∀ info, (g info).span = info.span)
    {ns : List Node} : Ascend (ns.map (Node.mapInfo g)) ↔ Ascend ns := by
  simp only [Ascend, List.pairwise_map, Node.span_mapInfo hg]

theorem Production.parts_eq {α : Type} (p : Production α) :
    p.parts = if p.testsLast = true then p.children.reverse else p.children := by
  cases p <;> rfl

theorem Production.testsLast_map {α β : Type} (f : α → β) (p : Production α) :
    (p.map f).testsLast = p.testsLast := by
  cases p <;> rfl

theorem Production.parts_map {α β : Type} (f : α → β) (p : Production α) :
    (p.map f).parts = p.parts.map f := by
  rw [parts_eq, parts_eq, testsLast_map, children_map]
  split
  · exact List.map_reverse.symm
  · rfl

def Node.Outline.Lists (a : Outline) (cs : List Outline) : Prop :=
  (if a.testsLast = true then cs.reverse else cs).Pairwise
    fun c d => c.start.offset ≤ d.start.offset

theorem Node.lists_iff {n : Node} :
    n.signature.1.Lists n.signature.2 ↔ Ascend n.production.parts := by
  rw [Production.parts_eq]
  show (if n.production.testsLast = true then (n.children.map outline).reverse
    else n.children.map outline).Pairwise _ ↔ _
  split
  · rw [← List.map_reverse, List.pairwise_map]
    rfl
  · rw [List.pairwise_map]
    rfl

/-! ## The bench in sequence -/

theorem stack_eq (ns : List Node) (w : Bench) : stack ns w = (ns.map Item.node).reverse ++ w := by
  induction ns generalizing w with
  | nil => rfl
  | cons n ns ih => rw [stack_cons, ih, List.map_cons, List.reverse_cons, List.append_assoc,
      List.singleton_append]

namespace Bench

def Ascending (w : Bench) : Prop := w.Pairwise fun i j => j.start.offset ≤ i.start.offset

theorem ascending_cons {i : Item} {w : Bench} :
    Ascending (i :: w) ↔ (∀ j ∈ w, j.start.offset ≤ i.start.offset) ∧ Ascending w :=
  List.pairwise_cons

theorem ascending_stack {ns : List Node} {w : Bench} :
    Ascending (stack ns w) ↔ Node.Ascend ns ∧ Ascending w ∧
      ∀ n ∈ ns, ∀ j ∈ w, j.start.offset ≤ n.span.start.offset := by
  rw [Ascending, stack_eq, List.pairwise_append, List.pairwise_reverse, List.pairwise_map]
  simp only [List.mem_reverse, List.mem_map, forall_exists_index, and_imp,
    forall_apply_eq_imp_iff₂]
  rfl

end Bench

/-- The nodes on the bench, and the children of each, start in the order in which they were
read. -/
structure Sequenced (x : Bench × ParseState) : Prop where
  sound : x.2.stream.Sound
  starts : ∀ i ∈ x.1, i.start.offset ≤ x.2.offset
  ascending : Bench.Ascending x.1
  lists : ∀ g ∈ Bench.signatures x.1, g.1.Lists g.2

namespace Move

variable {x y : Bench × ParseState}

theorem ascending (h : Move x y) (hx : Sequenced x) : Bench.Ascending y.1 := by
  have hold := hx.ascending
  have hstarts := hx.starts
  cases h with
  | advance | nest | halt => exact hold
  | openNode | record => exact Bench.ascending_cons.mpr ⟨hstarts, hold⟩
  | @openAt n w s =>
    obtain ⟨hn, hw⟩ := Bench.ascending_cons.mp hold
    have hopened : ∀ j ∈ w, j.start.offset ≤ (Item.opened (s.openAt n.span.start).1).start.offset := hn
    refine Bench.ascending_cons.mpr ⟨?_, Bench.ascending_cons.mpr ⟨hopened, hw⟩⟩
    exact List.forall_mem_cons.mpr ⟨Nat.le_refl _, hn⟩
  | @finish before p o w s =>
    obtain ⟨hnodes, hbelow, habove⟩ := Bench.ascending_stack.mp hold
    obtain ⟨hopened, hw⟩ := Bench.ascending_cons.mp hbelow
    refine Bench.ascending_stack.mpr ⟨(List.pairwise_append.mp hnodes).1,
      Bench.ascending_cons.mpr ⟨hopened, hw⟩, fun n hn => ?_⟩
    obtain ⟨ho, hrest⟩ := List.forall_mem_cons.mp (habove n (List.mem_append_left _ hn))
    exact List.forall_mem_cons.mpr ⟨ho, hrest⟩
  | drop => exact (Bench.ascending_cons.mp hold).2
  | abandon =>
    obtain ⟨hn, hbelow⟩ := Bench.ascending_cons.mp hold
    exact Bench.ascending_cons.mpr
      ⟨fun j hj => hn j (List.mem_cons_of_mem _ hj), (Bench.ascending_cons.mp hbelow).2⟩
  | @relabel m n w s hr =>
    obtain ⟨hm, hw⟩ := Bench.ascending_cons.mp hold
    have hstart : n.span.start = m.span.start := congrArg Node.Outline.start hr.outline
    refine Bench.ascending_cons.mpr ⟨fun j hj => ?_, hw⟩
    rw [Item.start, hstart]
    exact hm j hj

theorem lists (h : Move x y) (hx : Sequenced x) : ∀ g ∈ Bench.signatures y.1, g.1.Lists g.2 := by
  intro g hg
  rcases h.signatures g hg with hg | hadds
  · exact hx.lists g hg
  · cases hadds with
    | finish =>
      have hnodes := (Bench.ascending_stack.mp hx.ascending).1
      exact Node.lists_iff.mpr (List.pairwise_append.mp hnodes).2.1
    | record => exact Node.lists_iff.mpr List.Pairwise.nil
    | @abandon o n => exact hx.lists n.signature (Bench.signature_mem List.mem_cons_self)

theorem sequenced (h : Move x y) (hx : Sequenced x) : Sequenced y :=
  ⟨h.sound hx.sound, h.starts hx.sound hx.starts, h.ascending hx, h.lists hx⟩

end Move

theorem Moves.sequenced {x y : Bench × ParseState} (h : Moves x y) (hx : Sequenced x) :
    Sequenced y :=
  h.preserves Move.sequenced hx

theorem ParseState.first_sequenced (source : String) (fileName : Option String) (o : Options) :
    Sequenced ([.opened (root source fileName o)], first source fileName o) where
  sound := Stream.first_sound source o.effective
  starts := fun i hi => by
    rw [List.mem_singleton.mp hi]
    exact Nat.zero_le _
  ascending := List.pairwise_singleton _ _
  lists := fun _ hg => absurd hg List.not_mem_nil

/-! ## Loops that test last -/

namespace Grammar

variable {source : String} {s t : ParseState}

/-- The test of such a loop starts behind its body. -/
theorem doStatement_yields (hs : s.Reading source) (hk : s.kind = .kwDo) {n : Node}
    (h : doStatement.Yields s n t) :
    ∃ test body, n.production = .do test body ∧
      body.span.start.offset < test.span.start.offset := by
  have hopen := hs.opened (show s.kind ≠ .eof by simp [hk])
  rw [doStatement, Parser.yields_openNode_bind, Parser.yields_advance_bind] at h
  obtain ⟨body, u, hbody, h⟩ := Parser.yields_bind.mp h
  have hu := hopen.statement hbody
  obtain ⟨b, v, hb, hrest⟩ := Parser.yields_bind.mp h
  rcases Parser.yields_eat.mp hb with ⟨hwhile, rfl, rfl⟩ | ⟨_, rfl, rfl⟩
  · rw [if_pos rfl] at hrest
    have hsolid : u.kind ≠ .eof := by simp [hwhile]
    obtain ⟨test, w, htest, hrest⟩ := Parser.yields_bind.mp hrest
    have hparen := hu.reading.advance hsolid
    obtain ⟨w, hl, hw, _⟩ := condition_yields hparen htest
    obtain ⟨_, y, _, hend⟩ := Parser.yields_bind.mp hrest
    obtain ⟨rfl, _⟩ := Parser.yields_finish.mp hend
    refine ⟨test, body, rfl, ?_⟩
    have hfirst : body.span.start.offset ≤ u.offset := hu.begun body List.mem_cons_self
    have hone := hu.reading.lt_advance hsolid
    have hbehind : u.advance.kind ≠ .eof := by simp [hl]
    have htwo := hparen.lt_advance hbehind
    have hlast := ((hparen.advance hbehind).expression hw).starts test List.mem_cons_self
    omega
  · rw [if_neg Bool.false_ne_true] at hrest
    obtain ⟨_, _, hmissing, _⟩ := Parser.yields_bind.mp hrest
    exact absurd hmissing (Parser.not_yields_missing hu.reading.strict)

end Grammar

/-! ## Programs -/

variable {source : String} {fileName : Option String} {o : Options} {p : Program}

open ParseState in
/-- The parts of a node start in the order in which they are read, and so do the statements of
a program. -/
theorem parts_ascend (h : parse source fileName o = .ok p) :
    Node.Ascend p.children ∧ ∀ n ∈ p.tree, Node.Ascend n.production.parts := by
  obtain ⟨children, s, rfl, hmoves, _, _⟩ := parse_ok h
  have hsequenced := hmoves.sequenced (first_sequenced source fileName o)
  constructor
  · rw [completed, Trivia.settle_children, Node.Ascend.mapInfo (Trivia.span_deliver _)]
    exact (Bench.ascending_stack.mp hsequenced.ascending).1
  · intro n hn
    rw [completed_tree] at hn
    obtain ⟨m, hm, rfl⟩ := List.mem_map.mp hn
    rw [Node.mapInfo_eq, Production.parts_map, Node.Ascend.mapInfo (Trivia.span_deliver _)]
    exact Node.lists_iff.mp (hsequenced.lists _ (Bench.signature_mem_stack hm _))

/-- In strict mode the children of a node start in the order in which they are listed, unless it
is a loop that tests last: the test of such a loop is listed first and starts behind the body. -/
theorem children_ascend (h : parse source fileName o = .ok p) (hs : o.suppressErrors = false) :
    Node.Ascend p.children ∧
      ∀ n ∈ p.tree, (Node.Ascend n.children ↔ n.production.testsLast = false) ∧
        ∀ test body, n.production = .do test body →
          n.children = [test, body] ∧ body.span.start.offset < test.span.start.offset := by
  obtain ⟨hchildren, hparts⟩ := parts_ascend h
  refine ⟨hchildren, fun n hn => ?_⟩
  have hloop (test body : Node) (hp : n.production = .do test body) :
      n.children = [test, body] ∧ body.span.start.offset < test.span.start.offset := by
    obtain ⟨g, hg, maker, hmaker, k, s, t, hreading, _, hkind, hyields, hproduction, _⟩ :=
      parse_read h hs hn (by simp [hp, Production.makers])
    rw [hp] at hmaker hproduction
    obtain rfl := List.mem_singleton.mp hmaker
    obtain ⟨test', body', hk, hlt⟩ :=
      Grammar.doStatement_yields hreading (List.mem_singleton.mp hkind) hyields
    rw [hk] at hproduction
    cases hproduction
    refine ⟨by rw [Node.children, hp]; rfl, ?_⟩
    rw [Node.span_mapInfo hg, Node.span_mapInfo hg]
    exact hlt
  refine ⟨?_, hloop⟩
  constructor
  · intro hascend
    by_contra hlast
    cases hp : n.production with
    | «do» test body =>
      obtain ⟨hlisted, hlt⟩ := hloop test body hp
      rw [hlisted, Node.Ascend, List.pairwise_pair] at hascend
      omega
    | _ => exact hlast (by rw [hp]; rfl)
  · intro hfirst
    have hone := hparts n hn
    rw [Production.parts_eq, if_neg (by simp [hfirst])] at hone
    exact hone

/-- The test of the loop is its first child, and starts behind the body. -/
theorem children_ascend_do :
    ∃ p, parse "<?php do ; while (1);" none {} = .ok p ∧
      (∃ n ∈ p.tree, n.children.map (·.span.start.offset) = [18, 9]) ∧
      Node.Ascend p.children ∧
        ∀ n ∈ p.tree, (Node.Ascend n.children ↔ n.production.testsLast = false) ∧
          ∀ test body, n.production = .do test body →
            n.children = [test, body] ∧ body.span.start.offset < test.span.start.offset := by
  have hrun : ((parse "<?php do ; while (1);" none {}).toOption.any fun p =>
      p.tree.any fun n => decide (n.children.map (·.span.start.offset) = [18, 9])) = true := by
    rw [parse_eq, statementsFrom_eq]
    decide +kernel
  obtain ⟨p, hp, hany⟩ := parse_of_any hrun
  obtain ⟨n, hn, hstarts⟩ := List.any_eq_true.mp hany
  exact ⟨p, hp, ⟨n, hn, of_decide_eq_true hstarts⟩, children_ascend hp rfl⟩

end PhpSyntax
