/-
Which identities a program uses.

Identities are drawn in two places, where a node is finished and where an error is
recorded.  The invariant is `Numbered`: every identity drawn so far is that of a node on
the bench or that of a recorded error.  A move may leave a node out of the tree only if
it is an error node, and that one is recorded, so no finished node is lost
(`identities_complete`).
-/
import PhpSyntax.Proofs.Comment.Attached

namespace PhpSyntax

def ParseState.recorded (s : ParseState) : List Nat := s.errors.toList.map (·.id)

theorem ParseState.recorded_record (s : ParseState) (message : String) (e : Expected) :
    (s.record message e).recorded = s.recorded ++ [s.nextId] := by
  rw [recorded, record, Array.toList_push, List.map_append]
  rfl

/-- The identities drawn so far, where each is used and how they are ordered. -/
structure Numbered (x : Bench × ParseState) : Prop where
  distinct : Distinct x
  recorded_lt : ∀ i ∈ x.2.recorded, i < x.2.nextId
  complete : ∀ i < x.2.nextId, i ∈ Bench.ids x.1 ∨ i ∈ x.2.recorded
  error_iff : ∀ g ∈ Bench.signatures x.1, g.1.isError = true ↔ g.1.id ∈ x.2.recorded
  child_lt : ∀ g ∈ Bench.signatures x.1, ∀ c ∈ g.2, c.id < g.1.id

namespace Numbered

variable {w : Bench} {s : ParseState}

theorem id_lt {x : Bench × ParseState} (hx : Numbered x) {g : Node.Outline × List Node.Outline}
    (hg : g ∈ Bench.signatures x.1) : g.1.id < x.2.nextId :=
  hx.distinct.2 _ (List.mem_map_of_mem hg)

end Numbered

namespace Move

variable {x y : Bench × ParseState}

/-- A move records the next identity or none. -/
theorem mem_recorded (h : Move x y) {i : Nat} (hi : i ≠ x.2.nextId) :
    i ∈ y.2.recorded ↔ i ∈ x.2.recorded := by
  cases h with
  | record => rw [ParseState.recorded_record, List.mem_append, List.mem_singleton, or_iff_left hi]
  | _ => exact Iff.rfl

theorem recorded_lt (h : Move x y) (hx : Numbered x) : ∀ i ∈ y.2.recorded, i < y.2.nextId := by
  cases h with
  | finish => exact fun i hi => Nat.lt_succ_of_lt (hx.recorded_lt i hi)
  | record =>
    rw [ParseState.recorded_record]
    refine List.forall_mem_append.mpr ⟨fun i hi => Nat.lt_succ_of_lt (hx.recorded_lt i hi), ?_⟩
    exact fun i hi => List.mem_singleton.mp hi ▸ Nat.lt_succ_self _
  | _ => exact hx.recorded_lt

/-- No identity is lost, since what is left out of the tree is an error that is recorded. -/
theorem complete (h : Move x y) (hx : Numbered x) :
    ∀ i < y.2.nextId, i ∈ Bench.ids y.1 ∨ i ∈ y.2.recorded := by
  have hold := hx.complete
  cases h with
  | advance | openNode | openAt | nest | halt => exact hold
  | @finish before p o w s =>
    intro i hi
    have hperm := (Bench.signatures_finish before (s.finishNode o).1 p o w).map fun g => g.1.id
    rw [Bench.ids, hperm.mem_iff, List.map_cons, List.mem_cons]
    rcases Nat.lt_succ_iff_lt_or_eq.mp hi with hlt | rfl
    · exact (hold i hlt).imp_left Or.inr
    · exact Or.inl (Or.inl rfl)
  | record =>
    intro i hi
    rw [ParseState.recorded_record, List.mem_append, List.mem_singleton, Bench.ids,
      Bench.signatures_node, List.map_append, List.mem_append]
    rcases Nat.lt_succ_iff_lt_or_eq.mp hi with hlt | heq
    · exact (hold i hlt).imp Or.inr Or.inl
    · exact Or.inr (Or.inr heq)
  | @drop n w s hn =>
    intro i hi
    have hi := hold i hi
    have hrecorded := (hx.error_iff n.signature (Bench.signature_mem List.mem_cons_self)).mp hn
    rw [Bench.ids, Bench.signatures_node, Node.signatures_eq, Node.children_of_isError hn] at hi
    rcases hi with hi | hi
    · rcases List.mem_cons.mp hi with rfl | hi
      · exact Or.inr hrecorded
      · exact Or.inl hi
    · exact Or.inr hi
  | abandon =>
    rw [Bench.ids_abandon]
    exact hold
  | relabel hr =>
    rw [Bench.ids_relabel hr]
    exact hold

theorem error_iff (h : Move x y) (hx : Numbered x) :
    ∀ g ∈ Bench.signatures y.1, g.1.isError = true ↔ g.1.id ∈ y.2.recorded := by
  intro g hg
  rcases h.signatures g hg with hg | hadds
  · rw [hx.error_iff g hg, h.mem_recorded (Nat.ne_of_lt (hx.id_lt hg))]
  · cases hadds with
    | @finish before p o w s he =>
      have hnot : (Node.mk (s.finishNode o).1 p).isError = false :=
        (Node.isError_eq _).trans (Production.isError_of_isProper he)
      have hnew : s.nextId ∉ s.recorded := fun hi => Nat.lt_irrefl _ (hx.recorded_lt _ hi)
      exact iff_of_false (ne_true_of_eq_false hnot) hnew
    | @record message e w s =>
      have hlast : s.nextId ∈ (s.record message e).recorded := by
        rw [ParseState.recorded_record]
        exact List.mem_append_right _ List.mem_cons_self
      exact iff_of_true rfl hlast
    | @abandon o n => exact hx.error_iff n.signature (Bench.signature_mem List.mem_cons_self)

/-- The children of a node that is finished have older identities. -/
theorem child_lt (h : Move x y) (hx : Numbered x) :
    ∀ g ∈ Bench.signatures y.1, ∀ c ∈ g.2, c.id < g.1.id := by
  intro g hg
  rcases h.signatures g hg with hg | hadds
  · exact hx.child_lt g hg
  · cases hadds with
    | finish =>
      intro c hc
      obtain ⟨m, hm, rfl⟩ := List.mem_map.mp hc
      exact hx.id_lt (Bench.signature_mem_child hm _)
    | record => exact fun c hc => absurd hc List.not_mem_nil
    | @abandon o n => exact hx.child_lt n.signature (Bench.signature_mem List.mem_cons_self)

theorem numbered (h : Move x y) (hx : Numbered x) : Numbered y :=
  ⟨h.distinct hx.distinct, h.recorded_lt hx, h.complete hx, h.error_iff hx, h.child_lt hx⟩

end Move

theorem Moves.numbered {x y : Bench × ParseState} (h : Moves x y) (hx : Numbered x) :
    Numbered y :=
  h.preserves Move.numbered hx

/-! ## Programs -/

namespace ParseState

theorem first_numbered (source : String) (fileName : Option String) (o : Options) :
    Numbered ([.opened (root source fileName o)], first source fileName o) where
  distinct := first_distinct source fileName o
  recorded_lt := fun _ hi => absurd hi List.not_mem_nil
  complete := fun i hi => absurd hi (Nat.not_lt_zero i)
  error_iff := fun _ hg => absurd hg List.not_mem_nil
  child_lt := fun _ hg => absurd hg List.not_mem_nil

variable (s : ParseState) (root : Opened) (children : List Node)

theorem completed_id : (s.completed root children).id = s.nextId := by
  have hsettle (t : Trivia) (p : Program) : (t.settle p).id = p.id := by
    unfold Trivia.settle
    split <;> rfl
  exact hsettle _ _

theorem deliver_id (t : Trivia) (n : Node) : (Node.mapInfo t.deliver n).id = n.id := by
  rw [Node.toNodeInfo_mapInfo]
  rfl

theorem completed_ids :
    (s.completed root children).tree.map (·.id) = (Node.walkFrom children).map (·.id) := by
  rw [completed_tree, List.map_map]
  exact List.map_congr_left fun n _ => deliver_id _ n

end ParseState

/-- The nodes of a tree have distinct identities, larger than those of their children.
With those of the recorded errors they are all that the program has drawn, and a node of
the tree that has the identity of a recorded error is an error. -/
theorem identities_complete {source : String} {fileName : Option String} {o : Options}
    {p : Program} (h : parse source fileName o = .ok p) :
    (p.tree.map (·.id)).Nodup ∧
      (∀ n ∈ p.tree, ∀ c ∈ n.children, c.id < n.id) ∧
      (∀ i, (i ∈ p.tree.map (·.id) ∨ i ∈ p.errors.map (·.id)) ↔ i < p.id) ∧
      ∀ n ∈ p.tree, n.isError = true ↔ n.id ∈ p.errors.map (·.id) := by
  obtain ⟨children, s, rfl, hmoves, -, -⟩ := parse_ok h
  have hnumbered := hmoves.numbered (ParseState.first_numbered source fileName o)
  have hids := Bench.ids_stack children [.opened (ParseState.root source fileName o)]
  have hnone : Bench.ids [.opened (ParseState.root source fileName o)] = [] := rfl
  rw [hnone, List.append_nil] at hids
  have hsignature {m : Node} (hm : m ∈ Node.walkFrom children) :
      m.signature ∈ Bench.signatures (stack children [.opened (ParseState.root source fileName o)]) :=
    Bench.signature_mem_stack hm _
  rw [ParseState.completed_ids, ParseState.completed_tree, ParseState.completed_errors,
    ParseState.completed_id]
  refine ⟨hids.nodup_iff.mp hnumbered.distinct.1, ?_, fun i => ⟨?_, fun hi => ?_⟩, ?_⟩
  · intro n hn c hc
    obtain ⟨m, hm, rfl⟩ := List.mem_map.mp hn
    rw [Node.children_mapInfo] at hc
    obtain ⟨d, hd, rfl⟩ := List.mem_map.mp hc
    rw [ParseState.deliver_id, ParseState.deliver_id]
    exact hnumbered.child_lt _ (hsignature hm) d.outline (List.mem_map_of_mem hd)
  · rintro (hi | hi)
    · exact hnumbered.distinct.2 i (hids.mem_iff.mpr hi)
    · exact hnumbered.recorded_lt i hi
  · exact (hnumbered.complete i hi).imp_left hids.mem_iff.mp
  · intro n hn
    obtain ⟨m, hm, rfl⟩ := List.mem_map.mp hn
    rw [Node.isError_mapInfo, ParseState.deliver_id]
    exact hnumbered.error_iff _ (hsignature hm)

/-- Of two errors at a stray bracket, one takes the place of an expression and the other is
left out of the tree. -/
theorem identities_complete_bracket :
    ∃ p, parse "<?php ) 1" none { suppressErrors := true } = .ok p ∧
      (p.tree.map (·.id) = [2, 0, 4, 3] ∧ p.errors.map (·.id) = [0, 1] ∧ p.id = 5) ∧
      (p.tree.map (·.id)).Nodup ∧
      (∀ n ∈ p.tree, ∀ c ∈ n.children, c.id < n.id) ∧
      (∀ i, (i ∈ p.tree.map (·.id) ∨ i ∈ p.errors.map (·.id)) ↔ i < p.id) ∧
      ∀ n ∈ p.tree, n.isError = true ↔ n.id ∈ p.errors.map (·.id) := by
  have hrun : (parse "<?php ) 1" none { suppressErrors := true }).toOption.map
      (fun p => (p.tree.map (·.id), p.errors.map (·.id), p.id)) = some ([2, 0, 4, 3], [0, 1], 5) := by
    rw [parse_eq, statementsFrom_eq]
    decide +kernel
  obtain ⟨p, hp, hvalues⟩ := parse_of_map hrun
  obtain ⟨htree, hrest⟩ := Prod.mk.inj hvalues
  obtain ⟨herrors, hid⟩ := Prod.mk.inj hrest
  exact ⟨p, hp, ⟨htree, herrors, hid⟩, identities_complete hp⟩

end PhpSyntax
