/-
What is kept of a parse does not change it.

The log and the comments are both written behind the back of the rules.  The log is never
read (`parse_unlogged`).  Comments are read in one place only, where a choice has no cases:
there they get a node to lead.  So a parse without comments is the parse with comments less
these nodes (`parse_undocumented`).
-/
import PhpSyntax.Proofs.Node.Identity
import PhpSyntax.Proofs.Observation.Comments
import PhpSyntax.Proofs.Observation.Tokens

namespace PhpSyntax

/-! ## Comments that are delivered late -/

namespace Trivia

variable (t : Trivia) (p : Program)

theorem settle_standIns : (t.settle p).standIns = p.standIns := by
  rw [Program.standIns, settle_tree, List.flatMap_map]
  apply List.flatMap_congr
  intro n _
  rw [Node.mapInfo_eq]
  exact Production.standIns_mapInfo t.deliver (fun _ => rfl) (fun _ => rfl) _

/-- A program loses the comments that were delivered late with the others. -/
theorem settle_undocumented : (t.settle p).undocumented = p.undocumented := by
  by_cases h : t.deferred.isEmpty = true
  · rw [settle, if_pos h]
  · have hstandIns := t.settle_standIns p
    have hchildren (ids : List Nat) :
        (p.children.map (Node.mapInfo t.deliver)).map (Node.undocumented ids) =
          p.children.map (Node.undocumented ids) := by
      rw [List.map_map]
      apply List.map_congr_left
      intro n _
      show Node.mapInfo _ (Node.mapInfo t.deliver n).withoutStandIns = _
      rw [Node.withoutStandIns_mapInfo t.deliver fun _ => rfl, Node.mapInfo_mapInfo]
      rfl
    rw [settle, if_neg h] at hstandIns ⊢
    simp only [Program.undocumented, hstandIns]
    rw [← hchildren]
    rfl

end Trivia

/-! ## The identities of both runs -/

/-- The identities of a tree, each with whether it is that of an error, and those of the
recorded errors are all that have been drawn. -/
structure Marked (marks : List (Nat × Bool)) (recorded : List Nat) (next : Nat) : Prop where
  nodup : (marks.map Prod.fst).Nodup
  complete : ∀ id, id < next ↔ id ∈ marks.map Prod.fst ∨ id ∈ recorded
  error_iff : ∀ m ∈ marks, m.2 = true ↔ m.1 ∈ recorded

namespace Marked

variable {marks kept : List (Nat × Bool)} {dropped other recorded : List Nat} {next later : Nat}

/-- No two identities that are kept move to the same place.  An error is never left out, so
nothing behind it takes its place, and a node that moves to the place of an error is one. -/
theorem shift_ne (hm : Marked marks recorded next) (hkept : ∀ m ∈ kept, m ∈ marks)
    (he : Marked (kept.map (Prod.map (shift dropped) id)) (recorded.map (shift dropped)) later)
    (hd : dropped.Nodup) (hrecorded : ∀ id ∈ recorded, id ∉ dropped) {i j : Nat}
    (hi : i ∈ kept.map Prod.fst ∨ i ∈ recorded) (hj : j ∈ kept.map Prod.fst ∨ j ∈ recorded)
    (hlt : i < j) : shift dropped i ≠ shift dropped j := by
  intro heq
  by_cases hdropped : i ∈ dropped
  · have hi : i ∈ kept.map Prod.fst := hi.resolve_right fun hi => hrecorded i hi hdropped
    rcases hj with hj | hj
    · have hnodup : ((kept.map Prod.fst).map (shift dropped)).Nodup := by
        have h := he.nodup
        rwa [List.map_map, Prod.map_fst', ← List.map_map] at h
      exact Nat.ne_of_lt hlt (List.inj_on_of_nodup_map hnodup hi hj heq)
    · obtain ⟨m, hmem, rfl⟩ := List.mem_map.mp hi
      have herror : m.2 = true := by
        apply (he.error_iff _ (List.mem_map_of_mem hmem)).mpr
        show shift dropped m.1 ∈ _
        rw [heq]
        exact List.mem_map_of_mem hj
      exact hrecorded _ ((hm.error_iff m (hkept m hmem)).mp herror) hdropped
  · exact Nat.ne_of_lt (shift_lt hd hdropped hlt) heq

/-- The identities of a run move as the nodes tell that are missing in the other run. -/
theorem shift_eq (hm : Marked marks recorded next)
    (hperm : marks.Perm (kept ++ other.map (·, false)))
    (he : Marked (kept.map (Prod.map (shift dropped) id)) (recorded.map (shift dropped))
      (shift dropped next))
    (hd : dropped.Nodup) (hrecorded : ∀ id ∈ recorded, id ∉ dropped) {i : Nat}
    (hi : (i ∈ kept.map Prod.fst ∨ i ∈ recorded) ∨ i = next) :
    shift dropped i = shift other i := by
  let all : Finset Nat := (kept.map Prod.fst ++ recorded).toFinset
  have hall (k : Nat) : k ∈ all ↔ k ∈ kept.map Prod.fst ∨ k ∈ recorded := by
    rw [List.mem_toFinset, List.mem_append]
  have hids : (marks.map Prod.fst).Perm (kept.map Prod.fst ++ other) := by
    have h := hperm.map Prod.fst
    rwa [List.map_append, List.map_map, show (Prod.fst ∘ fun k : Nat => (k, false)) = id from rfl,
      List.map_id] at h
  have hnodup := List.nodup_append.mp (hids.nodup_iff.mp hm.nodup)
  have hkept (m : Nat × Bool) (h : m ∈ kept) : m ∈ marks :=
    hperm.mem_iff.mpr (List.mem_append_left _ h)
  have hinj : Set.InjOn (shift dropped) all := by
    intro j hj k hk heq
    have hj := (hall j).mp hj
    have hk := (hall k).mp hk
    rcases Nat.lt_trichotomy j k with hlt | rfl | hlt
    · exact absurd heq (hm.shift_ne hkept he hd hrecorded hj hk hlt)
    · rfl
    · exact absurd heq.symm (hm.shift_ne hkept he hd hrecorded hk hj hlt)
  have hcover (k : Nat) : k < next ↔ k ∈ all ∨ k ∈ other := by
    rw [hm.complete, hids.mem_iff, List.mem_append, hall]
    tauto
  have hdisjoint (k : Nat) (hk : k ∈ all) : k ∉ other := by
    intro hother
    rcases (hall k).mp hk with hk | hk
    · exact hnodup.2.2 k hk k hother rfl
    · have hmem : (k, false) ∈ marks :=
        hperm.mem_iff.mpr (List.mem_append_right _ (List.mem_map_of_mem hother))
      exact Bool.false_ne_true ((hm.error_iff _ hmem).mpr hk)
  have honto (j : Nat) : j < shift dropped next ↔ ∃ k ∈ all, shift dropped k = j := by
    rw [he.complete, List.map_map, Prod.map_fst', ← List.map_map, List.mem_map, List.mem_map]
    simp only [hall]
    constructor
    · rintro (⟨k, hk, hj⟩ | ⟨k, hk, hj⟩)
      · exact ⟨k, .inl hk, hj⟩
      · exact ⟨k, .inr hk, hj⟩
    · rintro ⟨k, hk | hk, hj⟩
      · exact .inl ⟨k, hk, hj⟩
      · exact .inr ⟨k, hk, hj⟩
  refine shift_agree hd hnodup.2.1 hcover hdisjoint hinj honto ?_
  exact hi.imp_left (hall i).mpr

end Marked

/-! ## Runs -/

section

variable (source : String) (fileName : Option String) (o : Options)

namespace ParseState

/-- The statements of a text use all identities that have been drawn. -/
theorem statements_marked {children : List Node} {s : ParseState}
    (h : statementsFrom (first source fileName o) = .ok (children, s)) :
    Marked (children.flatMap Node.marks) s.recorded s.nextId := by
  obtain ⟨hmoves, -, -⟩ := ((first_meets source fileName o).ok h).1
  have hnumbered := hmoves.numbered (first_numbered source fileName o)
  have hwalk : children.flatMap Node.marks =
      (Node.walkFrom children).map fun n => (n.id, n.isError) := by
    rw [Node.walkFrom_eq, List.map_flatMap]
    rfl
  have hids := Bench.ids_stack children [.opened (root source fileName o)]
  have hnone : Bench.ids [.opened (root source fileName o)] = [] := rfl
  have hfst : (children.flatMap Node.marks).map Prod.fst = (Node.walkFrom children).map (·.id) := by
    rw [hwalk, List.map_map]
    rfl
  rw [hnone, List.append_nil, ← hfst] at hids
  refine ⟨hids.nodup_iff.mp hnumbered.distinct.1, fun i => ⟨fun hi => ?_, ?_⟩, fun m hm => ?_⟩
  · exact (hnumbered.complete i hi).imp_left hids.mem_iff.mp
  · rintro (hi | hi)
    · exact hnumbered.distinct.2 i (hids.mem_iff.mpr hi)
    · exact hnumbered.recorded_lt i hi
  · rw [hwalk] at hm
    obtain ⟨n, hn, rfl⟩ := List.mem_map.mp hm
    exact hnumbered.error_iff _ (Bench.signature_mem_stack hn _)

/-- Nothing has been left out before the first token. -/
theorem first_undocumented :
    Undocumented ⟨0, [], nofun, List.nodup_nil⟩ (first source fileName o)
      (first source fileName { o with extractDoc := false }) where
  stream := rfl
  sound := Stream.first_sound source _
  fileName := rfl
  deferred := rfl
  openNodes := rfl
  namespaceDepth := rfl
  bound := rfl
  nextId := rfl
  errors := fun _ _ => rfl
  recorded := nofun

end ParseState

end

/-- Identities that move alike for the nodes of a tree change the tree alike. -/
theorem Node.undocumented_congr {dropped other : List Nat} {n : Node}
    (h : ∀ m ∈ n.withoutStandIns.marks, shift dropped m.1 = shift other m.1) :
    n.undocumented dropped = n.undocumented other := by
  apply mapInfo_congr
  intro m hm
  have hid : shift dropped m.id = shift other m.id := h _ (List.mem_map_of_mem hm)
  rw [NodeInfo.undocumented, NodeInfo.undocumented, hid]

theorem Node.marks_of_isError {n : Node} (h : n.isError = true) :
    n.withoutStandIns.marks = [(n.id, true)] := by
  obtain ⟨info, p⟩ := n
  rw [marks_eq, isError_withoutStandIns, h, withoutStandIns_eq]
  cases p with
  | error => rfl
  | _ => cases h

theorem Node.marks_undocumented (dropped : List Nat) (n : Node) :
    (n.undocumented dropped).marks =
      n.withoutStandIns.marks.map (Prod.map (shift dropped) id) := by
  rw [marks, undocumented, walk_mapInfo, List.map_map, marks, List.map_map]
  apply List.map_congr_left
  intro m _
  have hid : (mapInfo (NodeInfo.undocumented dropped) m).id = shift dropped m.id := by
    rw [toNodeInfo_mapInfo]
    rfl
  exact Prod.ext hid (isError_mapInfo _ m)

namespace ParseState.Undocumented

variable {source : String} {fileName : Option String} {o : Options} {w : Dropped}
  {s t : ParseState} {children : List Node}

/-- The identities of the nodes that are missing in the echo are those of the nodes that stand
in for cases. -/
theorem shift_eq (h : Undocumented w s t)
    (hs : statementsFrom (.first source fileName o) = .ok (children, s))
    (ht : statementsFrom (.first source fileName { o with extractDoc := false }) =
      .ok (children.map (Node.undocumented w.ids), t)) {i : Nat}
    (hi : (i ∈ (children.flatMap fun n => n.withoutStandIns.marks).map Prod.fst ∨
      i ∈ s.recorded) ∨ i = s.nextId) :
    shift w.ids i =
      shift ((Node.walkFrom children).flatMap fun n => n.production.standIns) i := by
  let kept := children.flatMap fun n => n.withoutStandIns.marks
  have hmarked := ParseState.statements_marked source fileName o hs
  have hechoed := ParseState.statements_marked source fileName _ ht
  have hmarks : (children.map (Node.undocumented w.ids)).flatMap Node.marks =
      kept.map (Prod.map (shift w.ids) id) := by
    rw [List.flatMap_map, List.map_flatMap]
    exact List.flatMap_congr fun n _ => n.marks_undocumented w.ids
  have hrecorded : t.recorded = s.recorded.map (shift w.ids) := by
    rw [ParseState.recorded, ← h.errors w le_rfl, List.map_map, ParseState.recorded, List.map_map]
    apply List.map_congr_left
    intro n _
    show (n.undocumented w.ids).id = shift w.ids n.id
    rw [Node.undocumented, Node.toNodeInfo_mapInfo, Node.withoutStandIns_eq]
    rfl
  have hnext : t.nextId = shift w.ids s.nextId := by
    rw [h.nextId, ← h.bound, w.shift_bound]
  rw [hmarks, hrecorded, hnext] at hechoed
  have hperm : (children.flatMap Node.marks).Perm (kept ++
      ((Node.walkFrom children).flatMap fun n => n.production.standIns).map (·, false)) := by
    rw [Node.walkFrom_eq, List.flatMap_assoc, List.map_flatMap]
    refine (List.Perm.flatMap_left _ fun n _ => n.marks_withoutStandIns).trans ?_
    exact (List.flatMap_append_perm _ _ _).symm
  apply hmarked.shift_eq hperm hechoed w.nodup ?_ hi
  intro i hi
  obtain ⟨n, hn, rfl⟩ := List.mem_map.mp hi
  exact (h.recorded n hn).2.2

/-- The roots of both runs, where nothing has been kept aside without comments. -/
theorem sealed (h : Undocumented w s t) (root : Opened) (hroot : root.leading = [])
    {ids : List Nat} (hid : t.nextId = shift ids s.nextId) :
    (t.sealed root).1 = (s.sealed root).1.undocumented ids ∧
      (t.sealed root).2.trivia.deferred = #[] := by
  have hfinish : t.stream.finish = s.stream.finish.undocumented := by
    rw [h.stream]
    rfl
  have hcomments : t.stream.finish.comments = #[] := by
    rw [hfinish]
    rfl
  have htrail := Trivia.trail_of_nothing h.deferred t.nextId t.stream.finish.prev
    t.stream.finish.current.isEof
  rw [← hcomments] at htrail
  refine ⟨?_, htrail.2⟩
  let span (prev : Position) : Span :=
    .between root.start (if root.start.offset ≤ prev.offset then prev else root.start)
  show NodeInfo.mk t.nextId (span t.stream.finish.prev) root.leading
      (t.trivia.trail t.stream.finish.comments t.nextId t.stream.finish.prev
        t.stream.finish.current.isEof).1 =
    ⟨shift ids s.nextId, span s.stream.finish.prev, [], []⟩
  rw [htrail.1, hid, hroot, hfinish]
  rfl

/-- The programs of both runs. -/
theorem completed (h : Undocumented w s t)
    (hs : statementsFrom (.first source fileName o) = .ok (children, s))
    (ht : statementsFrom (.first source fileName { o with extractDoc := false }) =
      .ok (children.map (Node.undocumented w.ids), t)) (root : Opened) (hroot : root.leading = []) :
    t.completed root (children.map (Node.undocumented w.ids)) =
      (s.completed root children).undocumented := by
  let ids := (Node.walkFrom children).flatMap fun n => n.production.standIns
  have hshift {i : Nat} := h.shift_eq (i := i) hs ht
  have hchildren : children.map (Node.undocumented w.ids) =
      children.map (Node.undocumented ids) := by
    apply List.map_congr_left
    intro n hn
    apply Node.undocumented_congr
    intro m hm
    apply hshift
    exact .inl (.inl (List.mem_map_of_mem (List.mem_flatMap.mpr ⟨n, hn, hm⟩)))
  have herrors : t.errors.toList = s.errors.toList.map (Node.undocumented ids) := by
    rw [← h.errors w le_rfl]
    apply List.map_congr_left
    intro n hn
    apply Node.undocumented_congr
    intro m hm
    rw [Node.marks_of_isError (h.recorded n hn).1, List.mem_singleton] at hm
    rw [hm]
    exact hshift (.inl (.inr (List.mem_map_of_mem hn)))
  have hid : t.nextId = shift ids s.nextId := by
    rw [← hshift (.inr rfl), h.nextId, ← h.bound, w.shift_bound]
  obtain ⟨hsealed, hdeferred⟩ := h.sealed root hroot hid
  have hunsettled : t.unsettled root (children.map (Node.undocumented w.ids)) =
      (s.unsettled root children).undocumented := by
    rw [ParseState.unsettled, hsealed, hchildren, herrors, h.stream]
    rfl
  rw [ParseState.completed, ParseState.completed, Trivia.settle_undocumented,
    Trivia.settle_of_nothing hdeferred, hunsettled]

end ParseState.Undocumented

/-- A parse without comments is the parse with comments less the nodes that are there for
them. -/
theorem parse_undocumented (source : String) (fileName : Option String) (o : Options) :
    parse source fileName { o with extractDoc := false } =
      (parse source fileName o).map Program.undocumented := by
  have hstatements := statementsFrom_echoes (E := Echo.undocumented)
    (ParseState.first_undocumented source fileName o)
  rw [parse_eq, parse_eq]
  cases hout : statementsFrom (.first source fileName o) with
  | error f =>
    rw [hout] at hstatements
    rw [hstatements rfl]
    rfl
  | ok last =>
    obtain ⟨children, s⟩ := last
    rw [hout] at hstatements
    obtain ⟨w, children', t, ht, _, hchildren, hstates⟩ := hstatements fun b hb => nomatch hb
    have himages : children.map (Node.undocumented (Dropped.ids w)) = children' := by
      rw [← show children.map (Echo.undocumented.image w) = children' from hchildren w le_rfl]
      exact List.map_congr_left fun n _ => (Echo.image_undocumented w n).symm
    rw [← himages] at ht
    rw [ht]
    exact congrArg Except.ok (hstates.completed hout ht _ rfl)

/-- The options for what is kept of a parse do not change it.  Without the log of the tokens a
program lacks the log and nothing else.  Without comments it lacks them, and with them the
nodes without text that stand in for the cases of a choice; identities move down by as many
of these as are below them.  A parse that fails fails alike. -/
theorem parse_observed (source : String) (fileName : Option String) (o : Options) :
    parse source fileName { o with extractTokens := false } =
        (parse source fileName o).map Program.unlogged ∧
      parse source fileName { o with extractDoc := false } =
        (parse source fileName o).map Program.undocumented :=
  ⟨parse_unlogged source fileName o, parse_undocumented source fileName o⟩

end PhpSyntax
