/-
Every comment is attached once.

In front of the end of a program the comments are balanced (`Balanced`), and finishing the
program reads those that are left, since no comment starts behind the end of the text.
Those kept aside are delivered to the nodes that they are kept for, one node each since
identities are distinct, and the others go to the program.  So the comments of a program
are those of its nodes and its own, in some order (`comments_attached`).
-/
import Mathlib.Data.List.TakeWhile
import PhpSyntax.Proofs.Comment.Balance
import PhpSyntax.Proofs.Trace.Program

namespace PhpSyntax

/-! ## No comment lies behind the end -/

theorem Comment.position_of_ofToken? {t : Token} {c : Comment} (h : ofToken? t = some c) :
    c.position = t.start := by
  unfold ofToken? at h
  split at h
  · cases h
    rfl
  · split at h
    · cases h
      rfl
    · cases h
      rfl
  · cases h

def Stream.Within (s : Stream) : Prop := ∀ c ∈ s.comments, c.offset ≤ s.stop.offset

theorem Stream.advance_within {s : Stream} {p : Position} (h : Contiguous p s.ahead s.stop)
    (hs : s.Within) : s.advance.Within := by
  obtain ⟨cs, hcs, htokens⟩ := s.advance_comments
  intro c hc
  have hc : c ∈ s.comments.toList ++ cs := hcs ▸ Array.mem_def.mp hc
  rcases List.mem_append.mp hc with hc | hc
  · exact hs c (Array.mem_def.mpr hc)
  · obtain ⟨t, ht, htoken⟩ := htokens c hc
    have hahead : t ∈ s.ahead := (List.takeWhile_sublist _).subset ht
    show c.position.offset ≤ s.stop.offset
    rw [Comment.position_of_ofToken? htoken]
    exact h.start_le t hahead

theorem Moves.within {x y : Bench × ParseState} (h : Moves x y) (hsound : x.2.stream.Sound)
    (hx : x.2.stream.Within) : y.2.stream.Within := by
  have hboth : y.2.stream.Sound ∧ y.2.stream.Within := by
    refine h.preserves (P := fun y => y.2.stream.Sound ∧ y.2.stream.Within) ?_ ⟨hsound, hx⟩
    intro y z hyz ⟨hy, hw⟩
    refine ⟨hyz.sound hy, ?_⟩
    rcases hyz.stream with e | ⟨_, e⟩ | e <;> rw [e]
    · exact hw
    · exact Stream.advance_within hy.ahead hw
    · exact hw
  exact hboth.2

/-! ## Finishing the program -/

namespace Trivia

variable {t : Trivia} {queue : Array Comment} {boundary : Position}

/-- Where no comment lies behind the boundary, the unread ones lie in front of it. -/
theorem takeWhile_unread (h : ∀ c ∈ queue, c.offset ≤ boundary.offset) :
    (t.unread queue).takeWhile (·.offset ≤ boundary.offset) = t.unread queue := by
  refine List.takeWhile_eq_self_iff.mpr fun c hc => ?_
  rw [unread_eq] at hc
  exact decide_eq_true (h c (Array.mem_def.mpr (List.mem_of_mem_drop hc)))

/-- Where no comment lies behind the boundary, a node finished at the end reads them all. -/
theorem trail_all (h : t.read ≤ queue.size) (hq : ∀ c ∈ queue, c.offset ≤ boundary.offset)
    (id : Nat) : (t.trail queue id boundary true).2.read = queue.size := by
  cases hlast : t.lastFinished with
  | some last =>
    simp only [trail, hlast, takeWhile_unread hq]
    rw [unread_eq, List.length_drop, Array.length_toList]
    omega
  | none => simp only [trail, hlast, if_true]

end Trivia

/-! ## Delivering what was kept aside -/

/-- What is kept under distinct keys, and what is kept under none of them. -/
theorem perm_of_keys {α : Type} (es : List (Nat × α)) {is : List Nat} (h : is.Nodup) :
    ((is.flatMap fun i => es.filter (·.1 = i)) ++ es.filter (!is.contains ·.1)).Perm es := by
  induction is with
  | nil => simp
  | cons i is ih =>
    obtain ⟨hi, hnodup⟩ := List.nodup_cons.mp h
    -- What is kept under the first key is kept under none of the others.
    have hunder : (es.filter (!is.contains ·.1)).filter (·.1 = i) = es.filter (·.1 = i) := by
      rw [List.filter_filter]
      refine List.filter_congr fun e _ => ?_
      by_cases he : e.1 = i
      · simp [he, hi]
      · simp [he]
    have hothers : (es.filter (!is.contains ·.1)).filter (fun e => !decide (e.1 = i)) =
        es.filter (!(i :: is).contains ·.1) := by
      rw [List.filter_filter]
      refine List.filter_congr fun e _ => ?_
      simp
    have hsplit := List.filter_append_perm (fun e => decide (e.1 = i))
      (es.filter (!is.contains ·.1))
    rw [hunder, hothers] at hsplit
    rw [List.flatMap_cons, List.append_assoc]
    exact (List.perm_append_comm_assoc _ _ _).trans ((hsplit.append_left _).trans (ih hnodup))

namespace Trivia

variable (t : Trivia) (p : Program)

theorem settle_trailing : (t.settle p).trailing =
    p.trailing ++ (t.deferred.toList.filter (!(p.tree.map (·.id)).contains ·.1)).map (·.2) := by
  by_cases h : t.deferred.isEmpty = true
  · have hdeferred : t.deferred = #[] := Array.isEmpty_iff.mp h
    simp [settle, hdeferred]
  · rw [settle, if_neg h]

theorem deferredFor_eq (i : Nat) :
    t.deferredFor i = (t.deferred.toList.filter (·.1 = i)).map (·.2) := by
  rw [deferredFor]
  induction t.deferred.toList with
  | nil => rfl
  | cons e es ih =>
    by_cases he : e.1 = i
    · simp [he, ih]
    · simp [he, ih]

/-- Settling hands out what was kept aside, each comment once. -/
theorem settle_attached (h : (p.tree.map (·.id)).Nodup) :
    ((t.settle p).trailing ++ (t.settle p).tree.flatMap Node.comments).Perm
      (p.trailing ++ p.tree.flatMap Node.comments ++ t.aside) := by
  have hnode (n : Node) :
      (Node.mapInfo t.deliver n).comments = n.comments ++ t.deferredFor n.id := by
    rw [Node.comments, Node.toNodeInfo_mapInfo, Node.comments, List.append_assoc]
    rfl
  have htree : (t.settle p).tree.flatMap Node.comments =
      p.tree.flatMap fun n => n.comments ++ t.deferredFor n.id := by
    rw [settle_tree, List.flatMap_map]
    exact List.flatMap_congr fun n _ => hnode n
  have hdelivered : (p.tree.flatMap fun n => t.deferredFor n.id) =
      ((p.tree.map (·.id)).flatMap fun i => t.deferred.toList.filter (·.1 = i)).map (·.2) := by
    rw [List.map_flatMap, List.flatMap_map]
    exact List.flatMap_congr fun n _ => t.deferredFor_eq n.id
  have hkept := (perm_of_keys t.deferred.toList h).map (·.2)
  rw [List.map_append, ← hdelivered] at hkept
  have hnodes := List.flatMap_append_perm p.tree Node.comments fun n => t.deferredFor n.id
  rw [settle_trailing, htree]
  refine List.perm_iff_count.mpr fun c => ?_
  have hk := hkept.count_eq c
  have hn := hnodes.count_eq c
  simp only [List.count_append, aside] at hk hn ⊢
  omega

end Trivia

theorem ParseState.first_balanced (source : String) (fileName : Option String) (o : Options) :
    Balanced ([.opened (root source fileName o)], first source fileName o) :=
  ⟨Nat.zero_le _, List.Perm.refl _⟩

theorem ParseState.first_within (source : String) (fileName : Option String) (o : Options) :
    (first source fileName o).stream.Within := by
  have hnone : (Stream.ofSource source o.effective).Within := fun c hc =>
    absurd hc (Array.not_mem_empty c)
  exact Stream.advance_within (Stream.ofSource_contiguous source o.effective) hnone

theorem ParseState.first_distinct (source : String) (fileName : Option String) (o : Options) :
    Distinct ([.opened (root source fileName o)], first source fileName o) :=
  ⟨List.nodup_nil, fun i hi => by cases hi⟩

/-- The comments of a program that all statements have been read for. -/
theorem ParseState.sealed_balance {s : ParseState} {root : Opened} {children : List Node}
    (hbalanced : Balanced (stack children [.opened root], s)) (hsound : s.stream.Sound)
    (hwithin : s.stream.Within) (heof : s.kind = .eof) :
    (root.leading ++ (s.sealed root).1.trailing ++ (Node.walkFrom children).flatMap Node.comments ++
      (s.sealed root).2.trivia.aside).Perm s.stream.comments.toList := by
  obtain ⟨hread, hperm⟩ := hbalanced
  have hend : s.stream.finish.prev = s.stream.stop := Stream.finish_prev hsound heof
  have hatEnd : s.stream.finish.current.isEof = true := decide_eq_true heof
  have hqueue : ∀ c ∈ s.stream.comments, c.offset ≤ s.stream.finish.prev.offset := by
    rw [hend]
    exact hwithin
  have hall : (s.sealed root).2.trivia.read = s.stream.comments.size := by
    have htrail := Trivia.trail_all hread hqueue s.nextId
    rw [← hatEnd] at htrail
    exact htrail
  have htrail : ((s.sealed root).1.trailing ++ (s.sealed root).2.trivia.aside ++
      s.stream.comments.toList.take s.trivia.read).Perm
        (s.trivia.aside ++ s.stream.comments.toList.take (s.sealed root).2.trivia.read) :=
    (Trivia.trail_balance hread _ _ _).2
  have htake : s.stream.comments.toList.take s.stream.comments.size = s.stream.comments.toList :=
    List.take_of_length_le (Nat.le_of_eq Array.length_toList)
  rw [hall, htake] at htrail
  refine List.perm_iff_count.mpr fun c => ?_
  have hc := hperm.count_eq c
  have ht := htrail.count_eq c
  have hs := (Bench.attached_stack children [.opened root]).count_eq c
  simp only [Bench.pending_stack, Bench.pending, List.count_append] at hc ht hs ⊢
  have hnone : List.count c (Bench.attached [.opened root]) = 0 := rfl
  have hnil : List.count c ([] : List Comment) = 0 := rfl
  omega

/-- Every comment of a program is attached to one node, or to the program, once. -/
theorem comments_attached {source : String} {fileName : Option String} {o : Options}
    {p : Program} (ho : o.extractDoc = true) (h : parse source fileName o = .ok p) :
    ∃ cs, p.comments = some cs ∧
      (p.leading ++ p.trailing ++ p.tree.flatMap fun n => n.leading ++ n.trailing).Perm cs := by
  obtain ⟨children, s, rfl, hmoves, hsound, heof⟩ := parse_ok h
  have hbalanced := hmoves.balanced (ParseState.first_balanced source fileName o)
  have hwithin := hmoves.within (Stream.first_sound source o.effective)
    (ParseState.first_within source fileName o)
  have hids : ((Node.walkFrom children).map (·.id)).Nodup := by
    have hnodup := (hmoves.distinct (ParseState.first_distinct source fileName o)).1
    exact (List.nodup_append.mp ((Bench.ids_stack _ _).nodup_iff.mp hnodup)).1
  have hdoc : s.stream.options.extractDoc = true := by
    rw [hmoves.constant.1]
    exact ho
  have hcomments : (s.completed (ParseState.root source fileName o) children).comments =
      some s.stream.comments.toList := by
    rw [ParseState.completed, Trivia.settle_comments, ParseState.unsettled, hdoc]
    rfl
  refine ⟨_, hcomments, ?_⟩
  have hsettle := Trivia.settle_attached (s.sealed (ParseState.root source fileName o)).2.trivia
    (s.unsettled (ParseState.root source fileName o) children) hids
  have hsealed := ParseState.sealed_balance hbalanced hsound hwithin heof
  have hleading : (s.completed (ParseState.root source fileName o) children).leading =
      (ParseState.root source fileName o).leading := Trivia.settle_leading _ _
  rw [hleading, List.append_assoc]
  refine (hsettle.append_left _).trans ?_
  rw [← List.append_assoc, ← List.append_assoc]
  exact hsealed

theorem comments_attached_call :
    ∃ p, parse "<?php f(/* a */ 1); // b" none { extractDoc := true } = .ok p ∧
      ∃ cs, p.comments = some cs ∧
        (p.leading ++ p.trailing ++ p.tree.flatMap fun n => n.leading ++ n.trailing).Perm cs := by
  have hrun : ∃ p, parse "<?php f(/* a */ 1); // b" none { extractDoc := true } = .ok p := by
    rw [parse_eq, statementsFrom_eq]
    exact ⟨_, rfl⟩
  obtain ⟨p, hp⟩ := hrun
  exact ⟨p, hp, comments_attached rfl hp⟩

end PhpSyntax
