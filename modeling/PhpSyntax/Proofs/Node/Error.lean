/-
The errors of a program, in its list and in its tree.

An error is recorded at the current token with the next identity, and neither of the two ever
goes back, so the list of errors is in the order of the text and of the identities.  What an
error says, and where, is part of the outline of its node (`Node.complaint?`).  Rules hand the
node on, give it comments or leave it out, but none of that changes its outline, so an error
on the bench says what is recorded under its identity (`Recorded`).
-/
import PhpSyntax.Proofs.Node.Identity
import PhpSyntax.Proofs.Span.Exact

namespace PhpSyntax

/-! ## What errors say -/

namespace Node

variable {m n : Node}

theorem complaint?_eq_some {c : Complaint} : n.complaint? = some c ↔
    n.span = c.span ∧ n.production = .error c.message c.token c.line c.expected := by
  unfold complaint?
  constructor
  · intro h
    split at h
    · next hp =>
      cases h
      exact ⟨rfl, hp⟩
    · cases h
  · rintro ⟨hspan, hp⟩
    rw [hp]
    exact congrArg (fun s => some (Complaint.mk s _ _ _ _)) hspan

theorem exists_complaint (h : n.isError = true) : ∃ c, n.complaint? = some c := by
  unfold isError at h
  split at h
  · next message token line expected hp =>
    exact ⟨⟨n.span, message, token, line, expected⟩, complaint?_eq_some.mpr ⟨rfl, hp⟩⟩
  · cases h

/-- Errors that say the same in the same place have the same production and span. -/
theorem eq_of_complaint? (h : m.complaint? = n.complaint?) (hn : n.isError = true) :
    m.production = n.production ∧ m.span = n.span := by
  obtain ⟨c, hc⟩ := exists_complaint hn
  obtain ⟨hspan, hproduction⟩ := complaint?_eq_some.mp hc
  obtain ⟨hspan', hproduction'⟩ := complaint?_eq_some.mp (h.trans hc)
  exact ⟨hproduction'.trans hproduction.symm, hspan'.trans hspan.symm⟩

/-- A change that leaves the span alone leaves alone what an error says. -/
theorem complaint?_mapInfo {g : NodeInfo → NodeInfo} (hg : ∀ info, (g info).span = info.span) :
    (mapInfo g n).complaint? = n.complaint? := by
  obtain ⟨info, p⟩ := n
  rw [mapInfo_eq]
  cases p with
  | error message token line expected =>
    exact congrArg (fun s => some (Complaint.mk s message token line expected)) (hg info)
  | _ => rfl

/-- An error about what is missing at `q`: it has no extent, and its line and the end of its
message tell the line of `q`. -/
def ComplainsAt (q : Position) (n : Node) : Prop :=
  n.span = .between q q ∧ ∃ message token expected,
    n.production = .error (Fault.onLine message q.line) token q.line expected

end Node

theorem ParseState.errorNode_complains (s : ParseState) (message : String) (e : Expected) :
    (s.errorNode message e).ComplainsAt s.stream.current.start :=
  ⟨rfl, message, _, _, rfl⟩

/-! ## Errors that are recorded -/

/-- The errors recorded so far, and those on the bench. -/
structure Recorded (source : String) (x : Bench × ParseState) : Prop where
  numbered : Numbered x
  sound : x.2.stream.Sound
  tokens : x.2.stream.OnTokens source
  /-- Identities increase along the list. -/
  ids : x.2.errors.toList.Pairwise fun e f => e.id < f.id
  /-- Along the list one goes on in the text, or stays. -/
  starts : x.2.errors.toList.Pairwise fun e f => e.span.start.offset ≤ f.span.start.offset
  passed : ∀ e ∈ x.2.errors.toList, e.span.start.offset ≤ x.2.offset
  places : ∀ e ∈ x.2.errors.toList, ∃ q, q.Begins source ∧ e.ComplainsAt q
  listed : ∀ g ∈ Bench.signatures x.1, g.1.isError = true →
    ∃ e ∈ x.2.errors.toList, e.id = g.1.id ∧ e.complaint? = g.1.complaint?

/-- A move records one error at most, about the current token. -/
theorem Move.errors {x y : Bench × ParseState} (h : Move x y) :
    y.2.errors = x.2.errors ∨
      ∃ message e, y.2.errors = x.2.errors.push (x.2.errorNode message e) := by
  cases h with
  | @record message e => exact Or.inr ⟨message, e, rfl⟩
  | _ => exact Or.inl rfl

/-- An error on the bench has been listed. -/
theorem Move.listed {source : String} {x y : Bench × ParseState} (h : Move x y)
    (hx : Recorded source x) : ∀ g ∈ Bench.signatures y.1, g.1.isError = true →
      ∃ e ∈ y.2.errors.toList, e.id = g.1.id ∧ e.complaint? = g.1.complaint? := by
  intro g hg herror
  rcases h.signatures g hg with hg | hadds
  · obtain ⟨e, he, hsame⟩ := hx.listed g hg herror
    refine ⟨e, ?_, hsame⟩
    rcases h.errors with herrors | ⟨_, _, herrors⟩ <;> rw [herrors]
    · exact he
    · rw [Array.toList_push]
      exact List.mem_append_left _ he
  · cases hadds with
    | @finish before p o w s he =>
      have hnot : (Node.mk (s.finishNode o).1 p).isError = false :=
        (Node.isError_eq _).trans (Production.isError_of_isProper he)
      exact absurd (hnot.symm.trans herror) Bool.false_ne_true
    | @record message e w s =>
      exact ⟨_, Array.mem_def.mp Array.mem_push_self, rfl, rfl⟩
    | @abandon o n => exact hx.listed n.signature (Bench.signature_mem List.mem_cons_self) herror

namespace Recorded

variable {source : String} {x y : Bench × ParseState}

/-- The list is as good behind a move that records nothing. -/
theorem keep (hx : Recorded source x) (h : Move x y) (herrors : y.2.errors = x.2.errors) :
    Recorded source y where
  numbered := h.numbered hx.numbered
  sound := h.sound hx.sound
  tokens := h.onTokens hx.tokens
  ids := herrors ▸ hx.ids
  starts := herrors ▸ hx.starts
  passed := by
    intro e he
    rw [herrors] at he
    exact Nat.le_trans (hx.passed e he) (h.offset_le hx.sound)
  places := herrors ▸ hx.places
  listed := h.listed hx

/-- An error that is recorded comes behind the others, with a larger identity and no earlier in
the text. -/
theorem record {message : String} {e : Expected} (hx : Recorded source x) (h : Move x y)
    (herrors : y.2.errors = x.2.errors.push (x.2.errorNode message e)) : Recorded source y := by
  have hlist : y.2.errors.toList = x.2.errors.toList ++ [x.2.errorNode message e] := by
    rw [herrors, Array.toList_push]
  constructor
  case numbered => exact h.numbered hx.numbered
  case sound => exact h.sound hx.sound
  case tokens => exact h.onTokens hx.tokens
  case ids =>
    rw [hlist, List.pairwise_append]
    refine ⟨hx.ids, List.pairwise_singleton _ _, fun f hf g hg => ?_⟩
    rw [List.mem_singleton.mp hg]
    exact hx.numbered.recorded_lt f.id (List.mem_map_of_mem hf)
  case starts =>
    rw [hlist, List.pairwise_append]
    refine ⟨hx.starts, List.pairwise_singleton _ _, fun f hf g hg => ?_⟩
    rw [List.mem_singleton.mp hg]
    exact hx.passed f hf
  case passed =>
    rw [hlist]
    refine List.forall_mem_append.mpr ⟨fun f hf => ?_, fun f hf => ?_⟩
    · exact Nat.le_trans (hx.passed f hf) (h.offset_le hx.sound)
    · rw [List.mem_singleton.mp hf]
      exact h.offset_le hx.sound
  case places =>
    rw [hlist]
    refine List.forall_mem_append.mpr ⟨hx.places, fun f hf => ?_⟩
    rw [List.mem_singleton.mp hf]
    exact ⟨_, hx.tokens.begins, x.2.errorNode_complains message e⟩
  case listed => exact h.listed hx

end Recorded

theorem Move.recorded {source : String} {x y : Bench × ParseState} (h : Move x y)
    (hx : Recorded source x) : Recorded source y := by
  rcases h.errors with herrors | ⟨_, _, herrors⟩
  · exact hx.keep h herrors
  · exact hx.record h herrors

theorem Moves.recorded {source : String} {x y : Bench × ParseState} (h : Moves x y)
    (hx : Recorded source x) : Recorded source y :=
  h.preserves Move.recorded hx

/-! ## Programs -/

theorem ParseState.first_recorded (source : String) (fileName : Option String) (o : Options) :
    Recorded source ([.opened (root source fileName o)], first source fileName o) where
  numbered := first_numbered source fileName o
  sound := Stream.first_sound source o.effective
  tokens := Stream.OnTokens.first source o.effective
  ids := List.Pairwise.nil
  starts := List.Pairwise.nil
  passed := fun _ he => absurd he List.not_mem_nil
  places := fun _ he => absurd he List.not_mem_nil
  listed := fun _ hg => absurd hg List.not_mem_nil

theorem ParseState.deliver_complaint? (t : Trivia) (n : Node) :
    (Node.mapInfo t.deliver n).complaint? = n.complaint? :=
  Node.complaint?_mapInfo fun _ => rfl

/-- Among nodes with increasing identities one at most has a given identity. -/
theorem getElem?_inj_of_ids {ns : List Node} (h : ns.Pairwise fun e f => e.id < f.id)
    {i j : Nat} {e f : Node} (hi : ns[i]? = some e) (hj : ns[j]? = some f) (hid : e.id = f.id) :
    i = j := by
  have hnodup : (ns.map (·.id)).Nodup := by
    refine List.Pairwise.map _ (fun _ _ hlt => Nat.ne_of_lt hlt) h
  have hlt : i < (ns.map (·.id)).length := by
    rw [List.length_map]
    exact (List.getElem?_eq_some_iff.mp hi).1
  refine (List.getElem?_inj hlt hnodup).mp ?_
  rw [List.getElem?_map, List.getElem?_map, hi, hj, Option.map_some, Option.map_some, hid]

/-- The errors of a program are in the order of their identities and of the text.  Each of them
stands at a token of the grammar or at the end of the text, without extent, and tells the line
of that place in its field and at the end of its message.  To each error of the tree belongs
exactly one of the list, with the same identity, production and span. -/
theorem errors_listed {source : String} {fileName : Option String} {o : Options} {p : Program}
    (h : parse source fileName o = .ok p) :
    (p.errors.map (·.id)).Pairwise (· < ·) ∧
      (p.errors.map (·.span.start.offset)).Pairwise (· ≤ ·) ∧
      (∀ e ∈ p.errors, ∃ q : Position, q.Begins source ∧ e.ComplainsAt q) ∧
      ∀ n ∈ p.tree, n.isError = true → ∃! i : Nat, ∃ e : Node, p.errors[i]? = some e ∧
        e.id = n.id ∧ e.production = n.production ∧ e.span = n.span := by
  obtain ⟨children, s, rfl, hmoves, -, -⟩ := parse_ok h
  have hrecorded := hmoves.recorded (ParseState.first_recorded source fileName o)
  rw [ParseState.completed_errors, ParseState.completed_tree, List.pairwise_map, List.pairwise_map]
  refine ⟨hrecorded.ids, hrecorded.starts, hrecorded.places, fun n hn herror => ?_⟩
  obtain ⟨m, hm, rfl⟩ := List.mem_map.mp hn
  have hm : m.signature ∈
      Bench.signatures (stack children [.opened (ParseState.root source fileName o)]) :=
    Bench.signature_mem_stack hm _
  obtain ⟨e, he, hid, hcomplaint⟩ :=
    hrecorded.listed m.signature hm ((Node.isError_mapInfo _ m).symm.trans herror)
  have hcomplaint : e.complaint? =
      (Node.mapInfo (s.sealed (ParseState.root source fileName o)).2.trivia.deliver m).complaint? := by
    rw [ParseState.deliver_complaint?]
    exact hcomplaint
  obtain ⟨i, hi⟩ := List.mem_iff_getElem?.mp he
  obtain ⟨hproduction, hspan⟩ := Node.eq_of_complaint? hcomplaint herror
  refine ⟨i, ⟨e, hi, ?_, hproduction, hspan⟩, ?_⟩
  · rw [ParseState.deliver_id]
    exact hid
  · rintro j ⟨f, hj, hfid, -⟩
    rw [ParseState.deliver_id] at hfid
    exact getElem?_inj_of_ids hrecorded.ids hj hi (hfid.trans hid.symm)

/-- Of two errors at a stray bracket, one is in the tree; the error at the end of the second line
is there too. -/
theorem errors_listed_bracket :
    ∃ p, parse "<?php ) 1;\n$a = " none .tolerant = .ok p ∧
      (p.tree.filter Node.isError).map (·.id) = [0, 6] ∧
      (p.errors.map (·.id)).Pairwise (· < ·) ∧
      (p.errors.map (·.span.start.offset)).Pairwise (· ≤ ·) ∧
      (∀ e ∈ p.errors, ∃ q : Position, q.Begins "<?php ) 1;\n$a = " ∧ e.ComplainsAt q) ∧
      ∀ n ∈ p.tree, n.isError = true → ∃! i : Nat, ∃ e : Node, p.errors[i]? = some e ∧
        e.id = n.id ∧ e.production = n.production ∧ e.span = n.span := by
  have hrun : ((parse "<?php ) 1;\n$a = " none .tolerant).toOption.any fun p =>
      decide ((p.tree.filter Node.isError).map (·.id) = [0, 6])) = true := by
    rw [parse_eq, statementsFrom_eq]
    decide +kernel
  obtain ⟨p, hp, hany⟩ := parse_of_any hrun
  exact ⟨p, hp, of_decide_eq_true hany, errors_listed hp⟩

end PhpSyntax
