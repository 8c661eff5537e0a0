import PhpSyntax.Proofs.Progress.Unbounded
import PhpSyntax.Proofs.Trace.Program

namespace PhpSyntax

/-! ## Rounds of a loop -/

def Rule.isLoop : Rule .nodes → Bool
  | .topStatements _ | .statements _ | .namespaceStatements | .members | .cases _ => true
  | _ => false

namespace Grammar

variable {es : List ParseState} {n : Node} {ns : List Node} {s t : ParseState}

theorem statementList_asks {ends : Parser Bool} {statement : Parser Node} {rest : Rule .nodes}
    (h : (statementList ends statement rest s).Runs es (.ok (n :: ns, t))) :
    ∃ u, (statementList ends statement rest s).Asks ⟨rest, u⟩ := by
  obtain ⟨fs, gs, stop, s₁, hends, h⟩ := Step.Runs.bind_ok (t := ends s) h
  have hgo : (s.stream.current.isEof || stop) = false := by
    by_contra hstop
    rw [Bool.not_eq_false] at hstop
    simp only [hstop, if_true] at h
    cases h
  simp only [hgo, Bool.false_eq_true, if_false] at h
  obtain ⟨fs₁, gs₁, m, s₂, hstatement, h⟩ := Step.Runs.bind_ok (t := statement s₁) h
  obtain ⟨fs₂, gs₂, _, s₃, hforce, _⟩ :=
    Step.Runs.bind_ok (t := Parser.forceProgress s₁.stream.current.start s₂) h
  refine ⟨s₃, .bind (t := ends s) hends ?_⟩
  simp only [hgo, Bool.false_eq_true, if_false]
  exact .bind (t := statement s₁) hstatement (.bind hforce .here)

theorem cases_asks {close : TokenKind} (h : (cases close s).Runs es (.ok (n :: ns, t))) :
    ∃ u, (cases close s).Asks ⟨.cases close, u⟩ := by
  have hbody : cases close s =
      if (s.stream.current.isEof || decide (s.stream.current.kind = close)) = true then
        .done [] s
      else
        (caseClause close s).bind fun m u => .call (.cases close) u fun ms => .done (m :: ms) := by
    split
    · next hstop => exact congrFun (if_pos hstop) s
    · next hgo => exact congrFun (if_neg hgo) s
  rw [hbody] at h ⊢
  split at h
  · cases h
  · next hgo =>
    obtain ⟨fs, gs, m, u, hclause, _⟩ := h.bind_ok
    rw [if_neg hgo]
    exact ⟨u, .bind hclause .here⟩

end Grammar

/-- Behind each item a loop asks for itself. -/
theorem Rule.round_asks {r : Rule .nodes} {es : List ParseState} {n : Node} {ns : List Node}
    {s t : ParseState} (hr : r.isLoop = true) (h : (r.body s).Runs es (.ok (n :: ns, t))) :
    ∃ u, Call.Asks ⟨r, s⟩ ⟨r, u⟩ := by
  cases r with
  | topStatements | statements | namespaceStatements | members =>
    exact Grammar.statementList_asks h
  | cases => exact Grammar.cases_asks h
  | _ => cases hr

/-! ## From the first token on -/

namespace ParseState

def reading (s : ParseState) : Step (List Node) :=
  .advance s fun s => .call (.topStatements .empty) s .done

variable (source : String) (fileName : Option String) (o : Options)

def opened : ParseState := (start source (fileName.getD defaultFileName) o.effective).openNode.2

def outermost : Call := ⟨.topStatements .empty, first source fileName o⟩

theorem outermost_due : (outermost source fileName o).Due where
  ready := trivial
  sound := Stream.first_sound source o.effective
  starts := fun _ hi => absurd hi List.not_mem_nil

theorem outermost_cost :
    (outermost source fileName o).cost < (first source fileName o).callDepth + 1 := by
  have hrest := (first source fileName o).stream.rest_le
  show 32 * (first source fileName o).stream.rest + 6 < 32 * _ + 1
  omega

theorem reaches_iff {y : Call} :
    (reading (opened source fileName o)).Reaches y ↔
      Relation.ReflTransGen Call.Asks (outermost source fileName o) y := by
  constructor
  · rintro ⟨x, hx, hxy⟩
    cases hx with
    | advance hx =>
      cases hx with
      | here => exact hxy
      | later _ hx => cases hx
  · exact fun h => ⟨_, .advance .here, h⟩

theorem reaches_due {y : Call} (h : (reading (opened source fileName o)).Reaches y) :
    y.Due ∧ y.state.stream.Filled := by
  have hdue := outermost_due source fileName o
  have hfilled : (outermost source fileName o).state.stream.Filled :=
    Stream.first_filled source o.effective
  rcases Relation.reflTransGen_iff_eq_or_transGen.mp ((reaches_iff _ _ _).mp h) with rfl | hnested
  · exact ⟨hdue, hfilled⟩
  · obtain ⟨hleads, hy, _⟩ := Call.nested_spec hnested hdue
    exact ⟨hy, hleads.filled hdue.sound hfilled⟩

end ParseState

open ParseState in
theorem statementsFrom_runs (source : String) (fileName : Option String) (o : Options) :
    ∃ es, (outermost source fileName o).body.Runs es (statementsFrom (first source fileName o)) ∧
      Tally (first source fileName o).stream es (statementsFrom (first source fileName o)) := by
  rw [statementsFrom_eq]
  exact Rule.runs (outermost_due source fileName o) (outermost_cost source fileName o)

open ParseState in
/-- A parse ends, in the one run that it has.  No rule consumes a token at the end of the
input, so there are no more advances than tokens, but for the one to the first token.  A
round of a loop ends further in the text than it began, and so does any chain of nested
calls to a rule of no lower rank, such as the same one: it has consumed something. -/
theorem parse_progresses (source : String) (fileName : Option String) (o : Options) :
    ∃ es out,
      (reading (opened source fileName o)).Runs (opened source fileName o :: es) out ∧
      (∀ fs out', (reading (opened source fileName o)).Runs fs out' →
        fs = opened source fileName o :: es ∧ out' = out) ∧
      parse source fileName o =
        out.map (fun last => last.2.completed (root source fileName o) last.1) ∧
      (∀ e ∈ es, e.kind ≠ .eof) ∧
      (opened source fileName o :: es).length ≤ (grammarTokens o source).length + 1 ∧
      (∀ (r : Rule .nodes) (s : ParseState), r.isLoop = true →
        (reading (opened source fileName o)).Reaches ⟨r, s⟩ →
        ∀ fs n ns t, (r.body s).Runs fs (.ok (n :: ns, t)) →
          ∃ u, Call.Asks ⟨r, s⟩ ⟨r, u⟩ ∧ s.offset < u.offset) ∧
      ∀ x y : Call, (reading (opened source fileName o)).Reaches x →
        Relation.TransGen Call.Asks x y → x.rule.rank ≤ y.rule.rank →
        y.state.stream.rest < x.state.stream.rest ∧ x.state.offset < y.state.offset := by
  obtain ⟨es, hruns, htally⟩ := statementsFrom_runs source fileName o
  have hforward (x y : Call) (hx : (reading (opened source fileName o)).Reaches x)
      (h : Relation.TransGen Call.Asks x y) (hrank : x.rule.rank ≤ y.rule.rank) :
      y.state.stream.rest < x.state.stream.rest ∧ x.state.offset < y.state.offset := by
    obtain ⟨hx, hfilled⟩ := reaches_due source fileName o hx
    exact Call.nested_forward h hx hfilled hrank
  have hreading : (reading (opened source fileName o)).Runs (opened source fileName o :: es)
      (statementsFrom (first source fileName o)) := by
    refine .advance ?_
    cases hend : statementsFrom (first source fileName o) with
    | error f =>
      rw [hend] at hruns
      exact .fail hruns
    | ok last =>
      rw [hend] at hruns
      rw [← List.append_nil es]
      exact .call hruns .done
  refine ⟨es, _, hreading, fun fs out' h => h.det hreading, ?_, htally.ne_eof, ?_, ?_, hforward⟩
  · rw [parse_eq]
    cases statementsFrom (first source fileName o) <;> rfl
  · have hlength := htally.length_le
    have hrest : (first source fileName o).stream.rest = (grammarTokens o source).length :=
      Stream.first_rest source o
    rw [List.length_cons]
    omega
  · intro r s hloop hreaches fs n ns t hround
    obtain ⟨u, hu⟩ := Rule.round_asks hloop hround
    exact ⟨u, hu, (hforward _ _ hreaches (.single hu) (Nat.le_refl _)).2⟩

end PhpSyntax
