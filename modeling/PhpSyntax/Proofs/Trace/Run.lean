import PhpSyntax.Parser
import PhpSyntax.Proofs.Grammar.Operation
import PhpSyntax.Proofs.Grammar.Scope

namespace PhpSyntax

namespace Rule

/-- Items that stand in a list are of low rank. -/
theorem rank_of_isPlain {r : Rule .node} (h : r.isPlain = true) : r.rank ≤ 4 := by
  cases r with
  | statement => cases h
  | _ => simp only [rank]; omega

theorem body_sat {b l : Nat} {x : Bench × ParseState} {w : Bench} {s : ParseState} {c : Shape}
    (r : Rule c) (hr : r.Ready s) (h : Stage b r.rank l x (r.takes w) s) :
    Sat b r.body s fun v t => Stage b r.rank (r.floor l s) x (c.put v w) t ∧ r.Ends t := by
  have yields {p : Parser c.Value}
      (hp : Sat b p s fun v t => Stage b r.rank (r.floor l s) x (c.put v w) t) :
      Sat b p s fun v t => Stage b r.rank (r.floor l s) x (c.put v w) t ∧ True :=
    hp.mono fun _ _ h => ⟨h, trivial⟩
  cases r with
  | statements stop => exact Grammar.statements_sat h (by simp [rank])
  | topStatements stop => exact Grammar.topStatements_sat h (by simp [rank])
  | namespaceStatements => exact Grammar.namespaceStatements_sat h (by simp [rank])
  | members => exact Grammar.members_sat h (by simp [rank])
  | separated mark item =>
    exact yields (Grammar.separated_sat hr h (Nat.lt_succ_of_le (rank_of_isPlain hr.2)))
  | delimited close item =>
    exact yields (Grammar.delimited_sat hr h (Nat.lt_succ_of_le (rank_of_isPlain hr.2)))
  | statement => exact yields (Grammar.statement_sat h (by simp [rank]))
  | ifStatement => exact yields (Grammar.ifStatement_sat h hr)
  | shortElseIf => exact yields (Grammar.shortElseIf_sat h hr)
  | cases close => exact yields (Grammar.cases_sat h (by simp [rank]))
  | handlers => exact yields (Grammar.handlers_sat h)
  | useItem kind mixed => exact yields (Grammar.useItem_sat h (by simp [rank]))
  | directive => exact yields (Grammar.directive_sat h (by simp [rank]))
  | staticVariable => exact yields (Grammar.staticVariable_sat h (by simp [rank]))
  | constant reserved => exact yields (Grammar.constant_sat h (by simp [rank]))
  | classFlags isAbstract isFinal => exact yields (Grammar.classFlags_sat h)
  | memberModifiers before => exact yields (Grammar.memberModifiers_sat h)
  | property => exact yields (Grammar.property_sat h)
  | braceGroup depth => exact yields (Grammar.braceGroup_sat h)
  | parameter => exact yields (Grammar.parameter_sat h (by simp [rank]))
  | lexicalVariable => exact yields (Grammar.lexicalVariable_sat h (by simp [rank]))
  | expression min => exact yields (Grammar.expressionFrom_sat h (by simp [rank]))
  | infixes min left => exact yields (Grammar.infixes_sat hr h)
  | operand => exact yields (Grammar.operand_sat h (by simp [rank]))
  | «variable» readOnly => exact yields (Grammar.variableWithLookups_sat h (by simp [rank]))
  | simpleVariable => exact yields (Grammar.simpleVariable_sat h)
  | lookups base readOnly => exact yields (Grammar.lookups_sat h)
  | argument => exact yields (Grammar.argument_sat h (by simp [rank]))
  | entries close isPattern => exact yields (Grammar.entries_sat hr h (by simp [rank]))
  | name => exact yields (Grammar.name_sat h)
  | segments => exact yields (Grammar.segments_sat h)

/-- Calls nest less deep than what the tokens to be consumed and the rank pay for. -/
theorem run_answers (depth : Nat) : Answers depth (run depth) := by
  induction depth with
  | zero =>
    refine ⟨fun r s k l x w hk hr h => ?_, run_gives 0⟩
    have hpaid := h.paid
    omega
  | succ depth ih =>
    refine ⟨fun r s k l x w hk hr h => ?_, run_gives (depth + 1)⟩
    have hpaid := h.paid
    have hlimit := h.limit
    -- The body of a rule has a budget of its own, which the call must leave it.
    have hbody : Stage depth r.rank l (r.takes w, s) (r.takes w) s :=
      { h.here with paid := by omega, limit := by omega }
    refine (r.body_sat hr hbody _ ih).1.mono fun v t ⟨ht, hends⟩ => ?_
    exact ⟨h.refund ht, hends⟩

end Rule

/-! ## From the first token on -/

/-- The statements of a text are made by moves, up to the end of the text. -/
theorem statementsFrom_meets {s : ParseState} {w : Bench} (hs : s.stream.Sound)
    (hw : ∀ i ∈ w, i.start.offset ≤ s.offset) :
    Meets s (fun ns t => Moves (w, s) (stack ns w, t) ∧ t.stream.Sound ∧ t.kind = .eof)
      (statementsFrom s) (statementsFrom s.strict) := by
  have hrest := s.stream.rest_le
  have h : Stage (s.callDepth + 1) 7 0 (w, s) w s :=
    { moves := Relation.ReflTransGen.refl
      sound := hs
      paid := by simp only [ParseState.callDepth]; omega
      limit := by omega
      covers := fun _ => Nat.zero_le _
      starts := hw }
  rw [statementsFrom_eq, statementsFrom_eq]
  refine ((Rule.run_answers (s.callDepth + 1)).keeps (.topStatements .empty) s
    (by simp [Rule.rank]) trivial h).mono fun ns t ⟨ht, hends⟩ => ?_
  refine ⟨ht.moves, ht.sound, ?_⟩
  rcases hends with hend | hstop
  · exact hend
  · exact absurd (TokenSet.mem_iff.mpr hstop) (TokenSet.not_mem_empty _)

end PhpSyntax
