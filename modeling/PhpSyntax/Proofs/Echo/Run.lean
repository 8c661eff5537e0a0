import PhpSyntax.Proofs.Echo.Statement

namespace PhpSyntax

variable {E : Echo} [E.Lawful]

open Grammar in
/-- What every rule does is followed by the same rule behind the images of nodes. -/
theorem Rule.body_echoes {c : Shape} {r r' : Rule c} {w : E.Index} {s t : ParseState}
    (hready : r.Ready s) (hr : ∀ i, w ≤ i → r.rebase (E.image i) = r') (hs : E.States w s t) :
    (r.body s).Echoes E (r.Echoed E) w (r'.body t) := by
  have hw := hr w le_rfl
  have follow {p : Parser c.Value} (hp : Echoes E (fun _ => True) (r.Echoed E) p p) :
      (p s).Echoes E (r.Echoed E) w (p t) :=
    hp w s t (fun _ _ => trivial) hs
  cases r with
  | infixes min left =>
    subst hw
    have hleft (i : E.Index) (hi : w ≤ i) : E.image i left = E.image w left := by
      have hsame := hr i hi
      simp only [rebase, infixes.injEq, true_and] at hsame
      exact hsame
    exact infixes_echoes min (fun _ h => h) w s t hleft hs
  | lookups base readOnly =>
    subst hw
    have hbase (i : E.Index) (hi : w ≤ i) : E.image i base = E.image w base := by
      have hsame := hr i hi
      simp only [rebase, lookups.injEq, and_true] at hsame
      exact hsame
    exact lookups_echoes (fun _ h => h) readOnly w s t hbase hs
  | separated mark item =>
    subst hw
    exact follow (separated_echoes hready.2)
  | delimited close item =>
    subst hw
    exact follow (delimited_echoes hready.2)
  | statements stop => subst hw; exact follow (statements_echoes stop)
  | topStatements stop => subst hw; exact follow (topStatements_echoes stop)
  | namespaceStatements => subst hw; exact follow namespaceStatements_echoes
  | statement => subst hw; exact follow statement_echoes
  | ifStatement => subst hw; exact follow ifStatement_echoes
  | shortElseIf => subst hw; exact follow shortElseIf_echoes
  | cases close => subst hw; exact follow (cases_echoes close)
  | handlers => subst hw; exact follow handlers_echoes
  | useItem kind mixed => subst hw; exact follow (useItem_echoes kind mixed)
  | directive => subst hw; exact follow directive_echoes
  | staticVariable => subst hw; exact follow staticVariable_echoes
  | constant reserved => subst hw; exact follow (constant_echoes reserved)
  | classFlags isAbstract isFinal => subst hw; exact follow (classFlags_echoes isAbstract isFinal)
  | members => subst hw; exact follow members_echoes
  | memberModifiers before => subst hw; exact follow (memberModifiers_echoes before)
  | property => subst hw; exact follow property_echoes
  | braceGroup depth => subst hw; exact follow (braceGroup_echoes depth)
  | parameter => subst hw; exact follow parameter_echoes
  | lexicalVariable => subst hw; exact follow lexicalVariable_echoes
  | expression min => subst hw; exact follow (expressionFrom_echoes min)
  | operand => subst hw; exact follow operand_echoes
  | «variable» readOnly => subst hw; exact follow (variableWithLookups_echoes readOnly)
  | simpleVariable => subst hw; exact follow simpleVariable_echoes
  | argument => subst hw; exact follow argument_echoes
  | entries close isPattern => subst hw; exact follow (entries_echoes close isPattern)
  | name => subst hw; exact follow name_echoes
  | segments => subst hw; exact follow segments_echoes

/-- A run to any depth that its cost does not exceed is echoed. -/
theorem Rule.run_echoes (depth : Nat) {c : Shape} {r r' : Rule c} {w : E.Index} {s t : ParseState}
    (hdue : r.Due s) (hcost : r.cost s < depth) (hr : ∀ i, w ≤ i → r.rebase (E.image i) = r')
    (hs : E.States w s t) :
    Outcome.Echoes E (r.Echoed E) w (Rule.run depth c r s) (Rule.run depth c r' t) := by
  induction depth generalizing c w s t with
  | zero => exact absurd hcost (Nat.not_lt_zero _)
  | succ depth ih =>
    have hpaced := hdue.paced (Nat.le_of_lt_succ hcost)
    refine (body_echoes hdue.ready hr hs).eval hpaced hdue.sound fun c r r' s t z hdue hcost => ?_
    exact ih hdue hcost

/-- The statements of two texts, where the first states are related. -/
theorem statementsFrom_echoes {source source' : String} {fileName fileName' : Option String}
    {o o' : Options} {w : E.Index}
    (h : E.States w (.first source fileName o) (.first source' fileName' o')) :
    Outcome.Echoes E E.All w (statementsFrom (.first source fileName o))
      (statementsFrom (.first source' fileName' o')) := by
  -- The bounds on the depth of calls differ, but nothing depends on them.
  have hrun (source : String) (fileName : Option String) (o : Options) (b : Nat)
      (hb : (ParseState.first source fileName o).callDepth + 1 ≤ b) :
      (ParseState.outermost source fileName o).cost < b ∧
      statementsFrom (.first source fileName o) =
        Rule.run b .nodes (.topStatements .empty) (.first source fileName o) := by
    have hcost := ParseState.outermost_cost source fileName o
    refine ⟨Nat.lt_of_lt_of_le hcost hb, ?_⟩
    rw [statementsFrom_eq]
    exact Rule.run_congr (ParseState.outermost_due source fileName o) hcost
      (Nat.lt_of_lt_of_le hcost hb)
  let depth := max ((ParseState.first source fileName o).callDepth + 1)
    ((ParseState.first source' fileName' o').callDepth + 1)
  obtain ⟨hcost, heq⟩ := hrun source fileName o depth (Nat.le_max_left _ _)
  obtain ⟨_, heq'⟩ := hrun source' fileName' o' depth (Nat.le_max_right _ _)
  rw [heq, heq']
  exact Rule.run_echoes depth (ParseState.outermost_due source fileName o) hcost
    (fun _ _ => rfl) h

end PhpSyntax
