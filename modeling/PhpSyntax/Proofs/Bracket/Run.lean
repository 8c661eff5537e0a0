import PhpSyntax.Parse.Machine
import PhpSyntax.Proofs.Bracket.Statement
import PhpSyntax.Proofs.Span.Reading

namespace PhpSyntax

namespace Rule

open Grammar in
theorem body_balances {d : Shape} (r : Rule d) {s : ParseState} {awaited : List TokenKind}
    (hr : r.Suits s) (ha : r.Awaits awaited) :
    PhpSyntax.Balances r.body s awaited r.Owed r.IsStill r.Hush := by
  cases r with
  | separated => exact ha ▸ separated_balances hr
  | delimited => exact ha ▸ delimited_balances hr
  | entries => exact ha ▸ entries_balances hr
  | braceGroup => exact braceGroup_balances hr ha
  | statements => exact ha ▸ statements_balances
  | topStatements => exact ha ▸ topStatements_balances
  | namespaceStatements => exact ha ▸ namespaceStatements_balances
  | statement => exact ha ▸ statement_balances
  | ifStatement => exact ha ▸ ifStatement_balances hr
  | shortElseIf => exact ha ▸ shortElseIf_balances hr
  | cases => exact ha ▸ cases_balances
  | handlers => exact ha ▸ handlers_balances
  | useItem => exact ha ▸ useItem_balances
  | directive => exact ha ▸ directive_balances
  | staticVariable => exact ha ▸ staticVariable_balances
  | constant => exact ha ▸ constant_balances
  | classFlags => exact ha ▸ classFlags_balances
  | members => exact ha ▸ members_balances
  | memberModifiers => exact ha ▸ memberModifiers_balances
  | property => exact ha ▸ property_balances
  | parameter => exact ha ▸ parameter_balances
  | lexicalVariable => exact ha ▸ lexicalVariable_balances
  | expression => exact ha ▸ expressionFrom_balances
  | infixes => exact ha ▸ infixes_balances
  | operand => exact ha ▸ operand_balances
  | «variable» => exact ha ▸ variableWithLookups_balances
  | simpleVariable => exact ha ▸ simpleVariable_balances
  | lookups => exact ha ▸ lookups_balances
  | argument => exact ha ▸ argument_balances
  | name => exact ha ▸ name_balances
  | segments => exact ha ▸ segments_balances

end Rule

variable {α : Type}

/-- What a body runs to is where it ends. -/
theorem Step.Balances.of_runs {V : α → ParseState → Prop} {t : Step α} {es : List ParseState}
    {a : α} {s : ParseState} (h : t.Balances V) (ht : t.Runs es (.ok (a, s))) : V a s := by
  generalize ho : (Except.ok (a, s) : Outcome α) = o at ht
  induction ht generalizing s with
  | done =>
    cases ho
    exact h
  | stop => cases ho
  | advance _ ih => exact ih h ho
  | call _ _ ih ihnext =>
    refine ihnext (h _ _ fun hs hr awaited ha => ?_) ho
    exact ih (Rule.body_balances _ hr ha hs) rfl
  | fail => cases ho

theorem Balances.of_yields {p : Parser α} {s t : ParseState} {awaited : List TokenKind}
    {owed moved : Prop} {Q : α → Prop} {a : α} (h : Balances p s awaited owed moved Q)
    (hs : s.IsStrict) (hp : p.Yields s a t) :
    s.stream.Course awaited (Q a) moved t.stream ∧ (Q a → owed) := by
  obtain ⟨es, hes⟩ := hp
  exact (h hs).of_runs hes

/-! ## States that read a text -/

namespace ParseState.Reading

variable {source : String} {s t : ParseState}

theorem isStrict (h : s.Reading source) : s.IsStrict where
  mode := h.strict
  sound := h.sound
  filled := fun hk => by
    obtain ⟨t, ht, e⟩ := h.tokens.token hk
    rw [e, Token.forGrammar_start, Token.forGrammar_stop]
    exact Token.start_lt_stop ht

theorem leads (h : s.Reading source) (ht : s.stream.Leads t.stream) : t.Reading source :=
  ⟨(h.isStrict.leads ht).mode, (h.isStrict.leads ht).sound, h.tokens.leads ht⟩

end ParseState.Reading

/-- What a part moves is the stream. -/
theorem Balances.leads {source : String} {p : Parser α} {s t : ParseState}
    {awaited : List TokenKind} {owed moved : Prop} {Q : α → Prop} {a : α}
    (h : Balances p s awaited owed moved Q) (hs : s.Reading source) (hp : p.Yields s a t) :
    s.stream.Leads t.stream := (h.of_yields hs.isStrict hp).1.leads

end PhpSyntax
