import PhpSyntax.Proofs.Account.Run

namespace PhpSyntax

/-- Constructs that have been noted in a plain text are admitted. -/
theorem Passes.isOpen {x : Text} {s t : Stream} {e : Notes} {g : Gate} (h : Passes x s e t)
    (hx : x.IsPlain) (hg : .gate g ∈ e) : g.isOpen s.options = true := by
  induction h with
  | refl | mark => exact absurd hg (Multiset.notMem_zero _)
  | trans h _ ih ih' =>
    rcases Multiset.mem_add.mp hg with hg | hg
    · exact ih hg
    · rw [← h.options]
      exact ih' hg
  | gate hopen =>
    cases Multiset.mem_singleton.mp hg
    exact hopen hx
  | leaf | free | skip | quote | halt => cases Multiset.mem_singleton.mp hg

theorem gate_notMem_tailsOf {ns : List Node} {g : Gate} : .gate g ∉ tailsOf ns := by
  simp [mem_tailsOf]

/-- A node answers for the versions that its production belongs to. -/
theorem Node.gate_mem_own {n : Node} {g : Gate} : .gate g ∈ n.own ↔ g ∈ n.production.gates := by
  simp [own, mem_bare, Production.mem_extras, mem_tailsOf, -Production.extras, -Production.gates]

theorem gate_mem_notesOf {ns : List Node} {g : Gate} :
    .gate g ∈ notesOf ns ↔ ∃ n ∈ Node.walkFrom ns, g ∈ n.production.gates := by
  simp only [notesOf, Multiset.mem_bind, Multiset.mem_coe, Node.gate_mem_own]

open ParseState in
/-- A program of a plain text is the same with both versions switched on. -/
theorem parse_modern {source : String} {fileName : Option String} {o : Options} {p : Program}
    (hx : (o.reads source).IsPlain) (h : parse source fileName o = .ok p) :
    parse source fileName o.modern = .ok p := by
  obtain ⟨children, s, hs, rfl⟩ := parse_statements h
  have hmodern := (statementsFrom_told (first_of source fileName o)).lift hx hs
  rw [← first_modern source fileName o hx.2] at hmodern
  rw [parse_eq, hmodern]
  rfl

open ParseState in
/-- In strict mode a text without arrow functions makes a program just where it makes the
program with both versions switched on, and the program has no construct of a version that
is switched off. -/
theorem parse_versions {source : String} {fileName : Option String} {o : Options}
    (ho : o.suppressErrors = false) (hfn : ∀ t ∈ tokenize source, t.kind ≠ .kwFn) (p : Program) :
    parse source fileName o = .ok p ↔
      parse source fileName { o with php7 := true, php74 := true } = .ok p ∧
        ∀ n ∈ p.tree, ∀ g ∈ n.production.gates, g.isOpen o.effective = true := by
  have hx : (o.reads source).IsPlain := ⟨Options.reads_strict source ho, hfn⟩
  show _ ↔ parse source fileName o.modern = .ok p ∧ _
  constructor
  · intro h
    refine ⟨parse_modern hx h, fun n hn g hg => ?_⟩
    obtain ⟨s, children, _, _, hpass⟩ := parse_passes h
    have hgate : Note.gate g ∈ notesOf p.children := gate_mem_notesOf.mpr ⟨n, hn, hg⟩
    exact hpass.isOpen hx (Multiset.mem_add.mpr (Or.inl hgate))
  · rintro ⟨hmodern, hgates⟩
    cases hs : statementsFrom (first source fileName o) with
    | ok result =>
      obtain ⟨children, s⟩ := result
      have h : parse source fileName o = .ok (s.completed (root source fileName o) children) := by
        rw [parse_eq, hs]
      rw [← Except.ok.inj ((parse_modern hx h).symm.trans hmodern)]
      exact h
    | error fault =>
      -- What only the versions admit has been noted, and is in the tree.
      obtain ⟨children, s, hs', rfl⟩ := parse_statements hmodern
      rw [first_modern source fileName o hx.2] at hs'
      obtain ⟨f, _, hf, g, hg, hshut⟩ :=
        (statementsFrom_told (first_of source fileName o)).shut hx hs hs'
      have hgate : Note.gate g ∈ notesOf children := by
        rw [show f = _ from (zero_add f).symm.trans hf] at hg
        exact (Multiset.mem_add.mp hg).resolve_right gate_notMem_tailsOf
      rw [← completed_notes s (root source fileName o.modern) children] at hgate
      obtain ⟨n, hn, hgn⟩ := gate_mem_notesOf.mp hgate
      have hopen := hgates n hn g hgn
      rw [show g.isOpen o.effective = false from hshut] at hopen
      cases hopen

/-- A coalescing operator, with and without version 7. -/
theorem parse_versions_coalesce :
    ∃ p, parse "<?php $a ?? 1;" none {} = .ok p ∧
      (parse "<?php $a ?? 1;" none { php7 := false } = .ok p ↔
        parse "<?php $a ?? 1;" none {} = .ok p ∧
          ∀ n ∈ p.tree, ∀ g ∈ n.production.gates,
            g.isOpen (Options.effective { php7 := false }) = true) ∧
      parse "<?php $a ?? 1;" none { php7 := false } ≠ .ok p := by
  have htokens : (tokenize "<?php $a ?? 1;").all (fun t => t.kind ≠ .kwFn) = true := by
    decide +kernel
  have hfn : ∀ t ∈ tokenize "<?php $a ?? 1;", t.kind ≠ .kwFn := fun t ht =>
    of_decide_eq_true (List.all_eq_true.mp htokens t ht)
  have hrun : ((parse "<?php $a ?? 1;" none {}).toOption.any fun p =>
      p.tree.any fun n => decide (.php7 ∈ n.production.gates)) = true := by
    rw [parse_eq, statementsFrom_eq]
    decide +kernel
  obtain ⟨p, hp, hgated⟩ := parse_of_any hrun
  have hversions := @parse_versions _ none { php7 := false } rfl hfn p
  refine ⟨p, hp, hversions, fun h => ?_⟩
  obtain ⟨n, hn, hgate⟩ := List.any_eq_true.mp hgated
  exact absurd ((hversions.mp h).2 n hn _ (of_decide_eq_true hgate)) (by decide)

end PhpSyntax
