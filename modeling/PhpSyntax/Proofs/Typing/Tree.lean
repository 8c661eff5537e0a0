import PhpSyntax.Proofs.Mode.Agreement
import PhpSyntax.Proofs.Precedence.Grouped
import PhpSyntax.Proofs.Typing.Statement

namespace PhpSyntax

open Grammar in
/-- Every rule makes what it promises. -/
theorem Rule.body_makes {d : Shape} {r : Rule d} {c : Scope} {s : ParseState} (hr : r.Takes c s) :
    PhpSyntax.Makes c r.body s fun v t => r.Makes c s v t := by
  cases r with
  | separated mark item => exact separated_makes hr
  | delimited close item => exact delimited_makes hr
  | statements stop => exact statements_makes
  | topStatements stop => exact topStatements_makes
  | namespaceStatements => exact namespaceStatements_makes
  | statement => exact statement_makes
  | ifStatement => exact ifStatement_makes hr
  | shortElseIf => exact shortElseIf_makes hr
  | cases close => exact cases_makes
  | handlers => exact handlers_makes
  | useItem kind mixed => exact useItem_makes
  | directive => exact directive_makes
  | staticVariable => exact staticVariable_makes
  | constant reserved => exact constant_makes
  | classFlags isAbstract isFinal => exact classFlags_makes hr
  | members => exact members_makes
  | memberModifiers before => exact memberModifiers_makes
  | property => exact property_makes
  | braceGroup depth => exact braceGroup_makes
  | parameter => exact parameter_makes
  | lexicalVariable => exact lexicalVariable_makes
  | expression min => exact expressionFrom_makes
  | infixes min left => exact infixes_makes hr
  | operand => exact operand_makes
  | «variable» readOnly => exact variableWithLookups_makes
  | simpleVariable => exact simpleVariable_makes
  | lookups base readOnly => exact lookups_makes hr
  | argument => exact argument_makes
  | entries close isPattern => exact entries_makes
  | name => exact name_makes
  | segments => exact segments_makes

theorem Rule.run_delivers (depth : Nat) {d : Shape} {r : Rule d} {s t : ParseState} {v : d.Value}
    (h : Rule.run depth d r s = .ok (v, t)) : r.Delivers s v t := by
  induction depth generalizing d s t with
  | zero => cases h
  | succ depth ih =>
    refine ⟨Step.runs_of_eval (fun hv => (ih hv).yields) h, fun c hs hr => ?_⟩
    exact (body_makes hr hs).eval ih h

/-! ## Programs -/

theorem Node.child_mem_walk {n m c : Node} (hm : m ∈ n.walk) (hc : c ∈ m.children) :
    c ∈ n.walk := by
  induction n using Node.induction with
  | step n ih =>
    rw [walk_eq, List.mem_cons, List.mem_flatMap] at hm ⊢
    rcases hm with rfl | ⟨k, hk, hm⟩
    · refine Or.inr ⟨c, hc, ?_⟩
      rw [walk_eq]
      exact List.mem_cons_self
    · exact Or.inr ⟨k, hk, ih k hk hm⟩

theorem Node.child_mem_walkFrom {ns : List Node} {m c : Node} (hm : m ∈ walkFrom ns)
    (hc : c ∈ m.children) : c ∈ walkFrom ns := by
  rw [walkFrom_eq] at hm ⊢
  obtain ⟨n, hn, hm⟩ := List.mem_flatMap.mp hm
  exact List.mem_flatMap.mpr ⟨n, hn, child_mem_walk hm hc⟩

/-- A node of a tree is at the top or below another one. -/
theorem Node.mem_walk_cases {n m : Node} (hm : m ∈ n.walk) :
    m = n ∨ ∃ k ∈ n.walk, m ∈ k.children := by
  induction n using Node.induction with
  | step n ih =>
    rw [walk_eq, List.mem_cons, List.mem_flatMap] at hm
    rcases hm with rfl | ⟨c, hc, hm⟩
    · exact Or.inl rfl
    · refine Or.inr ?_
      rw [walk_eq]
      rcases ih c hc hm with rfl | ⟨k, hk, hm⟩
      · exact ⟨n, List.mem_cons_self, hc⟩
      · exact ⟨k, List.mem_cons_of_mem _ (List.mem_flatMap.mpr ⟨c, hc, hk⟩), hm⟩

theorem Node.mem_walkFrom_cases {ns : List Node} {m : Node} (hm : m ∈ walkFrom ns) :
    m ∈ ns ∨ ∃ k ∈ walkFrom ns, m ∈ k.children := by
  rw [walkFrom_eq] at hm ⊢
  obtain ⟨n, hn, hm⟩ := List.mem_flatMap.mp hm
  rcases mem_walk_cases hm with rfl | ⟨k, hk, hm⟩
  · exact Or.inl hn
  · exact Or.inr ⟨k, List.mem_flatMap.mpr ⟨n, hn, hk⟩, hm⟩

def Scope.outermost (source : String) (o : Options) : Scope where
  source := source
  options := o.effective
  strict := !o.suppressErrors
  depth := 0
  stop := (Position.origin.advance source).offset

theorem Scope.outermost_strict (source : String) {o : Options} (h : o.suppressErrors = false) :
    (outermost source o).strict = true :=
  congrArg not h

variable {source : String} {fileName : Option String} {o : Options} {p : Program}

open ParseState in
theorem first_within (source : String) (fileName : Option String) (o : Options) :
    (first source fileName o).Within (.outermost source o) where
  options := rfl
  mode := (Bool.not_not _).symm
  depth := rfl
  stop := rfl
  sound := Stream.first_sound source _
  filled := Stream.first_filled source _
  tokens := fun _ => Stream.OnTokens.first source _

open ParseState in
theorem statementsFrom_fills {children : List Node} {s : ParseState}
    (h : statementsFrom (first source fileName o) = .ok (children, s)) :
    ∀ n ∈ children, n.Fills (.outermost source o) .any := by
  rw [statementsFrom_eq] at h
  exact ((Rule.run_delivers _ h).makes _ (first_within source fileName o) trivial).2

open ParseState in
theorem statementsFrom_wellFormed {children : List Node} {s : ParseState}
    (h : statementsFrom (first source fileName o) = .ok (children, s)) :
    ∀ n ∈ Node.walkFrom children, n.production.Formed (.outermost source o) n.span := by
  intro n hn
  rw [Node.walkFrom_eq] at hn
  obtain ⟨m, hm, hn⟩ := List.mem_flatMap.mp hn
  exact (statementsFrom_fills h m hm).wellFormed n hn

open ParseState in
/-- A node of a program is a node that has been formed, with the comments that trail it. -/
theorem parse_formed (h : parse source fileName o = .ok p) {n : Node} (hn : n ∈ p.tree) :
    ∃ m g, n = Node.mapInfo g m ∧ m.production.Formed (.outermost source o) m.span := by
  obtain ⟨children, s, hs, rfl⟩ := parse_statements h
  rw [completed_tree] at hn
  obtain ⟨m, hm, rfl⟩ := List.mem_map.mp hn
  exact ⟨m, _, rfl, statementsFrom_wellFormed hs m hm⟩

theorem Production.makers_map {α β : Type} (f : α → β) (p : Production α) :
    (p.map f).makers = p.makers := by
  cases p <;> rfl

open ParseState in
/-- A node of a program is one that a rule has made, with the comments that trail the nodes
in it. -/
theorem parse_made (h : parse source fileName o = .ok p) {n : Node} (hn : n ∈ p.tree)
    (hm : n.production.makers ≠ []) :
    ∃ g : NodeInfo → NodeInfo, (∀ info, (g info).span = info.span) ∧
      ∃ m ∈ n.production.makers, ∃ k : Node, k.Yielded (.outermost source o) m.1 m.2 ∧
        n.production = k.production.map (Node.mapInfo g) ∧ n.span = k.span := by
  obtain ⟨children, s, hs, rfl⟩ := parse_statements h
  rw [completed_tree] at hn
  obtain ⟨n, hin, rfl⟩ := List.mem_map.mp hn
  rw [Node.mapInfo_eq, Production.makers_map] at hm
  obtain ⟨m, hm, k, hk, hproduction, hspan⟩ := (statementsFrom_wellFormed hs n hin).made hm
  refine ⟨(s.sealed (root source fileName o)).2.trivia.deliver, Trivia.span_deliver _, m, ?_, k, hk, ?_, ?_⟩
  · rw [Node.mapInfo_eq, Production.makers_map]
    exact hm
  · rw [Node.mapInfo_eq, hproduction]
  · rw [Node.span_mapInfo (Trivia.span_deliver _), hspan]

theorem accepts_of_parse (h : parse source fileName o = .ok p) :
    ∀ n ∈ p.tree, ∀ e ∈ n.production.places, e.1.accepts e.2 = true := by
  intro n hn e he
  obtain ⟨m, g, rfl, hm⟩ := parse_formed h hn
  rw [Node.mapInfo_eq, Production.places_map] at he
  obtain ⟨e', he', rfl⟩ := List.mem_map.mp he
  rw [Slot.accepts_mapInfo]
  exact (hm.places e' he').accepted

open ParseState in
/-- The use of traits is a member of a class, an interface or a trait. -/
theorem traitUse_housed (h : parse source fileName o = .ok p) {n : Node} (hn : n ∈ p.tree)
    (huse : n.production.isTraitUse = true) : ∃ m ∈ p.tree, n ∈ m.production.members := by
  obtain ⟨children, s, hs, rfl⟩ := parse_statements h
  rw [completed_tree] at hn ⊢
  obtain ⟨n, hin, rfl⟩ := List.mem_map.mp hn
  rw [Node.production_mapInfo, Production.isTraitUse_map] at huse
  rcases Node.mem_walkFrom_cases hin with htop | ⟨m, hm, hbelow⟩
  · cases (statementsFrom_fills hs n htop).suits.housed huse
  · obtain ⟨k, hk⟩ := Production.exists_mem_places hbelow
    obtain rfl : k = .member := ((statementsFrom_wellFormed hs m hm).places _ hk).housed huse
    refine ⟨_, List.mem_map_of_mem hm, ?_⟩
    rw [Node.production_mapInfo, Production.members_map]
    exact List.mem_map_of_mem (Production.mem_members_of_mem_places hk)

theorem Node.isNamespace_mapInfo (g : NodeInfo → NodeInfo) (n : Node) :
    (mapInfo g n).production.isNamespace = n.production.isNamespace := by
  rw [mapInfo_eq]
  cases n.production <;> rfl

/-- What stands in a place of a program has the production that the place is for, or is an
error.  In strict mode it is no error, no namespace stands inside another one, and no
class is both abstract and final. -/
theorem parse_typed (h : parse source fileName o = .ok p) :
    (∀ n ∈ p.tree, ∀ e ∈ n.production.places,
      e.2.isError = true ∨ e.1.admits e.2.production = true) ∧
    (o.suppressErrors = false →
      (∀ n ∈ p.tree, ∀ e ∈ n.production.places,
        e.2.isError = false ∧ e.1.admits e.2.production = true) ∧
      (∀ n ∈ p.tree, n.production.isNamespace = true →
        ∀ m ∈ Node.walkFrom n.children, m.production.isNamespace = false) ∧
      ∀ n ∈ p.tree, n.production.isContradictory = false) := by
  have haccepts := accepts_of_parse h
  refine ⟨fun n hn e he => ?_, fun ho => ⟨fun n hn e he => ?_, fun n hn => ?_, fun n hn => ?_⟩⟩
  · have hone := haccepts n hn e he
    rwa [Slot.accepts, Bool.or_eq_true] at hone
  · have hchild : e.2 ∈ p.tree :=
      Node.child_mem_walkFrom hn (Production.mem_children_of_mem_places he)
    have herror := isError_of_strict ho h e.2 hchild
    have hone := haccepts n hn e he
    rw [Slot.accepts, herror, Bool.false_or] at hone
    exact ⟨herror, hone⟩
  · obtain ⟨m, g, rfl, hm⟩ := parse_formed h hn
    have hstrict := Scope.outermost_strict source ho
    intro hnamespace
    rw [Node.isNamespace_mapInfo] at hnamespace
    rw [Node.children_mapInfo, Node.walkFrom_map_mapInfo]
    intro k hk
    obtain ⟨k', hk', rfl⟩ := List.mem_map.mp hk
    rw [Node.isNamespace_mapInfo]
    exact (hm.outermost hstrict hnamespace).2 k' hk'
  · obtain ⟨m, g, rfl, hm⟩ := parse_formed h hn
    have hstrict := Scope.outermost_strict source ho
    have hsame : (Node.mapInfo g m).production.isContradictory = m.production.isContradictory := by
      rw [Node.mapInfo_eq]
      cases m.production <;> rfl
    rw [hsame]
    exact hm.flags hstrict

/-- A namespace with a choice, a class and a handler in it. -/
theorem parse_typed_namespace :
    ∃ p, parse "<?php namespace A; switch (1) {} final class B { use C; } try {} catch (D $e) {}"
        none {} = .ok p ∧
      (p.tree.map fun n => n.production.places.map (·.1)).filter (· ≠ []) =
        [[.name, .any, .any, .any], [.any, .cases], [.any, .member], [.name], [.block, .handler],
          [.name, .any, .block]] ∧
      (∀ n ∈ p.tree, ∀ e ∈ n.production.places,
        e.2.isError = true ∨ e.1.admits e.2.production = true) ∧
      (({} : Options).suppressErrors = false →
        (∀ n ∈ p.tree, ∀ e ∈ n.production.places,
          e.2.isError = false ∧ e.1.admits e.2.production = true) ∧
        (∀ n ∈ p.tree, n.production.isNamespace = true →
          ∀ m ∈ Node.walkFrom n.children, m.production.isNamespace = false) ∧
        ∀ n ∈ p.tree, n.production.isContradictory = false) := by
  have hrun : ((parse "<?php namespace A; switch (1) {} final class B { use C; } try {} catch (D $e) {}"
      none {}).toOption.any fun p => decide
        ((p.tree.map fun n => n.production.places.map (·.1)).filter (· ≠ []) =
          [[.name, .any, .any, .any], [.any, .cases], [.any, .member], [.name], [.block, .handler],
            [.name, .any, .block]])) = true := by
    rw [parse_eq, statementsFrom_eq]
    decide +kernel
  obtain ⟨p, hp, hplaces⟩ := parse_of_any hrun
  exact ⟨p, hp, of_decide_eq_true hplaces, parse_typed hp⟩

/-! ## Assignments -/

/-- What stands to the left of an operator does not end in an assignment: the assignment
has the operator in it, however loosely the operator binds. -/
theorem assignment_takes_operators (h : parse source fileName o = .ok p) :
    ∀ n ∈ p.tree, ∀ op left right, n.production.infix? = some (op, left, right) →
      ¬left.EndsInAssignment := by
  intro n hn op left right hop hleft
  obtain ⟨m, g, rfl, hm⟩ := parse_formed h hn
  rw [Node.mapInfo_eq, Production.infix?_map] at hop
  obtain ⟨⟨op', l, r⟩, hm', heq⟩ := Option.map_eq_some_iff.mp hop
  cases heq
  exact hm.operand op l r hm' hleft.of_mapInfo

/-- The assignment has the keyword operator in it, and `print` has not. -/
theorem assignment_takes_operators_and :
    ∃ p, parse "<?php $a = 1 and 2; print 1 and 2;" none {} = .ok p ∧
      p.tree.map (·.name) =
        ["expressionstatement", "assign", "variable", "bin", "number", "number",
          "expressionstatement", "bin", "print", "number", "number"] ∧
      ∀ n ∈ p.tree, ∀ op left right, n.production.infix? = some (op, left, right) →
        ¬left.EndsInAssignment := by
  have hrun : ((parse "<?php $a = 1 and 2; print 1 and 2;" none {}).toOption.any fun p => decide
      (p.tree.map (·.name) =
        ["expressionstatement", "assign", "variable", "bin", "number", "number",
          "expressionstatement", "bin", "print", "number", "number"])) = true := by
    rw [parse_eq, statementsFrom_eq]
    decide +kernel
  obtain ⟨p, hp, hnames⟩ := parse_of_any hrun
  exact ⟨p, hp, of_decide_eq_true hnames, assignment_takes_operators hp⟩

end PhpSyntax
