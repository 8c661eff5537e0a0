import PhpSyntax.Parser
import PhpSyntax.Proofs.Account.Statement
import PhpSyntax.Proofs.Trace.Program

namespace PhpSyntax

variable {x : Text}

namespace Rule

/-- A body notes what its rule promises. -/
theorem body_tells {c : Shape} (r : Rule c) {s : ParseState} (hr : r.Apt s) :
    Tells x r.owes r.body s (r.Yields x s) := by
  have hnode {r : Rule .node} {e : Notes} {p : Parser Node} (hk : r.isKeen = false)
      (hi : r.isInert = false) (h : Tells x e p s fun f n _ => f = 0 + n.notes) :
      Tells x e p s (r.Yields x s) := by
    refine h.mono fun f n t hf => ⟨by rw [hf, zero_add], fun h => ?_, fun h => ?_⟩
    · rw [hk] at h
      cases h
    · rw [hi] at h
      cases h
  have hkeen {r : Rule .node} {p : Parser Node} (hi : r.isInert = false)
      (h : Tells x 0 p s fun f n t => f = 0 + n.notes ∧ s.Eats x t) :
      Tells x 0 p s (r.Yields x s) := by
    refine h.mono fun f n t ⟨hf, heats⟩ => ⟨by rw [hf, zero_add], fun _ => heats, fun h => ?_⟩
    rw [hi] at h
    cases h
  have hlist {p : Parser (List Node)} (h : Tells x 0 p s fun f ns _ => f = 0 + notesOf ns) :
      Tells x 0 p s fun f ns _ => f = notesOf ns :=
    h.mono fun _ _ _ hf => by rw [hf, zero_add]
  have htop {p : Parser (List Node)}
      (h : Tells x 0 p s fun f ns _ => f = 0 + (notesOf ns + tailsOf ns)) :
      Tells x 0 p s fun f ns _ => f = notesOf ns + tailsOf ns :=
    h.mono fun _ _ _ hf => by rw [hf, zero_add]
  cases r with
  | separated mark item =>
    exact (Grammar.separated_tells hr).mono
      fun _ _ _ ⟨⟨hf, hne⟩, heats⟩ => ⟨by rw [hf]; exact zero_add _, hne, heats⟩
  | delimited close item => exact hlist (Grammar.delimited_tells hr)
  | statements stop =>
    exact Grammar.statements_tells.mono fun _ _ _ ⟨hf, hns⟩ => ⟨by rw [hf]; exact zero_add _, hns⟩
  | topStatements stop => exact htop Grammar.topStatements_tells
  | namespaceStatements => exact htop Grammar.namespaceStatements_tells
  | statement =>
    exact Grammar.statement_tells.mono
      fun _ _ _ ⟨⟨hf, hn⟩, heats⟩ => ⟨by rw [hf]; exact zero_add _, fun _ => heats, fun _ => hn⟩
  | ifStatement =>
    exact (Grammar.ifStatement_tells hr).mono
      fun _ _ _ ⟨hf, hn⟩ => ⟨by rw [hf]; exact zero_add _, nofun, fun _ => hn⟩
  | shortElseIf => exact hnode rfl rfl (Grammar.shortElseIf_tells hr)
  | cases close => exact hlist Grammar.cases_tells
  | handlers => exact hlist Grammar.handlers_tells
  | useItem kind mixed => exact hnode rfl rfl Grammar.useItem_tells
  | directive => exact hnode rfl rfl Grammar.directive_tells
  | staticVariable => exact hnode rfl rfl Grammar.staticVariable_tells
  | constant reserved => exact hnode rfl rfl Grammar.constant_tells
  | classFlags isAbstract isFinal => exact Grammar.classFlags_tells
  | members => exact hlist Grammar.members_tells
  | memberModifiers before => exact Grammar.memberModifiers_tells
  | property => exact hkeen rfl Grammar.property_tells
  | braceGroup depth =>
    exact (Grammar.braceGroup_tells hr).mono fun f _ _ ⟨g, hf, hskips⟩ => by
      rw [show f = g from hf.trans (zero_add g)]
      exact hskips
  | parameter => exact hnode rfl rfl Grammar.parameter_tells
  | lexicalVariable => exact hnode rfl rfl Grammar.lexicalVariable_tells
  | expression min => exact hkeen rfl Grammar.expressionFrom_tells
  | infixes min left => exact hnode rfl rfl (Grammar.infixes_tells (zero_add _).symm)
  | operand => exact hkeen rfl Grammar.operand_tells
  | «variable» readOnly => exact hkeen rfl Grammar.variableWithLookups_tells
  | simpleVariable => exact hkeen rfl Grammar.simpleVariable_tells
  | lookups base readOnly => exact hnode rfl rfl (Grammar.lookups_tells (zero_add _).symm)
  | argument => exact hnode rfl rfl Grammar.argument_tells
  | entries close isPattern => exact hlist (Grammar.entries_tells hr)
  | name => exact hnode rfl rfl Grammar.name_tells
  | segments => exact Grammar.segments_tells

/-- Rules note what they promise, however deep their calls may nest. -/
theorem informs (depth : Nat) : Informs x (run depth) := by
  induction depth with
  | zero => exact fun r s _ _ => .of_error
  | succ depth ih => exact fun r s hr hs => r.body_tells hr (run depth) ih hs

end Rule

/-- The statements of a text answer for what has been noted on the way to its end. -/
theorem statementsFrom_told {s : ParseState} (hs : s.stream.Of x) :
    Told x 0 s (fun f ns _ => f = notesOf ns + tailsOf ns) (statementsFrom s)
      (statementsFrom s.modern) := by
  rw [statementsFrom_eq, statementsFrom_eq]
  exact Rule.informs _ (.topStatements .empty) s trivial hs

/-! ## From the first token to the program -/

def Options.reads (o : Options) (source : String) : Text := ⟨source, !o.suppressErrors⟩

theorem Options.reads_strict (source : String) {o : Options} (h : o.suppressErrors = false) :
    (o.reads source).strict = true :=
  congrArg not h

namespace ParseState

variable (source : String) (fileName : Option String) (o : Options)

theorem first_of : (first source fileName o).stream.Of (o.reads source) where
  sound := Stream.first_sound source _
  filled := Stream.first_filled source _
  tokens := Stream.OnTokens.first source _
  source := rfl
  mode := (Bool.not_not _).symm

/-- With both versions switched on a text without arrow functions begins with the same
token. -/
theorem first_modern (h : (o.reads source).HasNoFn) :
    first source fileName o.modern = (first source fileName o).modern := by
  have hfirst (o : Options) : first source fileName o =
      { start source (fileName.getD defaultFileName) default with
        stream := (Stream.ofSource source o.effective).advance, openNodes := 1 } := rfl
  have hstream : (Stream.ofSource source o.effective.modern).advance =
      (Stream.ofSource source o.effective).advance.modern :=
    Stream.modern_advance_of (s := Stream.ofSource source o.effective) h
  rw [hfirst, hfirst, show o.modern.effective = o.effective.modern from rfl, hstream]
  rfl

variable {source fileName o} (s : ParseState) (root : Opened) (children : List Node)

theorem completed_notes : notesOf (s.completed root children).children = notesOf children := by
  rw [completed, Trivia.settle_children]
  exact notesOf_mapInfo (g := (s.sealed root).2.trivia.deliver) (fun _ => rfl) children

theorem completed_tails : tailsOf (s.completed root children).children = tailsOf children := by
  rw [completed, Trivia.settle_children]
  exact Node.tailsOf_map children

end ParseState

def Program.notes (p : Program) : Notes := notesOf p.children + tailsOf p.children

open ParseState in
/-- What the statements of a text answer for, once they are completed to a program. -/
theorem completed_passes {source : String} {fileName : Option String} {o : Options}
    {children : List Node} {s : ParseState}
    (h : statementsFrom (first source fileName o) = .ok (children, s)) :
    Passes (o.reads source) (first source fileName o).stream
      (s.completed (root source fileName o) children).notes s.stream := by
  obtain ⟨f, hpass, hf⟩ := (statementsFrom_told (first_of source fileName o)).ok h
  rw [Program.notes, completed_notes, completed_tails, ← hf, zero_add]
  exact hpass

open ParseState in
/-- A program answers for what has been noted on the way through its text. -/
theorem parse_passes {source : String} {fileName : Option String} {o : Options} {p : Program}
    (h : parse source fileName o = .ok p) :
    ∃ (s : ParseState) (children : List Node),
      p = s.completed (root source fileName o) children ∧ s.kind = .eof ∧
      Passes (o.reads source) (first source fileName o).stream p.notes s.stream := by
  obtain ⟨children, s, hs, rfl⟩ := parse_statements h
  exact ⟨s, children, rfl, (((first_meets source fileName o).ok hs).1).2.2, completed_passes hs⟩

end PhpSyntax
