/-
Strict and tolerant mode agree.

What is a program in strict mode is the same program in tolerant mode.  The fault that
ends a strict parse is the first error of the tolerant one, unless a destructuring list is
the key of a loop, which ends both.
-/
import PhpSyntax.Proofs.Trace.Program

namespace PhpSyntax

/-- A program of a strict parse has no error in its tree. -/
theorem isError_of_strict {source : String} {fileName : Option String} {o : Options}
    {p : Program} (ho : o.suppressErrors = false) (h : parse source fileName o = .ok p) :
    ∀ n ∈ p.tree, n.isError = false := by
  obtain ⟨children, s, rfl, hmoves, _, _⟩ := parse_ok h
  have hstrict : s.tolerates = false := (ParseState.first_tolerates hmoves).trans ho
  have hstart : Faultless
      ([.opened (ParseState.root source fileName o)], ParseState.first source fileName o) :=
    fun _ => ⟨rfl, fun g hg => by cases hg⟩
  obtain ⟨_, hnodes⟩ := hmoves.faultless hstart hstrict
  intro n hn
  rw [ParseState.completed_tree] at hn
  obtain ⟨m, hm, rfl⟩ := List.mem_map.mp hn
  rw [Node.isError_mapInfo]
  exact hnodes _ (Bench.signature_mem_stack hm _)

theorem Cause.code_of_isFatal {c : Cause} (h : c.isFatal = false) : c.code ≠ "E1100" := by
  cases c with
  | listAsKey => cases h
  | _ => decide

/-- Whatever the text and the options are, both modes find the same program or the same
first error. -/
theorem parse_agrees (source : String) (fileName : Option String) (o : Options) :
    match parse source fileName { o with suppressErrors := false } with
    | .ok p =>
      parse source fileName { o with suppressErrors := true } = .ok p ∧
        p.errors = [] ∧ ∀ n ∈ p.tree, n.isError = false
    | .error e =>
      (e.cause.code = "E1100" →
        parse source fileName { o with suppressErrors := true } = .error e) ∧
      (e.cause.code ≠ "E1100" →
        match parse source fileName { o with suppressErrors := true } with
        | .ok p => FirstRecords e p.errors
        | .error f => f.cause.code = "E1100") := by
  have hagrees := (ParseState.first_meets source fileName
    { o with suppressErrors := true }).agrees rfl rfl
  have htolerant := parse_eq source fileName { o with suppressErrors := true }
  have hstrict := parse_eq source fileName { o with suppressErrors := false }
  have hfirst : ParseState.first source fileName { o with suppressErrors := false } =
      (ParseState.first source fileName { o with suppressErrors := true }).strict := rfl
  rw [hfirst] at hstrict
  cases hrun : statementsFrom
      (ParseState.first source fileName { o with suppressErrors := true }).strict with
  | ok result =>
    obtain ⟨children, s⟩ := result
    rw [hrun] at hagrees hstrict
    obtain ⟨t, ht, herrors, rfl⟩ := hagrees
    rw [ht] at htolerant
    have hclean := isError_of_strict rfl hstrict
    rw [hstrict]
    refine ⟨htolerant, ?_, hclean⟩
    rw [ParseState.completed_errors]
    exact congrArg Array.toList herrors
  | error e =>
    rw [hrun] at hagrees hstrict
    rw [hstrict]
    rcases hagrees with ⟨ht, hcause⟩ | ⟨hcause, hfirstError⟩
    · rw [ht] at htolerant
      exact ⟨fun _ => htolerant, fun hcode => absurd (congrArg Cause.code hcause) hcode⟩
    · refine ⟨fun hcode => absurd hcode (Cause.code_of_isFatal hcause), fun _ => ?_⟩
      rw [htolerant]
      generalize statementsFrom (ParseState.first source fileName
        { o with suppressErrors := true }) = outcome at hfirstError
      cases outcome with
      | ok result =>
        show FirstRecords e (ParseState.completed _ _ _).errors
        rw [ParseState.completed_errors]
        exact hfirstError
      | error f => exact congrArg Cause.code hfirstError

end PhpSyntax
