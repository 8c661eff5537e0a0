/-
Lists of statements that end at a fork.

A statement that dangles has no token of its own at its end.  Where none does, the statements
in front of a closing brace are the same in front of a keyword that ends a loop
(`statements_land`).  The induction is on the list, and for the last statement on the
statements that end where it ends.
-/
import PhpSyntax.Proofs.Fork.Statement

namespace PhpSyntax

/-- A statement at whose end stands a declare statement without a body. -/
inductive Node.Dangles : Node → Prop
  | own {n : Node} (h : n.production.isBodyless = true) : n.Dangles
  | last {n c : Node} (hc : c ∈ n.production.lasts) (h : c.Dangles) : n.Dangles

theorem Production.lasts_subset {α : Type} {p : Production α} {c : α} (h : c ∈ p.lasts) :
    c ∈ p.children := by
  cases p with
  | «if» test body alternate shortform =>
    cases shortform with
    | true => cases h
    | false =>
      cases alternate with
      | none => simp_all [lasts, children, fields, Field.children]
      | some n => simp_all [lasts, children, fields, Field.children]
  | «while» test body shortform | «for» init test increment body shortform
  | foreach source key value body shortform =>
    cases shortform with
    | true => cases h
    | false => simp_all [lasts, children, fields, Field.children]
  | _ => cases h

variable {F : Fork}

namespace Grammar

variable {s t u : ParseState} {n : Node} {ns : List Node}

/-! ## One statement -/

theorem statement_needs (hF : F.Shuts) : Needs F (Parser.call .statement) := by
  intro s u n hs hy _
  have hk : s.kind ∈ bodyEnds := by
    rw [hs.kind, hF.first]
    decide
  exact statement_bodyEnds hs.strict hk (Parser.yields_call.mp hy)

/-- Statements of which some are known to land. -/
theorem statement_closes_of {G : Node → Prop} (hF : F.Shuts)
    (h : ∀ c, G c → Lands F (· = c) F.image (Parser.call .statement) (Parser.call .statement)) :
    Closes F G F.image (Parser.call .statement) (Parser.call .statement) :=
  ⟨Follows.statement (F := F) |>.onward, statement_needs hF,
    fun _ _ _ c hs hy hrest hc => h c hc hs hy hrest rfl⟩

theorem over_of_not_dangles (h : ¬n.Dangles) : Over (· ∈ n.production.lasts) n where
  own := Bool.eq_false_iff.mpr fun hown => h (.own hown)
  lasts := fun _ hc => hc

/-- A statement that does not dangle ends with a token of its own, in both texts. -/
theorem statement_lands (hF : F.Shuts) (n : Node) (hn : ¬n.Dangles) :
    Lands F (· = n) F.image (Parser.call .statement) (Parser.call .statement) ∧
      Lands F (· = n) F.image (Parser.call .ifStatement) (Parser.call .ifStatement) := by
  induction n using Node.induction with
  | step n ih =>
    have hlasts (c : Node) (hc : c ∈ n.production.lasts) :=
      ih c (Production.lasts_subset hc) fun hdangles => hn (.last hc hdangles)
    have hstatement := statement_closes_of hF fun c hc => (hlasts c hc).1
    have hif : Lands F (· ∈ n.production.lasts) F.image (Parser.call .ifStatement)
        (Parser.call .ifStatement) :=
      fun _ _ _ c hs hy hrest hc => (hlasts c hc).2 hs hy hrest rfl
    have hover := over_of_not_dangles hn
    constructor
    · rintro s t u _ hs hy hrest rfl
      exact (Closes.call (r := .statement) (statement_closes hF hstatement hif)).lands hs hy hrest
        hover
    · rintro s t u _ hs hy hrest rfl
      exact (Closes.call (r := .ifStatement) (ifStatement_closes hF hstatement hif)).lands hs hy
        hrest hover

theorem innerStatement_lands (hF : F.Shuts) :
    Lands F (fun n => ¬n.Dangles) F.image innerStatement innerStatement := by
  intro s t u n hs hy hrest hn
  have hlasts (c : Node) (hc : c ∈ n.production.lasts) :=
    statement_lands hF c fun hdangles => hn (.last hc hdangles)
  have hif : Lands F (· ∈ n.production.lasts) F.image (Parser.call .ifStatement)
      (Parser.call .ifStatement) :=
    fun _ _ _ c hs hy hrest hc => (hlasts c hc).2 hs hy hrest rfl
  have hinner := innerStatement_closes hF (statement_closes_of hF fun c hc => (hlasts c hc).1) hif
  exact hinner.lands hs hy hrest (over_of_not_dangles hn)

theorem innerStatement_follows : Follows F F.image innerStatement innerStatement :=
  .of_echoes (fun _ hs => ⟨_, _, innerStatement_sat (Stage.start hs) (by decide)⟩)
    innerStatement_echoes

theorem innerStatement_bodyEnds (hs : s.tolerates = false) (hk : s.kind ∈ bodyEnds) :
    ¬innerStatement.Yields s n u := by
  intro h
  rw [innerStatement, Parser.peek, Parser.yields_read_bind, Parser.yields_kind_bind] at h
  have hcall : (Parser.call .statement).Yields s n u := by
    generalize s.kind = k at hk h
    revert k
    exact bodyEnds_cases id id id id
  exact statement_bodyEnds hs hk (Parser.yields_call.mp hcall)

/-! ## Lists of statements -/

theorem yields_statements {stop : TokenSet} :
    (statements stop).Yields s ns t ↔
      ((s.kind = .eof ∨ s.kind ∈ stop) ∧ ns = [] ∧ t = s) ∨
        (¬(s.kind = .eof ∨ s.kind ∈ stop) ∧ ∃ n ms u v, innerStatement.Yields s n u ∧
          (Parser.forceProgress s.stream.current.start).Yields u () v ∧
          (statements stop).Yields v ms t ∧ ns = n :: ms) := by
  have hlist (v : ParseState) (ms : List Node) :
      (Parser.call (.statements stop)).Yields v ms t ↔ (statements stop).Yields v ms t :=
    Parser.yields_call
  simp only [← hlist]
  exact Parser.yields_call.trans Parser.yields_statementList

/-- The statements in front of a closing brace and in front of the end of a loop.  The first
list stops at the fork because of the brace, the second because of the keyword. -/
theorem statements_settle (hF : F.Shuts) {G : List Node → Prop} :
    Settles F G (List.map F.image) (statements closeBrace)
      (statements (.ofList [F.second.kind])) := by
  intro s t u ns hs hy _ _
  rcases yields_statements.mp hy with ⟨_, rfl, rfl⟩ | ⟨hgo, _⟩
  · refine ⟨t, yields_statements.mpr (Or.inl ⟨Or.inr ?_, rfl, rfl⟩), hs⟩
    rw [hs.kind]
    exact TokenSet.mem_ofList.mpr (List.mem_singleton_self _)
  · refine absurd (Or.inr ?_) hgo
    rw [hs.stands.kind, hF.first]
    exact TokenSet.mem_ofList.mpr (List.mem_singleton_self _)

/-- Whether a statement has consumed anything is the same in both parses, in front of the fork
and at it. -/
theorem forceProgress_forked (hF : F.Shuts) {before : Position} {u u' v : ParseState}
    (h : u.Inside F u' ∨ u.AtFork F u') (hv : (Parser.forceProgress before).Yields u () v)
    (hrest : F.left ≤ v.stream.rest) :
    ∃ v', (Parser.forceProgress before).Yields u' () v' ∧ (v.Inside F v' ∨ v.AtFork F v') := by
  have hoffset : u'.offset = u.offset := by
    rcases h with hin | hat
    · exact congrArg (fun t : Token => t.start.offset) hin.forked.stream.current
    · show u'.stream.current.start.offset = u.stream.current.start.offset
      rw [hat.stream.first, hat.stream.second, hF.start]
  have hne : u.kind ≠ .eof ∧ u'.kind ≠ .eof := by
    rcases h with hin | hat
    · exact ⟨hin.ne_eof, hin.kind ▸ hin.ne_eof⟩
    · exact ⟨hat.stands.ne_eof, hat.kind ▸ F.second_seen.ne_eof⟩
  rcases Parser.yields_forceProgress.mp hv with ⟨_, hstuck, rfl⟩ | ⟨hmoved, rfl⟩
  · have hstuck' := Parser.yields_forceProgress.mpr (Or.inl ⟨hne.2, hoffset.trans hstuck, rfl⟩)
    rcases h with hin | hat
    · exact ⟨u'.advance, hstuck', hin.advance⟩
    · have hadvance : u.advance.stream.rest + 1 = u.stream.rest :=
        Stream.rest_advance hat.sound hne.1
      have hat := hat.stream.rest
      omega
  · refine ⟨u', Parser.yields_forceProgress.mpr (Or.inr ⟨fun hstuck => hmoved ?_, rfl⟩), h⟩
    exact ⟨hne.1, hoffset.symm.trans hstuck.2⟩

/-- Only the last statement ends at the fork, because the list ends there.  The others end in
front of it. -/
theorem innerStatement_near (hF : F.Shuts) {s' : ParseState} (hs : s.Inside F s')
    (hn : innerStatement.Yields s n u) (huv : u.stream.GoesOn v.stream)
    (hns : (statements closeBrace).Yields v ns t) (hrest : F.left ≤ v.stream.rest)
    (hlast : ∀ m ∈ (n :: ns).getLast?, ¬m.Dangles) :
    ∃ u', innerStatement.Yields s' (F.image n) u' ∧ (u.Inside F u' ∨ u.AtFork F u') := by
  have hu := (innerStatement_follows (F := F)).onward hs.strict hs.sound hn
  have hurest := huv.rest_le hu.sound
  rcases hs.goesOn hu (by omega) with hlt | hstands
  · obtain ⟨u', hu', hin⟩ := innerStatement_follows.inside hs hn hlt
    exact ⟨u', hu', Or.inl hin⟩
  · have hsame := hstands.goesOn huv (by omega)
    have hnil : ns = [] := by
      rcases yields_statements.mp hns with ⟨_, h, _⟩ | ⟨hgo, _⟩
      · exact h
      · refine absurd (Or.inr ?_) hgo
        rw [(hstands.of_stream hsame).kind, hF.first]
        exact TokenSet.mem_ofList.mpr (List.mem_singleton_self _)
    subst hnil
    obtain ⟨u', hu', hat⟩ := innerStatement_lands hF hs hn hstands.rest (hlast n rfl)
    exact ⟨u', hu', Or.inr hat⟩

theorem statements_land (hF : F.Shuts) :
    Lands F (fun ns => ∀ n ∈ ns.getLast?, ¬n.Dangles) (List.map F.image) (statements closeBrace)
      (statements (.ofList [F.second.kind])) := by
  intro s t w ns hs hy hrest hlast
  induction ns generalizing s t with
  | nil =>
    rcases yields_statements.mp hy with ⟨_, _, rfl⟩ | ⟨_, _, _, _, _, _, _, _, h⟩
    · exact absurd hrest (Nat.ne_of_gt hs.left_lt)
    · cases h
  | cons n ns ih =>
    rcases yields_statements.mp hy with ⟨_, h, _⟩ | ⟨_, n', ns', u, v, hn, hv, hns, h⟩
    · cases h
    obtain ⟨rfl, rfl⟩ := List.cons.inj h
    have hu := (innerStatement_follows (F := F)).onward hs.strict hs.sound hn
    have huv : u.stream.GoesOn v.stream := by
      rcases Parser.yields_forceProgress.mp hv with ⟨_, _, rfl⟩ | ⟨_, rfl⟩
      · exact .advance hu.sound
      · exact .refl hu.sound
    have hvw := (Follows.statements (F := F) closeBrace).onward
      ((hu.trans huv).strict hs.strict) huv.sound (Parser.yields_call.mpr hns)
    have hvrest := hvw.rest_le huv.sound
    obtain ⟨u', hu', hnear⟩ := innerStatement_near hF hs hn huv hns (by omega) hlast
    obtain ⟨v', hv', hnear⟩ := forceProgress_forked hF hnear hv (by omega)
    have hlist : ∃ w', (statements (.ofList [F.second.kind])).Yields v' (ns.map F.image) w' ∧
        w.AtFork F w' := by
      rcases hnear with hin | hat
      · refine ih hin hns fun m hm => hlast m ?_
        cases ns with
        | nil => cases hm
        | cons => exact hm
      · exact statements_settle (G := fun _ => True) hF hat hns hrest trivial
    obtain ⟨w', hw', hat⟩ := hlist
    refine ⟨w', yields_statements.mpr (Or.inr ⟨?_, F.image n, ns.map F.image, u', v', hu', ?_, hw',
      rfl⟩), hat⟩
    · rintro (hend | hstop)
      · exact hs.ne_eof (hs.kind.symm.trans hend)
      · have hk : s.kind ∈ bodyEnds := by
          rw [← hs.kind, List.mem_singleton.mp (TokenSet.mem_ofList.mp hstop)]
          exact List.mem_cons_of_mem _ hF.second
        exact innerStatement_bodyEnds hs.strict hk hn
    · rw [hs.forked.stream.current]
      exact hv'

end Grammar
end PhpSyntax
