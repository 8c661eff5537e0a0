/-
What the parts of a body yield.

`p.Yields s a t` says that the part `p` of a body, run from the state `s` with all that it
asks for, ends in the state `t` with the value `a`.  There is one equivalence for each way
of composing parts and for each action, so a run is taken apart, or put together, along the
text of the body.  A part yields one value at most, and what it satisfies within some
budget (`Sat`) holds of what it yields.
-/
import PhpSyntax.Proofs.Progress.Unbounded

namespace PhpSyntax

variable {α β : Type}

/-- Goes on behind what a body comes to. -/
theorem Step.Runs.bind {t : Step α} {f : α → ParseState → Step β} {es fs : List ParseState}
    {a : α} {s : ParseState} {o : Outcome β} (h : t.Runs es (.ok (a, s)))
    (hf : (f a s).Runs fs o) : ∃ gs, (t.bind f).Runs gs o := by
  induction t generalizing es with
  | done =>
    cases h
    exact ⟨fs, hf⟩
  | stop => cases h
  | advance u next ih =>
    cases h with
    | advance h =>
      obtain ⟨gs, hgs⟩ := ih _ h
      exact ⟨_, .advance hgs⟩
  | call r u next ih =>
    cases h with
    | call hr h =>
      obtain ⟨gs, hgs⟩ := ih _ _ h
      exact ⟨_, .call hr hgs⟩

/-- A body whose calls are answered as the rules would do it runs to what it comes to. -/
theorem Step.runs_of_eval {t : Step α}
    {answer : (c : Shape) → Rule c → ParseState → Outcome c.Value}
    (ha : ∀ {c : Shape} {r : Rule c} {s t : ParseState} {v : c.Value},
      answer c r s = .ok (v, t) → ∃ es, (r.body s).Runs es (.ok (v, t)))
    {a : α} {s : ParseState} (ht : t.eval answer = .ok (a, s)) : ∃ es, t.Runs es (.ok (a, s)) := by
  induction t with
  | done =>
    cases ht
    exact ⟨[], .done⟩
  | stop => cases ht
  | advance u next ih =>
    obtain ⟨es, hes⟩ := ih _ ht
    exact ⟨_, .advance hes⟩
  | @call c r u next ih =>
    simp only [Step.eval] at ht
    split at ht
    · next v w hv =>
      obtain ⟨es, hes⟩ := ha hv
      obtain ⟨fs, hfs⟩ := ih v w ht
      exact ⟨_, .call hes hfs⟩
    · cases ht

/-- What a rule comes to within some depth of calls it comes to without a bound. -/
theorem Rule.runs_of_run (depth : Nat) {c : Shape} {r : Rule c} {s t : ParseState} {v : c.Value}
    (h : Rule.run depth c r s = .ok (v, t)) : ∃ es, (r.body s).Runs es (.ok (v, t)) := by
  induction depth generalizing c s t with
  | zero => cases h
  | succ depth ih => exact Step.runs_of_eval ih h

namespace Parser

def Yields (p : Parser α) (s : ParseState) (a : α) (t : ParseState) : Prop :=
  ∃ es, (p s).Runs es (.ok (a, t))

variable {p : Parser α} {s t u : ParseState} {a a' : α}

theorem Yields.det (h : p.Yields s a t) (h' : p.Yields s a' u) : a = a' ∧ t = u := by
  obtain ⟨es, h⟩ := h
  obtain ⟨fs, h'⟩ := h'
  cases (h.det h').2
  exact ⟨rfl, rfl⟩

/-! ## Composition -/

theorem yields_pure {b : α} : (pure b : Parser α).Yields s a t ↔ a = b ∧ t = s := by
  constructor
  · rintro ⟨es, h⟩
    cases h
    exact ⟨rfl, rfl⟩
  · rintro ⟨rfl, rfl⟩
    exact ⟨[], .done⟩

theorem yields_bind {p : Parser β} {f : β → Parser α} :
    (p >>= f).Yields s a u ↔ ∃ b t, p.Yields s b t ∧ (f b).Yields t a u := by
  constructor
  · rintro ⟨es, h⟩
    obtain ⟨fs, gs, b, t, hp, hf⟩ := Step.Runs.bind_ok (t := p s) h
    exact ⟨b, t, ⟨fs, hp⟩, ⟨gs, hf⟩⟩
  · rintro ⟨b, t, ⟨fs, hp⟩, ⟨gs, hf⟩⟩
    exact hp.bind hf

/-! ## Actions -/

theorem yields_update {g : ParseState → α × ParseState} :
    (update g).Yields s a t ↔ g s = (a, t) := by
  constructor
  · rintro ⟨es, h⟩
    cases h
    rfl
  · rintro h
    refine ⟨[], ?_⟩
    show (Step.done (g s).1 (g s).2).Runs [] _
    rw [h]
    exact .done

theorem yields_advance {a : Unit} : advance.Yields s a t ↔ t = s.advance := by
  constructor
  · rintro ⟨es, h⟩
    cases h with
    | advance h =>
      cases h
      rfl
  · rintro rfl
    exact ⟨_, .advance .done⟩

theorem yields_call {c : Shape} {r : Rule c} {v : c.Value} :
    (call r).Yields s v t ↔ Yields r.body s v t := by
  constructor
  · rintro ⟨es, h⟩
    cases h with
    | call h hnext =>
      cases hnext
      exact ⟨_, h⟩
  · rintro ⟨es, h⟩
    exact ⟨_, .call h .done⟩

theorem yields_finish {o : Opened} {q : Production Node} {n : Node} :
    (finish o q).Yields s n t ↔ n = ⟨(s.finishNode o).1, q⟩ ∧ t = (s.finishNode o).2 := by
  refine yields_update.trans ⟨fun h => ?_, ?_⟩
  · cases h
    exact ⟨rfl, rfl⟩
  · rintro ⟨rfl, rfl⟩
    rfl

/-! ## Actions in front of the rest -/

theorem yields_read_bind {g : ParseState → β} {f : β → Parser α} :
    (read g >>= f).Yields s a t ↔ (f (g s)).Yields s a t := Iff.rfl

theorem yields_kind_bind {f : TokenKind → Parser α} :
    (kind >>= f).Yields s a t ↔ (f s.kind).Yields s a t := Iff.rfl

theorem yields_isAt_bind {k : TokenKind} {f : Bool → Parser α} :
    (isAt k >>= f).Yields s a t ↔ (f (decide (s.kind = k))).Yields s a t := Iff.rfl

theorem yields_advance_bind {f : Unit → Parser α} :
    (advance >>= f).Yields s a t ↔ (f ()).Yields s.advance a t := by
  refine yields_bind.trans ⟨?_, fun h => ⟨(), _, yields_advance.mpr rfl, h⟩⟩
  rintro ⟨_, u, hu, h⟩
  rwa [yields_advance.mp hu] at h

theorem yields_openNode_bind {f : Opened → Parser α} :
    (openNode >>= f).Yields s a t ↔ (f s.openNode.1).Yields s.openNode.2 a t := Iff.rfl

/-! ## Strict mode -/

theorem not_yields_raise (hs : s.tolerates = false) {cause : Cause} {message : String}
    {e : Expected} {n : Node} : ¬(raise cause message e).Yields s n t := by
  rintro ⟨es, h⟩
  have hstop : raise cause message e s = .stop (s.fault cause message) :=
    if_neg (Bool.eq_false_iff.mp hs)
  rw [hstop] at h
  cases h

theorem not_yields_missing (hs : s.tolerates = false) {e : Expected} {n : Node} :
    ¬(missing e).Yields s n t := not_yields_raise hs

/-- A token is eaten where it is there. -/
theorem yields_eat {k : TokenKind} {b : Bool} :
    (eat k).Yields s b t ↔
      (s.kind = k ∧ b = true ∧ t = s.advance) ∨ (s.kind ≠ k ∧ b = false ∧ t = s) := by
  rw [eat, yields_isAt_bind]
  by_cases hk : s.kind = k
  · rw [decide_eq_true hk, if_pos rfl, yields_advance_bind, yields_pure]
    simp [hk]
  · rw [decide_eq_false hk, if_neg Bool.false_ne_true, yields_pure]
    simp [hk]

/-- In strict mode a token that is expected is there. -/
theorem yields_expect (hs : s.tolerates = false) {k : TokenKind} {b : Bool} :
    (expect k).Yields s b t ↔ s.kind = k ∧ b = true ∧ t = s.advance := by
  rw [expect, yields_bind]
  constructor
  · rintro ⟨c, u, hc, h⟩
    rcases yields_eat.mp hc with ⟨hk, rfl, rfl⟩ | ⟨hk, rfl, rfl⟩
    · obtain ⟨rfl, rfl⟩ := yields_pure.mp h
      exact ⟨hk, rfl, rfl⟩
    · obtain ⟨_, _, hmissing, _⟩ := yields_bind.mp h
      exact absurd hmissing (not_yields_missing hs)
  · rintro ⟨hk, rfl, rfl⟩
    exact ⟨true, _, yields_eat.mpr (Or.inl ⟨hk, rfl, rfl⟩), yields_pure.mpr ⟨rfl, rfl⟩⟩

theorem yields_require (hs : s.tolerates = false) {k : TokenKind} :
    (require k).Yields s () t ↔ s.kind = k ∧ t = s.advance := by
  rw [require, yields_bind]
  constructor
  · rintro ⟨b, u, hb, h⟩
    obtain ⟨hk, rfl, rfl⟩ := (yields_expect hs).mp hb
    exact ⟨hk, (yields_pure.mp h).2⟩
  · rintro ⟨hk, rfl⟩
    exact ⟨true, _, (yields_expect hs).mpr ⟨hk, rfl, rfl⟩, yields_pure.mpr ⟨rfl, rfl⟩⟩

/-- In strict mode a statement ends with a semicolon, or in front of HTML or the end. -/
theorem yields_endStatement (hs : s.tolerates = false) {a : Unit} :
    endStatement.Yields s a t ↔
      (s.kind = .semicolon ∧ t = s.advance) ∨ ((s.kind = .inlineHtml ∨ s.kind = .eof) ∧ t = s) := by
  rw [endStatement, yields_kind_bind]
  split
  case h_1 hk => simp [hk, yields_advance]
  case h_2 hk | h_3 hk => simp [hk, yields_pure]
  case h_4 hsemicolon hhtml heof =>
    refine iff_of_false ?_ ?_
    · rintro ⟨es, h⟩
      obtain ⟨_, _, hmissing, _⟩ := yields_bind.mp ⟨es, h⟩
      exact not_yields_missing hs hmissing
    · rintro (⟨hk, _⟩ | ⟨hk | hk, _⟩)
      · exact hsemicolon hk
      · exact hhtml hk
      · exact heof hk

/-! ## Lists of statements -/

theorem yields_forceProgress {before : Position} :
    (forceProgress before).Yields s () t ↔
      (s.kind ≠ .eof ∧ s.offset = before.offset ∧ t = s.advance) ∨
        (¬(s.kind ≠ .eof ∧ s.offset = before.offset) ∧ t = s) := by
  rw [forceProgress, yields_read_bind]
  have hstuck : (!s.stream.current.isEof && decide (s.stream.current.start.offset = before.offset))
      = true ↔ s.kind ≠ .eof ∧ s.offset = before.offset := by
    rw [Bool.and_eq_true, decide_eq_true_iff, Token.isEof, Bool.not_eq_true',
      decide_eq_false_iff_not]
    exact Iff.rfl
  by_cases hc : s.kind ≠ .eof ∧ s.offset = before.offset
  · rw [if_pos (hstuck.mpr hc), yields_advance]
    exact ⟨fun h => Or.inl ⟨hc.1, hc.2, h⟩, fun h => h.elim (·.2.2) fun h => absurd hc h.1⟩
  · rw [if_neg (fun h => hc (hstuck.mp h)), yields_pure]
    exact ⟨fun h => Or.inr ⟨hc, h.2⟩, fun h => h.elim (fun h => absurd ⟨h.1, h.2.1⟩ hc) fun h => ⟨rfl, h.2⟩⟩

/-- A list of statements is empty where it has to stop, and otherwise a statement with a list
behind it. -/
theorem yields_statementList {ends : ParseState → Bool} {item : Parser Node} {rest : Rule .nodes}
    {ns : List Node} :
    (Grammar.statementList (read ends) item rest).Yields s ns t ↔
      ((s.kind = .eof ∨ ends s = true) ∧ ns = [] ∧ t = s) ∨
        (¬(s.kind = .eof ∨ ends s = true) ∧ ∃ n ms u v, item.Yields s n u ∧
          (forceProgress s.stream.current.start).Yields u () v ∧ (call rest).Yields v ms t ∧
          ns = n :: ms) := by
  rw [Grammar.statementList, atEnd, yields_read_bind, yields_read_bind]
  have hend : (s.stream.current.isEof || ends s) = true ↔ s.kind = .eof ∨ ends s = true := by
    rw [Bool.or_eq_true, Token.isEof, decide_eq_true_iff]
    exact Iff.rfl
  by_cases hc : s.kind = .eof ∨ ends s = true
  · rw [if_pos (hend.mpr hc), yields_pure]
    simp [hc]
  · rw [if_neg (fun h => hc (hend.mp h)), yields_read_bind]
    simp only [hc, false_and, not_false_eq_true, true_and, false_or]
    constructor
    · intro h
      obtain ⟨n, u, hn, h⟩ := yields_bind.mp h
      obtain ⟨_, v, hv, h⟩ := yields_bind.mp h
      obtain ⟨ms, w, hms, h⟩ := yields_bind.mp h
      obtain ⟨rfl, rfl⟩ := yields_pure.mp h
      exact ⟨n, ms, u, v, hn, hv, hms, rfl⟩
    · rintro ⟨n, ms, u, v, hn, hv, hms, rfl⟩
      refine yields_bind.mpr ⟨n, u, hn, yields_bind.mpr ⟨(), v, hv, ?_⟩⟩
      exact yields_bind.mpr ⟨ms, t, hms, yields_pure.mpr ⟨rfl, rfl⟩⟩

end Parser

/-! ## Entries -/

namespace Grammar
open PhpSyntax.Parser

variable {s t : ParseState} {ns : List Node} {close : TokenKind} {isPattern : Bool}

/-- Where the entries end. -/
theorem yields_entries_nil (hs : s.tolerates = false) (hk : s.kind = close) :
    (entries close isPattern).Yields s ns t ↔ ns = [] ∧ t = s.advance := by
  rw [entries, yields_isAt_bind, atEnd, yields_read_bind, decide_eq_true hk, Bool.true_or,
    if_pos rfl, yields_bind]
  constructor
  · rintro ⟨_, u, hu, h⟩
    obtain ⟨rfl, rfl⟩ := yields_pure.mp h
    exact ⟨rfl, ((yields_require hs).mp hu).2⟩
  · rintro ⟨rfl, rfl⟩
    exact ⟨(), _, (yields_require hs).mpr ⟨hk, rfl⟩, yields_pure.mpr ⟨rfl, rfl⟩⟩

/-- In strict mode entries do not end with the text. -/
theorem not_yields_entries (hs : s.tolerates = false) (hk : s.kind ≠ close)
    (heof : s.kind = .eof) : ¬(entries close isPattern).Yields s ns t := by
  intro h
  have hend : s.stream.current.isEof = true := decide_eq_true heof
  rw [entries, yields_isAt_bind, atEnd, yields_read_bind, hend, Bool.or_true, if_pos rfl] at h
  obtain ⟨_, _, hrequire, _⟩ := yields_bind.mp h
  exact hk ((yields_require hs).mp hrequire).1

theorem entries_go (hk : s.kind ≠ close) (heof : s.kind ≠ .eof) :
    (decide (s.kind = close) || s.stream.current.isEof) = false := by
  have hmore : s.stream.current.isEof = false := decide_eq_false heof
  rw [decide_eq_false hk, hmore]
  rfl

/-- Where a place is skipped. -/
theorem yields_entries_skip (hk : s.kind ≠ close) (hcomma : s.kind = .comma) :
    (entries close true).Yields s ns t ↔
      ∃ n u ms, (finish s.openNode.1 .noop).Yields s.openNode.2 n u ∧
        (entries close true).Yields u.advance ms t ∧ ns = n :: ms := by
  have heof : s.kind ≠ .eof := by simp [hcomma]
  rw [entries, yields_isAt_bind, atEnd, yields_read_bind, entries_go hk heof,
    if_neg Bool.false_ne_true, yields_isAt_bind, decide_eq_true hcomma, Bool.true_and, if_pos rfl,
    yields_openNode_bind, yields_bind]
  refine exists_congr fun n => exists_congr fun u => ?_
  rw [yields_advance_bind, yields_bind]
  constructor
  · rintro ⟨hn, ms, v, hms, h⟩
    obtain ⟨rfl, rfl⟩ := yields_pure.mp h
    exact ⟨ms, hn, yields_call.mp hms, rfl⟩
  · rintro ⟨ms, hn, hms, rfl⟩
    exact ⟨hn, ms, t, yields_call.mpr hms, yields_pure.mpr ⟨rfl, rfl⟩⟩

/-- Where an entry stands. -/
theorem yields_entries_cons (hk : s.kind ≠ close) (heof : s.kind ≠ .eof)
    (hcomma : (isPattern && decide (s.kind = .comma)) = false) :
    (entries close isPattern).Yields s ns t ↔ ∃ n u, (entry isPattern).Yields s n u ∧
      ((u.kind = .comma ∧ ∃ ms, (entries close isPattern).Yields u.advance ms t ∧ ns = n :: ms) ∨
        (u.kind ≠ .comma ∧ (require close).Yields u () t ∧ ns = [n])) := by
  rw [entries, yields_isAt_bind, atEnd, yields_read_bind, entries_go hk heof,
    if_neg Bool.false_ne_true, yields_isAt_bind, hcomma, if_neg Bool.false_ne_true, yields_bind]
  refine exists_congr fun n => exists_congr fun u => and_congr_right fun _ => ?_
  rw [yields_bind]
  constructor
  · rintro ⟨c, v, hc, h⟩
    rcases yields_eat.mp hc with ⟨hu, rfl, rfl⟩ | ⟨hu, rfl, rfl⟩
    · obtain ⟨ms, w, hms, h⟩ := yields_bind.mp h
      obtain ⟨rfl, rfl⟩ := yields_pure.mp h
      exact Or.inl ⟨hu, ms, yields_call.mp hms, rfl⟩
    · obtain ⟨_, w, hw, h⟩ := yields_bind.mp h
      obtain ⟨rfl, rfl⟩ := yields_pure.mp h
      exact Or.inr ⟨hu, hw, rfl⟩
  · rintro (⟨hu, ms, hms, rfl⟩ | ⟨hu, ht, rfl⟩)
    · refine ⟨true, u.advance, yields_eat.mpr (Or.inl ⟨hu, rfl, rfl⟩), ?_⟩
      exact yields_bind.mpr ⟨ms, t, yields_call.mpr hms, yields_pure.mpr ⟨rfl, rfl⟩⟩
    · refine ⟨false, u, yields_eat.mpr (Or.inr ⟨hu, rfl, rfl⟩), ?_⟩
      exact yields_bind.mpr ⟨(), t, ht, yields_pure.mpr ⟨rfl, rfl⟩⟩

end Grammar

/-- What the last part of a body comes to holds of what the body runs to. -/
theorem Step.Gives.of_runs {V : α → ParseState → Prop} {t : Step α} {es : List ParseState}
    {a : α} {s : ParseState} (h : t.Gives V) (ht : t.Runs es (.ok (a, s))) : V a s := by
  generalize ho : (Except.ok (a, s) : Outcome α) = o at ht
  induction ht generalizing s with
  | done =>
    cases ho
    exact h
  | stop => cases ho
  | advance _ ih => exact ih h ho
  | call _ _ ih ihnext => exact ihnext (h _ _ (ih (Rule.body_gives _ _) rfl)) ho
  | fail => cases ho

theorem Gives.of_yields {V : α → Prop} {p : Parser α} {s t : ParseState} {a : α} (h : Gives p V)
    (hp : p.Yields s a t) : V a := by
  obtain ⟨es, hes⟩ := hp
  exact (h s).of_runs hes

/-- What a part satisfies holds of what it yields. -/
theorem Sat.of_yields {b : Nat} {p : Parser α} {s t : ParseState} {Q : α → ParseState → Prop}
    {a : α} (h : Sat b p s Q) (hs : s.stream.Sound) (hp : p.Yields s a t) : Q a t := by
  obtain ⟨hmeets, hpaced⟩ := h (Rule.run b) (Rule.run_answers b)
  obtain ⟨fs, hruns, _⟩ := hpaced.runs hs fun r s hdue hcost => Rule.runs hdue hcost
  obtain ⟨es, hp⟩ := hp
  exact (hmeets.ok (hruns.det hp).2).1

end PhpSyntax
