/-
Runs without a bound on the depth of calls.

`Step.Runs` runs a body and the rules it asks for, however deep these nest, and notes
where a token is consumed.  A body has at most one such run (`Runs.det`), and there is
none if the calls never end.  A rule that is due has one, and its outcome is that of every
depth which its cost does not exceed (`Rule.runs`): the bound on the depth is never met.
-/
import PhpSyntax.Proofs.Trace.Run

namespace PhpSyntax

structure Call where
  {shape : Shape}
  rule : Rule shape
  state : ParseState

def Call.body (x : Call) : Step x.shape.Value := x.rule.body x.state

/-- The rule may be asked for, which says how deep its calls nest. -/
def Call.Due (x : Call) : Prop := x.rule.Due x.state

def Call.cost (x : Call) : Nat := x.rule.cost x.state

namespace Step

/-- The body ends with the outcome, and the tokens that it and the rules asked for consume
are the current ones of these states, in this order. -/
inductive Runs : {α : Type} → Step α → List ParseState → Outcome α → Prop
  | done {α : Type} {a : α} {s : ParseState} : Runs (.done a s) [] (.ok (a, s))
  | stop {α : Type} {f : Fault} : Runs (α := α) (.stop f) [] (.error f)
  | advance {α : Type} {s : ParseState} {next : ParseState → Step α} {es : List ParseState}
    {o : Outcome α} (h : Runs (next s.advance) es o) : Runs (.advance s next) (s :: es) o
  | call {α : Type} {c : Shape} {r : Rule c} {s t : ParseState}
    {next : c.Value → ParseState → Step α} {v : c.Value} {es fs : List ParseState}
    {o : Outcome α} (h : Runs (r.body s) es (.ok (v, t))) (hnext : Runs (next v t) fs o) :
    Runs (.call r s next) (es ++ fs) o
  | fail {α : Type} {c : Shape} {r : Rule c} {s : ParseState}
    {next : c.Value → ParseState → Step α} {es : List ParseState} {f : Fault}
    (h : Runs (r.body s) es (.error f)) : Runs (.call r s next) es (.error f)

/-- A body has one run at most. -/
theorem Runs.det {α : Type} {t : Step α} {es fs : List ParseState} {o p : Outcome α}
    (h : Runs t es o) (h' : Runs t fs p) : es = fs ∧ o = p := by
  induction h generalizing fs with
  | done =>
    cases h'
    exact ⟨rfl, rfl⟩
  | stop =>
    cases h'
    exact ⟨rfl, rfl⟩
  | advance _ ih =>
    cases h' with
    | advance h' =>
      obtain ⟨rfl, rfl⟩ := ih h'
      exact ⟨rfl, rfl⟩
  | call _ _ ih ihnext =>
    cases h' with
    | call h' hnext =>
      obtain ⟨rfl, hok⟩ := ih h'
      cases hok
      obtain ⟨rfl, rfl⟩ := ihnext hnext
      exact ⟨rfl, rfl⟩
    | fail h' => cases (ih h').2
  | fail _ ih =>
    cases h' with
    | call h' _ => cases (ih h').2
    | fail h' =>
      obtain ⟨rfl, hfault⟩ := ih h'
      cases hfault
      exact ⟨rfl, rfl⟩

inductive Asks : {α : Type} → Step α → Call → Prop
  | here {α : Type} {c : Shape} {r : Rule c} {s : ParseState}
    {next : c.Value → ParseState → Step α} : Asks (.call r s next) ⟨r, s⟩
  | advance {α : Type} {s : ParseState} {next : ParseState → Step α} {y : Call}
    (h : Asks (next s.advance) y) : Asks (.advance s next) y
  | later {α : Type} {c : Shape} {r : Rule c} {s t : ParseState}
    {next : c.Value → ParseState → Step α} {v : c.Value} {es : List ParseState} {y : Call}
    (hr : Runs (r.body s) es (.ok (v, t))) (h : Asks (next v t) y) : Asks (.call r s next) y

/-- What a body yields that goes on behind another one. -/
theorem Runs.bind_ok {α β : Type} {t : Step α} {f : α → ParseState → Step β}
    {es : List ParseState} {b : β} {u : ParseState} (h : (t.bind f).Runs es (.ok (b, u))) :
    ∃ fs gs a s, t.Runs fs (.ok (a, s)) ∧ (f a s).Runs gs (.ok (b, u)) := by
  induction t generalizing es with
  | done a s => exact ⟨[], es, a, s, .done, h⟩
  | stop e => cases h
  | advance s next ih =>
    cases h with
    | advance h =>
      obtain ⟨fs, gs, a, s', hfs, hgs⟩ := ih _ h
      exact ⟨s :: fs, gs, a, s', .advance hfs, hgs⟩
  | call r s next ih =>
    cases h with
    | call hr h =>
      obtain ⟨fs, gs, a, s', hfs, hgs⟩ := ih _ _ h
      exact ⟨_ ++ fs, gs, a, s', .call hr hfs, hgs⟩

theorem Asks.bind {α β : Type} {t : Step α} {f : α → ParseState → Step β}
    {es : List ParseState} {a : α} {s : ParseState} {y : Call} (h : t.Runs es (.ok (a, s)))
    (hy : (f a s).Asks y) : (t.bind f).Asks y := by
  induction t generalizing es with
  | done =>
    cases h
    exact hy
  | stop => cases h
  | advance s' next ih =>
    cases h with
    | advance h => exact .advance (ih _ h)
  | call r s' next ih =>
    cases h with
    | call hr h => exact .later hr (ih _ _ h)

end Step

def Call.Asks (x y : Call) : Prop := x.body.Asks y

/-- The calls behind a body, nested to any depth. -/
def Step.Reaches {α : Type} (t : Step α) (y : Call) : Prop :=
  ∃ x, t.Asks x ∧ Relation.ReflTransGen Call.Asks x y

/-! ## What is consumed -/

/-- Tokens are consumed only where there are any, and no more than there are. -/
structure Tally {α : Type} (u : Stream) (es : List ParseState) (o : Outcome α) : Prop where
  ne_eof : ∀ e ∈ es, e.kind ≠ .eof
  length_le : es.length ≤ u.rest
  ok : ∀ {a t}, o = .ok (a, t) → u.Leads t.stream ∧ es.length + t.stream.rest ≤ u.rest

namespace Tally

variable {α β : Type} {u v : Stream} {es fs : List ParseState}

theorem nil {a : α} {s : ParseState} (hu : u.Sound) (h : u.Leads s.stream) :
    Tally u [] (.ok (a, s) : Outcome α) where
  ne_eof := fun e he => absurd he List.not_mem_nil
  length_le := Nat.zero_le _
  ok := fun ho => by
    cases ho
    exact ⟨h, by simpa using h.rest_le hu⟩

theorem cons {o : Outcome α} {s : ParseState} (hu : u.Sound) (h : u.Leads s.stream)
    (hk : s.kind ≠ .eof) (hrest : Tally s.advance.stream es o) : Tally u (s :: es) o := by
  have hle := h.rest_le hu
  have hadvance : s.advance.stream.rest + 1 = s.stream.rest := Stream.rest_advance (h.sound hu) hk
  have hlength := hrest.length_le
  refine ⟨List.forall_mem_cons.mpr ⟨hk, hrest.ne_eof⟩, ?_, fun ho => ?_⟩
  · rw [List.length_cons]
    omega
  · obtain ⟨hleads, hsum⟩ := hrest.ok ho
    refine ⟨h.trans (.head (.advance hk) hleads), ?_⟩
    rw [List.length_cons]
    omega

theorem error {o : Outcome α} {f : Fault} (hu : u.Sound) (h : u.Leads v) (hes : Tally v es o) :
    Tally u es (.error f : Outcome β) where
  ne_eof := hes.ne_eof
  length_le := Nat.le_trans hes.length_le (h.rest_le hu)
  ok := fun ho => by cases ho

theorem append {o : Outcome β} {a : α} {t : ParseState} (hu : u.Sound) (h : u.Leads v)
    (hes : Tally v es (.ok (a, t) : Outcome α)) (hfs : Tally t.stream fs o) :
    Tally u (es ++ fs) o := by
  have hle := h.rest_le hu
  obtain ⟨hleads, hsum⟩ := hes.ok rfl
  have hlength := hfs.length_le
  refine ⟨List.forall_mem_append.mpr ⟨hes.ne_eof, hfs.ne_eof⟩, ?_, fun ho => ?_⟩
  · rw [List.length_append]
    omega
  · obtain ⟨hleads', hsum'⟩ := hfs.ok ho
    refine ⟨(h.trans hleads).trans hleads', ?_⟩
    rw [List.length_append]
    omega

end Tally

/-! ## The bound is never met -/

/-- What a body that keeps pace comes to, if the rules within its budget come to what
`depth` lets them. -/
theorem Step.Paced.runs {α : Type} {t : Step α} {depth : Nat} {u : Stream}
    (h : t.Paced depth (Rule.run depth) u) (hu : u.Sound)
    (hrules : ∀ {c : Shape} (r : Rule c) (s : ParseState), r.Due s → r.cost s < depth →
      ∃ es, (r.body s).Runs es (Rule.run depth c r s) ∧
        Tally s.stream es (Rule.run depth c r s)) :
    ∃ es, t.Runs es (t.eval (Rule.run depth)) ∧ Tally u es (t.eval (Rule.run depth)) := by
  induction t generalizing u with
  | done a s => exact ⟨[], .done, .nil hu h⟩
  | stop f => exact ⟨[], .stop, fun e he => absurd he List.not_mem_nil, Nat.zero_le _, nofun⟩
  | advance s next ih =>
    obtain ⟨hleads, hk, hnext⟩ := h
    have hs : s.advance.stream.Sound := Stream.advance_sound (hleads.sound hu)
    obtain ⟨es, hruns, htally⟩ := ih s.advance hnext hs
    exact ⟨s :: es, .advance hruns, .cons hu hleads hk htally⟩
  | @call c r s next ih =>
    obtain ⟨hleads, hdue, hcost, hnext⟩ := h
    obtain ⟨es, hruns, htally⟩ := hrules r s hdue hcost
    cases ho : Rule.run depth c r s with
    | error f =>
      rw [ho] at hruns htally
      simp only [Step.eval, ho]
      exact ⟨es, .fail hruns, htally.error hu hleads⟩
    | ok vt =>
      obtain ⟨v, t⟩ := vt
      rw [ho] at hruns htally
      obtain ⟨hst, hpaced⟩ := hnext v t ho
      obtain ⟨fs, hruns', htally'⟩ := ih v t hpaced (hst.sound hdue.sound)
      simp only [Step.eval, ho]
      exact ⟨es ++ fs, .call hruns hruns', .append hu hleads htally htally'⟩

namespace Rule

variable {c : Shape} {r : Rule c} {s : ParseState} {b : Nat}

theorem Due.paced (h : r.Due s) (hb : r.cost s ≤ b) :
    (r.body s).Paced b (run b) s.stream :=
  (r.body_sat h.ready (h.stage hb) _ (run_answers b)).2

/-- A rule that is due ends, and nothing depends on the bound on the depth. -/
theorem runs (h : r.Due s) (hb : r.cost s < b) :
    ∃ es, (r.body s).Runs es (run b c r s) ∧ Tally s.stream es (run b c r s) := by
  induction b generalizing c s with
  | zero => omega
  | succ b ih =>
    exact (h.paced (Nat.le_of_lt_succ hb)).runs h.sound fun r s hdue hcost => ih hdue hcost

theorem run_congr {b' : Nat} (h : r.Due s) (hb : r.cost s < b) (hb' : r.cost s < b') :
    run b c r s = run b' c r s := by
  obtain ⟨es, hruns, _⟩ := runs h hb
  obtain ⟨fs, hruns', _⟩ := runs h hb'
  exact (hruns.det hruns').2

end Rule

/-! ## Calls -/

/-- A body that keeps pace asks for what is due and within its budget. -/
theorem Step.Asks.due {α : Type} {t : Step α} {y : Call} {b : Nat} {u : Stream}
    (h : t.Asks y) (ht : t.Paced b (Rule.run b) u) :
    u.Leads y.state.stream ∧ y.Due ∧ y.cost < b := by
  induction h generalizing u with
  | here =>
    obtain ⟨hleads, hdue, hcost, _⟩ := ht
    exact ⟨hleads, hdue, hcost⟩
  | advance _ ih =>
    obtain ⟨hleads, hk, hnext⟩ := ht
    obtain ⟨hon, hrest⟩ := ih hnext
    exact ⟨hleads.trans (.head (.advance hk) hon), hrest⟩
  | later hr _ ih =>
    obtain ⟨hleads, hdue, hcost, hnext⟩ := ht
    obtain ⟨fs, hruns, _⟩ := Rule.runs hdue hcost
    obtain ⟨hst, hpaced⟩ := hnext _ _ (hruns.det hr).2
    obtain ⟨hon, hrest⟩ := ih hpaced
    exact ⟨hleads.trans (hst.trans hon), hrest⟩

namespace Call

variable {x y : Call}

theorem Asks.spec (h : x.Asks y) (hx : x.Due) :
    x.state.stream.Leads y.state.stream ∧ y.Due ∧ y.cost < x.cost :=
  Step.Asks.due h (Rule.Due.paced hx (Nat.le_refl _))

/-- Nested calls are due where those around them are, and cost less. -/
theorem nested_spec (h : Relation.TransGen Asks x y) (hx : x.Due) :
    x.state.stream.Leads y.state.stream ∧ y.Due ∧ y.cost < x.cost := by
  induction h with
  | single h => exact h.spec hx
  | tail _ hyz ih =>
    obtain ⟨hleads, hdue, hcost⟩ := ih
    obtain ⟨hleads', hdue', hcost'⟩ := hyz.spec hdue
    exact ⟨hleads.trans hleads', hdue', Nat.lt_trans hcost' hcost⟩

/-- A rule that is asked for again, or one of no lower rank, stands further in the text. -/
theorem nested_forward (h : Relation.TransGen Asks x y) (hx : x.Due)
    (hf : x.state.stream.Filled) (hrank : x.rule.rank ≤ y.rule.rank) :
    y.state.stream.rest < x.state.stream.rest ∧ x.state.offset < y.state.offset := by
  obtain ⟨hleads, _, hcost⟩ := nested_spec h hx
  rcases hleads.forward hx.sound hf with hsame | hforward
  · have hcost : 32 * y.state.stream.rest + y.rule.rank <
        32 * x.state.stream.rest + x.rule.rank := hcost
    rw [hsame] at hcost
    omega
  · exact hforward

end Call

end PhpSyntax
