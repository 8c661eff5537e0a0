import PhpSyntax.Proofs.Layout.Independence
import PhpSyntax.Proofs.Progress.Yields

namespace PhpSyntax

variable {A : Alignment} {α : Type} {V : α → α → Prop}

/-- A body that does the same as one that ends ends as well. -/
theorem Step.Runs.alike {x y : Step α} {es : List ParseState} {a : α} {s : ParseState}
    (h : x.Runs es (.ok (a, s))) (hxy : x.Alike A V y) :
    ∃ fs b t, y.Runs fs (.ok (b, t)) ∧ V a b ∧ s.Aligned A t := by
  generalize ho : (Except.ok (a, s) : Outcome α) = o at h
  induction h generalizing s with
  | done =>
    cases ho
    cases hxy with
    | done h hs => exact ⟨[], _, _, .done, h, hs⟩
  | stop => cases ho
  | advance _ ih =>
    cases hxy with
    | advance hxy =>
      obtain ⟨fs, b, t, hruns, hb⟩ := ih hxy ho
      exact ⟨_, b, t, .advance hruns, hb⟩
  | call _ _ ih ihnext =>
    cases hxy with
    | call hr hs hnext =>
      obtain ⟨fs, w, u, hruns, hw, hu⟩ := ih (Rule.body_alike hr _ _ hs) rfl
      obtain ⟨gs, b, t, hruns', hb⟩ := ihnext (hnext _ _ _ _ hw hu) ho
      exact ⟨_, b, t, .call hruns hruns', hb⟩
  | fail => cases ho

theorem Parser.Yields.alike {p q : Parser α} {s t s' : ParseState} {a : α} (h : p.Yields s a t)
    (hpq : Alike A V p q) (hs : s.Aligned A s') :
    ∃ b t', q.Yields s' b t' ∧ V a b ∧ t.Aligned A t' := by
  obtain ⟨es, h⟩ := h
  obtain ⟨fs, b, t', hruns, hb, ht⟩ := h.alike (hpq s s' hs)
  exact ⟨b, t', ⟨fs, hruns⟩, hb, ht⟩

/-! ## Programs -/

variable {text : String} {fileName : Option String} {o : Options} {ns : List Node}

open ParseState in
theorem statementsFrom_eq_ok {t : ParseState} :
    statementsFrom (first text fileName o) = .ok (ns, t) ↔
      (Grammar.topStatements .empty).Yields (first text fileName o) ns t := by
  obtain ⟨es, hruns, _⟩ := statementsFrom_runs text fileName o
  constructor
  · intro h
    rw [h] at hruns
    exact ⟨es, hruns⟩
  · rintro ⟨fs, hfs⟩
    exact (hruns.det hfs).2

open ParseState in
/-- The statements of a program are what the outermost scope yields. -/
theorem parse_children_iff (hdoc : o.extractDoc = false) :
    (∃ p, parse text fileName o = .ok p ∧ p.children = ns) ↔
      ∃ t, (Grammar.topStatements .empty).Yields (first text fileName o) ns t := by
  have hchildren {t : ParseState} {ms : List Node}
      (h : (Grammar.topStatements .empty).Yields (first text fileName o) ms t) :
      (t.completed (root text fileName o) ms).children = ms := by
    have hfirst : (first text fileName o).Aligned (.ofTexts o text text) (first text fileName o) :=
      first_aligned hdoc rfl fileName fileName
    obtain ⟨_, t', _, _, ht⟩ :=
      h.alike (Rule.body_alike (.same (.topStatements .empty))) hfirst
    have hsealed := (ht.sealed (rfl : (root text fileName o).leading = _)).2
    rw [completed, Trivia.settle_of_nothing hsealed.deferred.1]
    rfl
  simp only [parse_eq]
  constructor
  · rintro ⟨p, hp, rfl⟩
    split at hp
    · next ms t hstatements =>
      cases hp
      have h := statementsFrom_eq_ok.mp hstatements
      rw [hchildren h]
      exact ⟨t, h⟩
    · cases hp
  · rintro ⟨t, h⟩
    exact ⟨t.completed (root text fileName o) ns, by rw [statementsFrom_eq_ok.mpr h], hchildren h⟩

end PhpSyntax
