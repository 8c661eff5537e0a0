import PhpSyntax.Proofs.Trace.Sat

namespace PhpSyntax.Sat

variable {α : Type} {b k l : Nat} {x : Bench × ParseState} {w : Bench} {s : ParseState}
  {Q : α → ParseState → Prop}

/-! ## Tokens that have to be there or may be there -/

theorem eat {j : TokenKind} (h : Stage b k l x w s) (hj : j.IsSolid) :
    Sat b (Parser.eat j) s fun c t =>
      (c = true ∧ s.kind = j ∧ Stage b 32 (max l s.offset) x w t) ∨
        (c = false ∧ s.kind ≠ j ∧ t = s) := by
  refine .isAt (fun hk => ?_) fun hk => .pure (Or.inr ⟨rfl, hk, rfl⟩)
  exact .bind (advanceSolid h (hk ▸ hj)) fun _ t h₁ => .pure (Or.inl ⟨rfl, hk, h₁⟩)

/-- A token that may be there, where nothing depends on it. -/
theorem eatAny {j : TokenKind} (h : Stage b k l x w s) (hj : j ≠ .eof) :
    Sat b (Parser.eat j) s fun _ t => Stage b k l x w t := by
  refine .isAt (fun hk => ?_) fun _ => .pure h
  exact .bind (advance h (hk ▸ hj)) fun _ t ⟨_, h₁⟩ => .pure (h₁.spend h.limit)

theorem ifEatSolid {j : TokenKind} {p q : Parser α} (h : Stage b k l x w s) (hj : j.IsSolid)
    (hp : s.kind = j → ∀ t, Stage b 32 (max l s.offset) x w t → Sat b p t Q)
    (hq : s.kind ≠ j → Sat b q s Q) :
    Sat b (Parser.eat j >>= fun c => if c = true then p else q) s Q := by
  refine .bind (eat h hj) fun c t hc => ?_
  rcases hc with ⟨rfl, hk, h₁⟩ | ⟨rfl, hk, rfl⟩
  · exact hp hk t h₁
  · exact hq hk

theorem ifEat {j : TokenKind} {p q : Parser α} (h : Stage b k l x w s) (hj : j.IsSolid)
    (hp : ∀ t, Stage b 32 l x w t → Sat b p t Q) (hq : Sat b q s Q) :
    Sat b (Parser.eat j >>= fun c => if c = true then p else q) s Q :=
  ifEatSolid h hj (fun _ t h₁ => hp t (h₁.lower (Nat.le_max_left _ _))) fun _ => hq

theorem expect {j : TokenKind} (h : Stage b k l x w s) (hj : j.IsSolid) :
    Sat b (Parser.expect j) s fun c t =>
      (c = true ∧ Stage b 32 (max l s.offset) x w t) ∨
        (c = false ∧ s.kind ≠ j ∧ Stage b k (max l s.offset) x w t) := by
  refine .ifEatSolid h hj (fun _ t h₁ => .pure (Or.inl ⟨rfl, h₁⟩)) fun hk => ?_
  refine .bind (omitted (max l s.offset) h) fun _ t ⟨_, h₁⟩ => ?_
  exact .pure (Or.inr ⟨rfl, hk, h₁⟩)

/-- A token that has to be there, where nothing depends on it. -/
theorem expectAny {j : TokenKind} (h : Stage b k l x w s) (hj : j ≠ .eof) :
    Sat b (Parser.expect j) s fun _ t => Stage b k l x w t := by
  refine .bind (eatAny h hj) fun c t h₁ => .ite (fun _ => .pure h₁) fun _ => ?_
  exact .bind (omitted l h₁) fun _ u ⟨_, h₂⟩ => .pure h₂

theorem ifExpectSolid {j : TokenKind} {p q : Parser α} (h : Stage b k l x w s) (hj : j.IsSolid)
    (hp : ∀ t, Stage b 32 (max l s.offset) x w t → Sat b p t Q)
    (hq : s.kind ≠ j → ∀ t, Stage b k (max l s.offset) x w t → Sat b q t Q) :
    Sat b (Parser.expect j >>= fun c => if c = true then p else q) s Q := by
  refine .bind (expect h hj) fun c t hc => ?_
  rcases hc with ⟨rfl, h₁⟩ | ⟨rfl, hk, h₁⟩
  · exact hp t h₁
  · exact hq hk t h₁

theorem ifExpect {j : TokenKind} {p q : Parser α} (h : Stage b k l x w s) (hj : j.IsSolid)
    (hp : ∀ t, Stage b 32 l x w t → Sat b p t Q) (hq : ∀ t, Stage b k l x w t → Sat b q t Q) :
    Sat b (Parser.expect j >>= fun c => if c = true then p else q) s Q :=
  ifExpectSolid h hj (fun t h₁ => hp t (h₁.lower (Nat.le_max_left _ _)))
    fun _ t h₁ => hq t (h₁.lower (Nat.le_max_left _ _))

theorem requireSolid {j : TokenKind} (h : Stage b k l x w s) (hj : j.IsSolid) :
    Sat b (Parser.require j) s fun _ t => Stage b k (max l s.offset) x w t :=
  .bind (expect h hj) fun _ _ hc => .pure <|
    hc.elim (fun ⟨_, h₁⟩ => h₁.spend h.limit) fun ⟨_, _, h₁⟩ => h₁

theorem require {j : TokenKind} (h : Stage b k l x w s) (hj : j.IsSolid) :
    Sat b (Parser.require j) s fun _ t => Stage b k l x w t :=
  (requireSolid h hj).forget

theorem endStatement (h : Stage b k l x w s) :
    Sat b Parser.endStatement s fun _ t => Stage b k l x w t := by
  refine .kind ?_
  split
  case h_1 hk =>
    have hne : s.kind ≠ .eof := by simp [hk]
    exact (advance h hne).mono fun _ t ⟨_, h₁⟩ => h₁.spend h.limit
  case h_2 => exact .pure h
  case h_3 => exact .pure h
  case h_4 => exact .bind (omitted l h) fun _ t ⟨_, h₁⟩ => .pure h₁

/-! ## Parts that may be there -/

theorem optionally {c : Bool} {p : Parser Node} (h : Stage b k l x w s)
    (hp : c = true → Sat b p s fun n t => Stage b k l x (.node n :: w) t) :
    Sat b (Parser.optionally c p) s fun n t => Stage b k l x (layOption n w) t :=
  .ite (fun hc => .bind (hp hc) fun _ _ h₁ => .pure h₁) fun _ => .pure h

theorem after {j : TokenKind} {p : Parser Node} (h : Stage b k l x w s) (hj : j.IsSolid)
    (hp : ∀ t, Stage b 32 l x w t → Sat b p t fun n u => Stage b 32 l x (.node n :: w) u) :
    Sat b (Parser.after j p) s fun n t => Stage b k l x (layOption n w) t := by
  refine .bind (eat h hj) fun c t hc => ?_
  rcases hc with ⟨rfl, _, h₁⟩ | ⟨rfl, _, rfl⟩
  · have h₂ := h₁.lower (Nat.le_max_left _ _)
    exact (optionally h₂ fun _ => hp t h₂).mono fun _ _ h₃ => h₃.spend h.limit
  · exact optionally h fun hc => by cases hc

/-! ## Other rules -/

theorem call {c : Shape} (r : Rule c) (h : Stage b k l x (r.takes w) s) (hk : r.rank < k)
    (hr : r.Ready s) :
    Sat b (Parser.call r) s fun v t => Stage b k (r.floor l s) x (c.put v w) t ∧ r.Ends t := by
  intro answer ha
  have eval (u : ParseState) : (Parser.call r u).eval answer = answer c r u := by
    simp only [Parser.call, Step.eval]
    cases answer c r u <;> rfl
  refine ⟨?_, .refl, h.due hr, h.cost_lt hk, fun v t ht => ⟨?_, .refl⟩⟩
  · rw [eval, eval]
    exact ha.keeps r s hk hr h
  · obtain ⟨⟨hstage, _⟩, _⟩ := (ha.keeps r s hk hr h.here).ok ht
    exact hstage.moves.leads

theorem callPlain {r : Rule .node} (hp : r.isPlain = true) (h : Stage b k l x w s)
    (hk : r.rank < k) :
    Sat b (Parser.call r) s fun n t => Stage b k (max l s.offset) x (.node n :: w) t := by
  have htakes : r.takes w = w := by cases r <;> first | rfl | cases hp
  have hfloor : r.floor l s = max l s.offset := by cases r <;> first | rfl | cases hp
  have hready : r.Ready s := by cases r <;> trivial
  rw [← htakes] at h
  refine (call r h hk hready).mono fun n t ⟨h₁, _⟩ => ?_
  rw [← hfloor]
  exact h₁

theorem expression (h : Stage b k l x w s) (hk : 3 < k) :
    Sat b Parser.expression s fun n t => Stage b k (max l s.offset) x (.node n :: w) t :=
  callPlain rfl h hk

theorem separated {mark : TokenKind} {item : Rule .node}
    (hr : mark.IsSolid ∧ item.isPlain = true) (h : Stage b k l x w s) (hk : 5 < k) :
    Sat b (Parser.separated mark item) s fun ns t =>
      Stage b k (max l s.offset) x (stack ns w) t :=
  (call (.separated mark item) h hk hr).mono fun _ _ h => h.1

theorem delimited {close : TokenKind} {item : Rule .node}
    (hr : close.IsSolid ∧ item.isPlain = true) (h : Stage b k l x w s) (hk : 5 < k) :
    Sat b (Parser.delimited close item) s fun ns t => Stage b k l x (stack ns w) t :=
  (call (.delimited close item) h hk hr).mono fun _ _ h => h.1

theorem statements {stop : TokenSet} (h : Stage b k l x w s) (hk : 6 < k) :
    Sat b (Parser.call (.statements stop)) s fun ns t => Stage b k l x (stack ns w) t :=
  (call (.statements stop) h hk trivial).mono fun _ _ h => h.1

/-- Where statements need not end at once, they consume something. -/
theorem someStatements {stop : TokenSet} (h : Stage b k l x w s) (hk : 6 < k)
    (hne : s.kind ≠ .eof) (hgo : stop.contains s.kind = false) :
    Sat b (Parser.call (.statements stop)) s fun ns t => Stage b 32 l x (stack ns w) t := by
  refine (call (.statements stop) h.here hk trivial).mono fun ns t ⟨h₁, hend⟩ => ?_
  have hrest : t.stream.rest < s.stream.rest ∨ t.stream = s.stream := h₁.moves.rest h.sound
  rcases hrest with hlt | he
  · exact h.gain h₁ hlt
  · have hkind := ParseState.kind_eq he
    rcases hend with hend | hend
    · exact absurd (hkind.symm.trans hend) hne
    · rw [hkind, hgo] at hend
      cases hend

theorem topStatements {stop : TokenSet} (h : Stage b k l x w s) (hk : 6 < k) :
    Sat b (Parser.call (.topStatements stop)) s fun ns t => Stage b k l x (stack ns w) t :=
  (call (.topStatements stop) h hk trivial).mono fun _ _ h => h.1

theorem statement (h : Stage b k l x w s) (hk : 5 < k) :
    Sat b (Parser.call .statement) s fun n t => Stage b k l x (.node n :: w) t :=
  (call .statement h hk trivial).mono fun _ _ h => h.1

theorem lookups {n : Node} {readOnly : Bool} (h : Stage b k l x (.node n :: w) s)
    (hk : 0 < k) :
    Sat b (Parser.call (.lookups n readOnly)) s fun m t => Stage b k l x (.node m :: w) t :=
  (call (.lookups n readOnly) h hk trivial).mono fun _ _ h => h.1

end PhpSyntax.Sat
