import PhpSyntax.Proofs.Scanner.Spelling
import PhpSyntax.Proofs.Stream.Sound

namespace PhpSyntax

/-! ## Places in a text -/

namespace Position

/-- A token of the grammar starts at `p`, or the text ends there. -/
def Begins (source : String) (p : Position) : Prop :=
  p = origin.advance source ∨ ∃ t ∈ tokenize source, t.kind.isTrivia = false ∧ t.start = p

/-- A token of the grammar that is no closing tag ends at `p`. -/
def Ends (source : String) (p : Position) : Prop :=
  ∃ t ∈ tokenize source, t.kind.isTrivia = false ∧ t.kind ≠ .closeTag ∧ t.stop = p

variable {source : String} {p : Position}

theorem isIn_advance (source : String) : (origin.advance source).IsIn source := by
  refine ⟨source, "", String.append_empty, ?_, rfl⟩
  rw [offset_advance]
  exact (Nat.zero_add _).symm

theorem Begins.isIn (h : p.Begins source) : p.IsIn source := by
  rcases h with rfl | ⟨t, ht, _, rfl⟩
  · exact isIn_advance source
  · exact (tokenize_isIn source t ht).1

theorem Ends.isIn (h : p.Ends source) : p.IsIn source := by
  obtain ⟨t, ht, _, _, rfl⟩ := h
  exact (tokenize_isIn source t ht).2

theorem IsIn.offset_le (h : p.IsIn source) : p.offset ≤ (origin.advance source).offset := by
  obtain ⟨before, behind, rfl, hsize, rfl⟩ := h
  rw [advance_append, offset_advance _ behind]
  exact Nat.le_add_right _ _

/-- Only the start of a text has the offset zero. -/
theorem IsIn.eq_origin (h : p.IsIn source) (h0 : p.offset = 0) : p = origin := by
  obtain ⟨before, behind, _, hsize, rfl⟩ := h
  have hempty : before = "" := String.utf8ByteSize_eq_zero_iff.mp (hsize.trans h0)
  rw [hempty]
  rfl

end Position

/-! ## The stream -/

/-- The stream is at a token of the grammar of its text or at the end, and its boundary lies
behind one. -/
structure Stream.OnTokens (source : String) (s : Stream) : Prop where
  text : s.source = source
  stop : s.stop = Position.origin.advance source
  current : s.current = Token.eof s.stop ∨
    ∃ t ∈ tokenize source, t.kind.isTrivia = false ∧ s.current = t.forGrammar s.options
  ahead : s.ahead <:+ tokenize source
  prev : s.prev = Position.origin ∨ s.prev.Ends source

namespace Stream.OnTokens

variable {source : String} {s : Stream}

theorem begins (h : s.OnTokens source) : s.current.start.Begins source := by
  rcases h.current with e | ⟨t, ht, htrivia, e⟩
  · rw [e]
    exact Or.inl h.stop
  · rw [e, Token.forGrammar_start]
    exact Or.inr ⟨t, ht, htrivia, rfl⟩

/-- A token that is consumed and is no closing tag moves the boundary behind it. -/
theorem ends_stop (h : s.OnTokens source) (hk : s.current.kind ≠ .eof) (htag : s.atTag = false) :
    s.current.stop.Ends source := by
  rcases h.current with e | ⟨t, ht, htrivia, e⟩
  · exact absurd (congrArg Token.kind e) hk
  · rw [e, Token.forGrammar_stop]
    refine ⟨t, ht, htrivia, fun hclose => ?_, rfl⟩
    have htext : t.text ≠ ";" := fun h' => (tokenize_spelled ht).closing hclose (by rw [h']; rfl)
    rw [atTag, e] at htag
    simp [Token.forGrammar, hclose, htext] at htag

/-- Wherever the tokens ahead are the last of the text, the next one is on tokens. -/
theorem of_ahead (htext : s.source = source) (hstop : s.stop = Position.origin.advance source)
    (hahead : s.ahead <:+ tokenize source)
    (hprev : s.advance.prev = Position.origin ∨ s.advance.prev.Ends source) :
    s.advance.OnTokens source := by
  have hupcoming : s.upcoming <:+ tokenize source := (List.dropWhile_suffix _).trans hahead
  refine ⟨htext, hstop, ?_, (List.drop_suffix 1 _).trans hupcoming, hprev⟩
  cases hu : s.upcoming with
  | nil => exact Or.inl (by simp [Stream.advance, hu])
  | cons t ts =>
    have ht : t ∈ tokenize source := hupcoming.subset (hu ▸ List.mem_cons_self)
    exact Or.inr ⟨t, ht, upcoming_cons hu, by simp [Stream.advance, hu]⟩

theorem advance (h : s.OnTokens source) (hk : s.current.kind ≠ .eof) :
    s.advance.OnTokens source := by
  refine of_ahead h.text h.stop h.ahead ?_
  cases htag : s.atTag with
  | true =>
    have hprev : s.advance.prev = s.prev := by simp [Stream.advance, htag]
    rw [hprev]
    exact h.prev
  | false =>
    have hprev : s.advance.prev = s.current.stop := by simp [Stream.advance, htag]
    rw [hprev]
    exact Or.inr (h.ends_stop hk htag)

theorem halt (h : s.OnTokens source) : s.halt.2.OnTokens source :=
  ⟨h.text, h.stop, Or.inl rfl, List.nil_suffix, h.prev⟩

theorem first (source : String) (o : Options) : (ofSource source o).advance.OnTokens source :=
  of_ahead rfl rfl (List.suffix_refl _) (Or.inl rfl)

end Stream.OnTokens

end PhpSyntax
