import PhpSyntax.Proofs.Halt.Lexeme
import PhpSyntax.Proofs.Scanner.Place

namespace PhpSyntax

def TokenKind.comments : List TokenKind := [comment, docComment]

def asciiSpaces : List Char := [' ', '\t', '\n', '\x0c', '\r']

def EndsLine (cs : List Char) : Prop :=
  cs = [] ∨ ['\n'] <+: cs ∨ ['\r'] <+: cs ∨ ['?', '>'] <+: cs

/-- Where a token of kind `k` with the characters `text` ends, in front of `rest`, if it is a
comment. -/
structure CommentEnds (k : TokenKind) (text rest : List Char) : Prop where
  /-- Comments start in three ways, documentation in one of them. -/
  begins : k ∈ TokenKind.comments →
    (k = .comment ∧ (['#'] <+: text ∨ ['/', '/'] <+: text)) ∨ ['/', '*'] <+: text
  /-- A comment to the end of the line has no line end and no closing tag in it, but behind
  it. -/
  line : k ∈ TokenKind.comments → ['#'] <+: text ∨ ['/', '/'] <+: text →
    '\n' ∉ text ∧ '\r' ∉ text ∧ ¬['?', '>'] <:+: text ∧ EndsLine rest
  /-- Any other comment has no `*/` between the first two characters and the last two, which
  are `*/` except at the end of the text. -/
  block : k ∈ TokenKind.comments → ['/', '*'] <+: text →
    (∃ inner, text = ['/', '*'] ++ inner ++ ['*', '/'] ∧ ¬['*', '/'] <:+: inner ++ ['*']) ∨
      (rest = [] ∧ ¬['*', '/'] <:+: text.drop 2)
  /-- It is documentation if and only if it starts with `/**` and white space. -/
  documents : k ∈ TokenKind.comments → ['/', '*'] <+: text →
    (k = .docComment ↔ ∃ c ∈ asciiSpaces, ['/', '*', '*', c] <+: text)

/-- Nothing is said of other tokens. -/
theorem commentEnds_of_other {k : TokenKind} (h : k ∉ TokenKind.comments) (text rest : List Char) :
    CommentEnds k text rest :=
  ⟨fun hk => absurd hk h, fun hk => absurd hk h, fun hk => absurd hk h, fun hk => absurd hk h⟩

namespace Lexeme

/-! ## Two characters in a row -/

/-- Two characters stand in a row at the front, or further on. -/
theorem pair_infix_cons {a b c : Char} {cs : List Char} :
    [a, b] <:+: c :: cs ↔ (c = a ∧ [b] <+: cs) ∨ [a, b] <:+: cs := by
  rw [List.infix_cons_iff, List.cons_prefix_cons, eq_comm]

theorem not_pair_of_singleton (a b c : Char) : ¬[a, b] <:+: [c] := by
  intro h
  exact absurd h.length_le (by simp)

/-! ## To the end of the line -/

/-- The characters before the end of the line have no line end and no closing tag in them. -/
theorem lineLength_ends (cs : List Char) :
    '\n' ∉ cs.take (lineLength cs) ∧ '\r' ∉ cs.take (lineLength cs) ∧
      ¬['?', '>'] <:+: cs.take (lineLength cs) ∧ EndsLine (cs.drop (lineLength cs)) := by
  induction cs with
  | nil => exact ⟨by simp, by simp, by simp, .inl rfl⟩
  | cons c r ih =>
    by_cases htag : ∃ r', c :: r = ['?', '>'] ++ r'
    · obtain ⟨r', hr'⟩ := htag
      rw [hr']
      exact ⟨List.not_mem_nil, List.not_mem_nil, by simp [lineLength],
        .inr (.inr (.inr (List.prefix_append _ _)))⟩
    · rw [lineLength_cons (not_exists.mp htag)]
      split
      · next hend =>
        have hc : c = '\n' ∨ c = '\r' := by simpa using hend
        refine ⟨List.not_mem_nil, List.not_mem_nil, by simp, ?_⟩
        rcases hc with rfl | rfl
        · exact .inr (.inl (List.prefix_append ['\n'] r))
        · exact .inr (.inr (.inl (List.prefix_append ['\r'] r)))
      · next hend =>
        obtain ⟨hnewline, hreturn, hnone, hrest⟩ := ih
        have hc : c ≠ '\n' ∧ c ≠ '\r' := by simpa using hend
        rw [Nat.add_comm, List.take_succ_cons, List.drop_succ_cons]
        refine ⟨List.not_mem_cons_of_ne_of_not_mem hc.1.symm hnewline,
          List.not_mem_cons_of_ne_of_not_mem hc.2.symm hreturn, fun hpair => ?_, hrest⟩
        rcases pair_infix_cons.mp hpair with ⟨rfl, hmark⟩ | hpair
        · obtain ⟨r', hr'⟩ := hmark.trans (List.take_prefix _ _)
          exact htag ⟨r', by rw [← hr']; rfl⟩
        · exact hnone hpair

/-! ## To the closing mark -/

/-- The characters up to the closing mark have no other one in them; where there is no closing
mark they are all there are. -/
theorem blockLength_ends (cs : List Char) :
    (∃ inner, cs.take (blockLength cs) = inner ++ ['*', '/'] ∧
        ¬['*', '/'] <:+: inner ++ ['*']) ∨
      (cs.drop (blockLength cs) = [] ∧ ¬['*', '/'] <:+: cs) := by
  induction cs with
  | nil => exact .inr ⟨rfl, by simp⟩
  | cons c r ih =>
    by_cases hmark : ∃ r', c :: r = ['*', '/'] ++ r'
    · obtain ⟨r', hr'⟩ := hmark
      rw [hr']
      exact .inl ⟨[], rfl, not_pair_of_singleton _ _ _⟩
    · -- the first character starts no mark
      have hfirst : ¬(c = '*' ∧ ['/'] <+: r) := by
        intro ⟨hc, r', hr'⟩
        exact hmark ⟨r', by rw [hc, ← hr']; rfl⟩
      rw [blockLength_cons (not_exists.mp hmark), Nat.add_comm, List.take_succ_cons,
        List.drop_succ_cons]
      rcases ih with ⟨inner, htext, hnone⟩ | ⟨hrest, hnone⟩
      · refine .inl ⟨c :: inner, by rw [htext]; rfl, fun hpair => ?_⟩
        rcases pair_infix_cons.mp hpair with ⟨hc, hslash⟩ | hpair
        · refine hfirst ⟨hc, ?_⟩
          have hinner : inner ++ ['*'] <+: inner ++ ['*', '/'] :=
            (List.prefix_append_right_inj inner).mpr (List.prefix_append ['*'] ['/'])
          exact (hslash.trans hinner).trans (htext ▸ List.take_prefix _ _)
        · exact hnone hpair
      · refine .inr ⟨hrest, fun hpair => ?_⟩
        rcases pair_infix_cons.mp hpair with hslash | hpair
        · exact hfirst hslash
        · exact hnone hpair

theorem isSpace_or_feed (c : Char) : (isSpace c || c = '\x0c') = true ↔ c ∈ asciiSpaces := by
  simp only [isSpace, isBlank, asciiSpaces, Bool.or_eq_true, decide_eq_true_eq, List.mem_cons,
    List.not_mem_nil, or_false]
  grind

/-- The second star and the white space of documentation are part of the comment. -/
theorem startsDoc_iff (cs : List Char) :
    startsDoc cs = true ↔ ∃ c ∈ asciiSpaces, ['*', c] <+: cs.take (blockLength cs) := by
  constructor
  · intro h
    unfold startsDoc at h
    split at h
    · next c r =>
      have hc := (isSpace_or_feed c).mp h
      have hne : c ≠ '/' ∧ c ≠ '*' := by
        constructor
        all_goals
          intro e
          rw [e] at hc
          exact absurd hc (by decide)
      have hstar : blockLength ('*' :: c :: r) = 1 + blockLength (c :: r) :=
        blockLength_cons fun r' e => hne.1 (List.cons.inj (List.cons.inj e).2).1
      have hspace : blockLength (c :: r) = 1 + blockLength r :=
        blockLength_cons fun r' e => hne.2 (List.cons.inj e).1
      refine ⟨c, hc, ?_⟩
      rw [hstar, hspace, Nat.add_comm, List.take_succ_cons, Nat.add_comm, List.take_succ_cons]
      exact List.prefix_append ['*', c] _
    · cases h
  · intro ⟨c, hc, hfront⟩
    obtain ⟨r, hr⟩ := hfront.trans (List.take_prefix _ _)
    rw [← hr]
    exact (isSpace_or_feed c).mpr hc

/-! ## Comments -/

/-- A comment to the end of the line, behind its first characters. -/
theorem commentEnds_of_line {front : List Char} (h : front = ['#'] ∨ front = ['/', '/'])
    (r : List Char) :
    CommentEnds .comment (front ++ r.take (lineLength r)) (r.drop (lineLength r)) := by
  obtain ⟨hnewline, hreturn, hnone, hrest⟩ := lineLength_ends r
  have hblock : ¬['/', '*'] <+: front ++ r.take (lineLength r) := by
    rcases h with rfl | rfl
    all_goals simp
  refine ⟨fun _ => .inl ⟨rfl, ?_⟩, fun _ _ => ⟨?_, ?_, ?_, hrest⟩, fun _ hb => absurd hb hblock,
    fun _ hb => absurd hb hblock⟩
  · rcases h with rfl | rfl
    · exact .inl (List.prefix_append _ _)
    · exact .inr (List.prefix_append _ _)
  · rcases h with rfl | rfl
    all_goals simpa using hnewline
  · rcases h with rfl | rfl
    all_goals simpa using hreturn
  · rcases h with rfl | rfl
    all_goals simpa [pair_infix_cons] using hnone

/-- A comment between two marks, behind the first of them. -/
theorem commentEnds_of_block (r : List Char) :
    CommentEnds (if startsDoc r then .docComment else .comment)
      (['/', '*'] ++ r.take (blockLength r)) (r.drop (blockLength r)) := by
  have hline : ¬(['#'] <+: ['/', '*'] ++ r.take (blockLength r) ∨
      ['/', '/'] <+: ['/', '*'] ++ r.take (blockLength r)) := by
    simp
  refine ⟨fun _ => .inr (List.prefix_append _ _), fun _ hl => absurd hl hline, fun _ _ => ?_,
    fun _ _ => ?_⟩
  · rcases blockLength_ends r with ⟨inner, htext, hnone⟩ | ⟨hrest, hnone⟩
    · exact .inl ⟨inner, by rw [htext, List.append_assoc], hnone⟩
    · refine .inr ⟨hrest, fun hpair => hnone ?_⟩
      exact hpair.trans (List.take_prefix _ _).isInfix
  · have hdocuments : (if startsDoc r then TokenKind.docComment else .comment) = .docComment ↔
        startsDoc r = true := by
      cases startsDoc r <;> decide
    rw [hdocuments, startsDoc_iff]
    simp [List.cons_prefix_cons]

theorem comment?_ends {cs : List Char} {l : Lexeme} (h : comment? cs = some l) :
    CommentEnds l.kind (cs.take l.length) (cs.drop l.length) := by
  unfold comment? at h
  split at h
  · next r =>
    cases h
    simp only [Nat.add_comm 1, List.take_succ_cons, List.drop_succ_cons]
    exact commentEnds_of_line (.inl rfl) r
  · next r =>
    cases h
    simp only [Nat.add_comm 2, List.take_succ_cons, List.drop_succ_cons]
    exact commentEnds_of_line (.inr rfl) r
  · next r =>
    cases h
    simp only [Nat.add_comm 2, List.take_succ_cons, List.drop_succ_cons]
    exact commentEnds_of_block r
  · cases h

theorem finders_comment {k : TokenKind} (h : k ∈ TokenKind.comments) :
    finders k = [comment?] ∧ k ≠ .badCharacter := by
  have hk : k = .comment ∨ k = .docComment := by simpa [TokenKind.comments] using h
  rcases hk with rfl | rfl
  all_goals exact ⟨rfl, nofun⟩

end Lexeme

/-- The comments of a text end where they should: those to the end of the line in front of a line
end, a closing tag or the end of the text, the others with the first `*/` or with the text.
Those that start with `/**` and white space are the documentation. -/
theorem tokenize_commentEnds {source : String} {before after : List Token} {t : Token}
    (h : tokenize source = before ++ t :: after) :
    CommentEnds t.kind t.text.toList (Token.chars after) := by
  obtain ⟨cs, ht⟩ := tokenize_place h
  by_cases hk : t.kind ∈ TokenKind.comments
  · obtain ⟨hfinders, hbad⟩ := Lexeme.finders_comment hk
    obtain ⟨l, hl, hkind, htext, hrest⟩ := ht.found_by hfinders hbad
    rw [hkind, htext, hrest]
    exact Lexeme.comment?_ends hl
  · exact commentEnds_of_other hk _ _

/-- In `<?php /** a */// b?>` a line comment stands between documentation and the closing tag. -/
theorem tokenize_commentEnds_line :
    ∃ before after t, tokenize "<?php /** a */// b?>" = before ++ t :: after ∧
      t.kind = .comment ∧ t.text = "// b" ∧
        CommentEnds t.kind t.text.toList (Token.chars after) := by
  have h : ∃ t, tokenize "<?php /** a */// b?>" =
      (tokenize "<?php /** a */// b?>").take 2 ++ t :: (tokenize "<?php /** a */// b?>").drop 3 ∧
      t.kind = .comment ∧ t.text = "// b" :=
    ⟨⟨.comment, "// b", ⟨1, 14, 14⟩, ⟨1, 18, 18⟩⟩, by decide +kernel⟩
  obtain ⟨t, htokens, hkind, htext⟩ := h
  exact ⟨_, _, t, htokens, hkind, htext, tokenize_commentEnds htokens⟩

end PhpSyntax
