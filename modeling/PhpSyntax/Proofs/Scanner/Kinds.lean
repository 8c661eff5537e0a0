import PhpSyntax.Proofs.Scanner.Lexeme

namespace PhpSyntax

def TokenKind.openTags : List TokenKind := [openTag, openTagWithEcho]

def TokenKind.htmlKinds : List TokenKind := inlineHtml :: openTags

namespace Lexeme

/-- The recognisers of code, each with the kinds of the lexemes it finds. -/
def findings : List ((List Char → Option Lexeme) × List TokenKind) :=
  [(whitespace?, [.whitespace]),
   (comment?, [.comment, .docComment]),
   (closeTag?, [.closeTag, .question]),
   (variableWord?, [.variable]),
   (number?, [.lNumber, .dNumber]),
   (quoted?, [.badCharacter, .shellCommand, .encapsedString, .constantString]),
   (heredoc?, [.badCharacter, .heredoc]),
   (word?, .identifier :: .kwYieldFrom :: keywords.map Prod.snd),
   (cast?, castWords.map Prod.snd),
   (symbol?, symbols.map Prod.snd)]

def finders (k : TokenKind) : List (List Char → Option Lexeme) :=
  (findings.filter fun e => k ∈ e.2).map Prod.fst

def FindsOf (f : List Char → Option Lexeme) (kinds : List TokenKind) : Prop :=
  ∀ cs l, f cs = some l → l.kind ∈ kinds

/-! ## Each recogniser -/

theorem whitespace?_finds : FindsOf whitespace? [.whitespace] := by
  intro cs l h
  simp only [whitespace?] at h
  split at h
  · cases h
    simp
  · cases h

theorem comment?_finds : FindsOf comment? [.comment, .docComment] := by
  intro cs l h
  unfold comment? at h
  split at h
  · cases h
    simp
  · cases h
    simp
  · cases h
    dsimp only
    split <;> simp
  · cases h

theorem closeTag?_finds : FindsOf closeTag? [.closeTag, .question] := by
  intro cs l h
  unfold closeTag? at h
  split at h
  all_goals cases h
  all_goals simp

theorem variableWord?_finds : FindsOf variableWord? [.variable] := by
  intro cs l h
  unfold variableWord? at h
  split at h
  · split at h
    · cases h
      simp
    · cases h
  · cases h

theorem afterInteger_finds (n : Nat) (cs : List Char) :
    (afterInteger n cs).kind ∈ [TokenKind.lNumber, .dNumber] := by
  unfold afterInteger
  dsimp only
  repeat' split
  all_goals simp

theorem number?_finds : FindsOf number? [.lNumber, .dNumber] := by
  intro cs l h
  simp only [number?] at h
  split at h
  · cases h
    simp
  · split at h
    · cases h
      exact afterInteger_finds _ _
    · split at h
      · split at h
        · cases h
          simp
        · cases h
      · cases h

theorem quotedFrom_finds (before : Nat) (quote : Char) (cs : List Char) :
    (quotedFrom before quote cs).kind ∈
      [TokenKind.badCharacter, .shellCommand, .encapsedString, .constantString] := by
  unfold quotedFrom
  dsimp only
  repeat' split
  all_goals simp

theorem quoted?_finds :
    FindsOf quoted? [.badCharacter, .shellCommand, .encapsedString, .constantString] := by
  intro cs l h
  unfold quoted? at h
  split at h
  all_goals cases h
  all_goals exact quotedFrom_finds _ _ _

theorem heredoc?_finds : FindsOf heredoc? [.badCharacter, .heredoc] := by
  intro cs l h
  unfold heredoc? at h
  repeat' split at h
  all_goals cases h
  all_goals simp

theorem word?_finds : FindsOf word? (.identifier :: .kwYieldFrom :: keywords.map Prod.snd) := by
  intro cs l h
  -- a kind that the table answers stands in it
  have hkeyword {word : List Char} {k : TokenKind} (hk : keyword? word = some k) :
      k ∈ TokenKind.identifier :: .kwYieldFrom :: keywords.map Prod.snd :=
    List.mem_cons_of_mem _ (List.mem_cons_of_mem _ (List.mem_map.mpr ⟨_, mem_of_lookup hk, rfl⟩))
  unfold word? at h
  split at h
  · cases h
  · split at h
    · dsimp only at h
      split at h
      · next hk =>
        split at h
        · cases h
          exact List.mem_cons_of_mem _ List.mem_cons_self
        · cases h
          exact hkeyword hk
      · next hk =>
        cases h
        exact hkeyword hk
      · cases h
        exact List.mem_cons_self
    · cases h

theorem cast?_finds : FindsOf cast? (castWords.map Prod.snd) := by
  intro cs l h
  unfold cast? at h
  split at h
  · simp only at h
    split at h
    · obtain ⟨k, hk, rfl⟩ := Option.map_eq_some_iff.mp h
      exact List.mem_map.mpr ⟨_, mem_of_lookup hk, rfl⟩
    · cases h
  · cases h

theorem symbol?_finds : FindsOf symbol? (symbols.map Prod.snd) := by
  intro cs l h
  obtain ⟨s, hs, rfl⟩ := Option.map_eq_some_iff.mp h
  exact List.mem_map.mpr ⟨s, List.mem_of_find?_eq_some hs, rfl⟩

/-! ## All of them -/

theorem findings_finds : ∀ e ∈ findings, FindsOf e.1 e.2 := by
  simp only [findings, List.mem_cons, List.not_mem_nil, or_false, forall_eq_or_imp, forall_eq]
  exact ⟨whitespace?_finds, comment?_finds, closeTag?_finds, variableWord?_finds, number?_finds,
    quoted?_finds, heredoc?_finds, word?_finds, cast?_finds, symbol?_finds⟩

/-- A lexeme of code that is no bad token is found by a recogniser of its kind. -/
theorem code_found {cs : List Char} (h : (code cs).kind ≠ .badCharacter) :
    ∃ f ∈ finders (code cs).kind, f cs = some (code cs) := by
  cases hfind : recognisers.findSome? (· cs) with
  | none =>
    rw [code, hfind] at h
    exact absurd rfl h
  | some l =>
    have hcode : code cs = l := by rw [code, hfind, Option.getD_some]
    obtain ⟨f, hf, hl⟩ := List.exists_of_findSome?_eq_some hfind
    have hf' : f ∈ findings.map Prod.fst := hf
    obtain ⟨e, he, rfl⟩ := List.mem_map.mp hf'
    have hkind : l.kind ∈ e.2 := findings_finds e he cs l hl
    rw [hcode]
    exact ⟨e.1, List.mem_map.mpr ⟨e, List.mem_filter.mpr ⟨he, decide_eq_true hkind⟩, rfl⟩, hl⟩

/-- A lexeme of a kind that only the recogniser `f` finds is found by it. -/
theorem found_by {f : List Char → Option Lexeme} {k : TokenKind} (hf : finders k = [f])
    (hk : k ≠ .badCharacter) {cs : List Char} (h : (code cs).kind = k) : f cs = some (code cs) := by
  have hgood : (code cs).kind ≠ .badCharacter := by
    rw [h]
    exact hk
  obtain ⟨g, hg, hfound⟩ := code_found hgood
  rw [h, hf, List.mem_singleton] at hg
  rw [← hg]
  exact hfound

/-- No recogniser of code finds HTML or an opening tag. -/
theorem finders_html : ∀ k ∈ TokenKind.htmlKinds, k ≠ .badCharacter ∧ finders k = [] := by
  simp only [TokenKind.htmlKinds, TokenKind.openTags, List.mem_cons, List.not_mem_nil, or_false,
    forall_eq_or_imp, forall_eq]
  exact ⟨⟨nofun, rfl⟩, ⟨nofun, rfl⟩, ⟨nofun, rfl⟩⟩

theorem code_kind (cs : List Char) : (code cs).kind ∉ TokenKind.htmlKinds := by
  intro h
  obtain ⟨hbad, hfinders⟩ := finders_html _ h
  obtain ⟨f, hf, _⟩ := code_found hbad
  rw [hfinders] at hf
  exact List.not_mem_nil hf

theorem openTag?_finds : FindsOf openTag? TokenKind.openTags := by
  intro cs l h
  unfold openTag? at h
  repeat' split at h
  all_goals cases h
  all_goals simp [TokenKind.openTags]

theorem html_kind (cs : List Char) : (html cs).kind ∈ TokenKind.htmlKinds := by
  unfold html
  cases h : openTag? cs with
  | none => exact List.mem_cons_self
  | some l => exact List.mem_cons_of_mem _ (openTag?_finds cs l h)

end Lexeme
end PhpSyntax
