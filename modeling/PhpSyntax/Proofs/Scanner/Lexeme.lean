import PhpSyntax.Scanner.Mode

namespace PhpSyntax
namespace Lexeme

/-! ## Runs and words -/

section

variable (p : Char → Bool) (cs : List Char)

theorem take_runLength : cs.take (runLength p cs) = cs.takeWhile p :=
  (List.prefix_iff_eq_take.mp (List.takeWhile_prefix p)).symm

theorem drop_runLength : cs.drop (runLength p cs) = cs.dropWhile p := by
  have h := List.take_append_drop (runLength p cs) cs
  rw [take_runLength] at h
  exact List.append_cancel_left (h.trans List.takeWhile_append_dropWhile.symm)

end

/-- As many characters as a word has, or fewer, start with it only if they are the word. -/
theorem startsWith_iff {word : String} {cs : List Char} (h : cs.length ≤ word.toList.length) :
    startsWith word cs = true ↔ cs.map Char.toLower = word.toList := by
  rw [startsWith, List.isPrefixOf_iff_prefix]
  constructor
  · intro hstarts
    refine (hstarts.eq_of_length_le ?_).symm
    rwa [List.length_map]
  · exact fun e => e ▸ List.prefix_rfl

/-! ## Proper lexemes -/

/-- A lexeme that takes up some text and does not stand for the end of it. -/
def Proper (l : Lexeme) : Prop := 0 < l.length ∧ l.kind ≠ .eof

def FindsProper (f : List Char → Option Lexeme) : Prop := ∀ cs l, f cs = some l → l.Proper

/-! ## Each recogniser -/

theorem whitespace?_proper : FindsProper whitespace? := by
  intro cs l h
  unfold whitespace? at h
  by_cases hn : 0 < runLength isSpace cs
  · simp only [hn, if_true, Option.some.injEq] at h
    subst h
    exact ⟨hn, by simp⟩
  · simp [hn] at h

theorem comment?_proper : FindsProper comment? := by
  intro cs l h
  unfold comment? at h
  split at h
  · cases h
    exact ⟨by simp only; omega, by simp⟩
  · cases h
    exact ⟨by simp only; omega, by simp⟩
  · cases h
    refine ⟨by simp only; omega, ?_⟩
    simp only
    split <;> simp
  · cases h

theorem closeTag?_proper : FindsProper closeTag? := by
  intro cs l h
  unfold closeTag? at h
  split at h
  all_goals cases h
  all_goals exact ⟨by simp, by simp⟩

theorem variableWord?_proper : FindsProper variableWord? := by
  intro cs l h
  unfold variableWord? at h
  split at h
  · next c r =>
    by_cases hc : isWordStart c = true
    · simp only [hc, if_true, Option.some.injEq] at h
      subst h
      exact ⟨by simp only; omega, by simp⟩
    · simp [hc] at h
  · cases h

/-- Decimal digits keep at least their own length, whatever comes behind them. -/
theorem afterInteger_proper {n : Nat} (hn : 0 < n) (cs : List Char) :
    (afterInteger n cs).Proper := by
  unfold afterInteger
  split
  · simp only
    split
    · exact ⟨by simp only; omega, by simp⟩
    · split
      · exact ⟨by simp only; omega, by simp⟩
      · exact ⟨by simp only; omega, by simp⟩
  · exact ⟨by simp only; omega, by simp⟩
  · simp only
    split
    · exact ⟨by simp only; omega, by simp⟩
    · exact ⟨hn, by simp⟩

theorem number?_proper : FindsProper number? := by
  intro cs l h
  unfold number? at h
  simp only at h
  by_cases hb : 0 < basedDigitsLength cs
  · simp only [hb, if_true, Option.some.injEq] at h
    subst h
    exact ⟨by simp only; omega, by simp⟩
  · by_cases hn : 0 < groupsLength Char.isDigit cs
    · simp only [hb, hn, if_true, if_false, Option.some.injEq] at h
      subst h
      exact afterInteger_proper hn _
    · simp only [hb, hn, if_false] at h
      split at h
      · split at h
        · cases h
          exact ⟨by simp only; omega, by simp⟩
        · cases h
      · cases h

theorem quotedFrom_proper (before : Nat) (quote : Char) (cs : List Char) :
    (quotedFrom before quote cs).Proper := by
  unfold quotedFrom
  refine ⟨by simp only; omega, ?_⟩
  dsimp only
  repeat' split
  all_goals simp

theorem quoted?_proper : FindsProper quoted? := by
  intro cs l h
  unfold quoted? at h
  split at h
  all_goals cases h
  all_goals exact quotedFrom_proper _ _ _

theorem heredoc?_proper : FindsProper heredoc? := by
  intro cs l h
  unfold heredoc? at h
  repeat' split at h
  all_goals cases h
  all_goals exact ⟨by simp only; omega, by simp⟩

/-- What a table answers stands in it. -/
theorem mem_of_lookup {α β : Type} [BEq α] [LawfulBEq α] {a : α} {b : β} {l : List (α × β)}
    (h : l.lookup a = some b) : (a, b) ∈ l := by
  obtain ⟨before, behind, e, _⟩ := List.lookup_eq_some_iff.mp h
  rw [e]
  exact List.mem_append_right _ List.mem_cons_self

/-- No keyword is spelled like the end of the input. -/
theorem keyword?_ne_eof {word : List Char} {k : TokenKind} (h : keyword? word = some k) :
    k ≠ .eof := by
  have hall : ∀ e ∈ keywords, e.2 ≠ .eof := by decide
  exact hall _ (mem_of_lookup h)

theorem word?_proper : FindsProper word? := by
  intro cs l h
  unfold word? at h
  split at h
  · cases h
  · next c r =>
    by_cases hc : isWordStart c = true
    · have hpos : 0 < runLength isWordPart (c :: r) := by
        simp [runLength, isWordPart, hc]
      simp only [hc, if_true] at h
      split at h
      · split at h
        all_goals cases h
        · exact ⟨by simp only; omega, by simp⟩
        · exact ⟨hpos, by simp⟩
      · next k hk _ =>
        cases h
        exact ⟨hpos, keyword?_ne_eof (by assumption)⟩
      · cases h
        exact ⟨hpos, by simp⟩
    · simp [hc] at h

theorem cast?_proper : FindsProper cast? := by
  intro cs l h
  unfold cast? at h
  split at h
  · next r =>
    simp only at h
    split at h
    · obtain ⟨k, hk, rfl⟩ := Option.map_eq_some_iff.mp h
      have hall : ∀ e ∈ castWords, e.2 ≠ .eof := by decide
      exact ⟨by simp only; omega, hall _ (mem_of_lookup hk)⟩
    · cases h
  · cases h

theorem symbol?_proper : FindsProper symbol? := by
  intro cs l h
  unfold symbol? at h
  obtain ⟨s, hs, rfl⟩ := Option.map_eq_some_iff.mp h
  have hall : ∀ e ∈ symbols, 0 < e.1.length ∧ e.2 ≠ .eof := by decide
  exact hall s (List.mem_of_find?_eq_some hs)

theorem recognisers_proper : ∀ f ∈ recognisers, FindsProper f := by
  simp only [recognisers, List.mem_cons, List.not_mem_nil, or_false, forall_eq_or_imp, forall_eq]
  exact ⟨whitespace?_proper, comment?_proper, closeTag?_proper, variableWord?_proper,
    number?_proper, quoted?_proper, heredoc?_proper, word?_proper, cast?_proper, symbol?_proper⟩

/-! ## Both languages -/

theorem code_proper (cs : List Char) : (code cs).Proper := by
  unfold code
  cases h : recognisers.findSome? (· cs) with
  | none => exact ⟨by simp, by simp⟩
  | some l =>
    obtain ⟨f, hf, hl⟩ := List.exists_of_findSome?_eq_some h
    exact recognisers_proper f hf cs l hl

theorem openTag?_proper : FindsProper openTag? := by
  intro cs l h
  unfold openTag? at h
  repeat' split at h
  all_goals cases h
  all_goals exact ⟨by simp, by simp⟩

/-- HTML before a tag is not empty: where it would be, the tag is taken. -/
theorem html_proper {cs : List Char} (hcs : cs ≠ []) : (html cs).Proper := by
  unfold html
  cases h : openTag? cs with
  | some l => exact openTag?_proper cs l h
  | none =>
    obtain ⟨c, r, rfl⟩ := List.exists_cons_of_ne_nil hcs
    refine ⟨?_, by simp⟩
    simp only [Option.getD_none, htmlLength, h, Option.isSome_none, Bool.false_eq_true, if_false]
    omega

theorem ofMode_proper (m : Mode) {cs : List Char} (hcs : cs ≠ []) : (ofMode m cs).Proper := by
  cases m with
  | html => exact html_proper hcs
  | code => exact code_proper cs

end Lexeme
end PhpSyntax
