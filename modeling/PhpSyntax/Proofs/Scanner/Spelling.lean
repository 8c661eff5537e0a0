/-
What the kind of a token says about its text.

A token of a text is a lexeme cut off what lay ahead (`tokenize_place`), so what
the recognisers say of a kind holds of every token of that kind: a closing tag is no
semicolon, an identifier is no keyword, a reserved word is the keyword of its kind, a
variable starts with a dollar sign, and an opening tag that stands for a keyword and the
marks of a loop's header are always written the same.  A keyword has no character in it
that is wider than a byte or starts a line.
-/
import PhpSyntax.Proofs.Scanner.Place
import PhpSyntax.Token.Category

namespace PhpSyntax

namespace TokenKind

def headerMarks : List TokenKind := [lParen, semicolon, rParen]

/-- What the grammar relies on in the spelling of a token of kind `k`. -/
structure Spells (k : TokenKind) (text : List Char) : Prop where
  closing : k = .closeTag → text ≠ [';']
  word : k = .identifier → Lexeme.keyword? text = none ∧ text.head? ≠ some '<'
  reserved : k ∈ reservedWords → Lexeme.keyword? text = some k
  sigil : k = .variable → text.head? = some '$'
  echo : k = .openTagWithEcho → text = ['<', '?', '=']
  mark : k ∈ headerMarks → k.symbol.map String.toList = some text
  arrow : k = .doubleArrow → text = ['=', '>']

def isFree (k : TokenKind) : Bool :=
  k ∉ [closeTag, identifier, «variable», openTagWithEcho, doubleArrow] ++ headerMarks &&
    k ∉ reservedWords

theorem spells_of_isFree {k : TokenKind} (h : k.isFree = true) (text : List Char) :
    k.Spells text := by
  rw [isFree, Bool.and_eq_true, decide_eq_true_eq, decide_eq_true_eq] at h
  obtain ⟨hnot, hreserved⟩ := h
  have hmark : k ∉ headerMarks := fun hk => hnot (List.mem_append_right _ hk)
  refine ⟨fun e => ?_, fun e => ?_, fun hk => absurd hk hreserved, fun e => ?_, fun e => ?_,
    fun hk => absurd hk hmark, fun e => ?_⟩
  all_goals
    subst e
    exact absurd (by decide) hnot

theorem spells_of_mark {k : TokenKind} (hk : k ∈ headerMarks) {text : List Char}
    (h : k.symbol.map String.toList = some text) : k.Spells text := by
  have hk' : k = .lParen ∨ k = .semicolon ∨ k = .rParen := by simpa [headerMarks] using hk
  rcases hk' with rfl | rfl | rfl
  all_goals exact ⟨nofun, nofun, fun hr => absurd hr (by decide), nofun, nofun, fun _ => h, nofun⟩

theorem spells_of_arrow {text : List Char} (h : text = ['=', '>']) : doubleArrow.Spells text :=
  ⟨nofun, nofun, fun hr => absurd hr (by decide), nofun, nofun, fun hk => absurd hk (by decide),
    fun _ => h⟩

end TokenKind

namespace Lexeme

def FindsSpelled (f : List Char → Option Lexeme) : Prop :=
  ∀ cs l, f cs = some l → l.kind.Spells (cs.take l.length)

/-- Where every kind that the recogniser finds can be spelled in any way, nothing more is
known of what it takes. -/
theorem FindsOf.spelled {f : List Char → Option Lexeme} {kinds : List TokenKind}
    (h : FindsOf f kinds) (hfree : ∀ k ∈ kinds, k.isFree = true) : FindsSpelled f :=
  fun cs l hl => TokenKind.spells_of_isFree (hfree _ (h cs l hl)) _

/-! ## Marks, tags and words -/

/-- A mark is spelled as the table of symbols has it. -/
theorem symbol?_text {cs : List Char} {l : Lexeme} (h : symbol? cs = some l) :
    ∃ s ∈ symbols, l.kind = s.2 ∧ cs.take l.length = s.1.toList := by
  obtain ⟨s, hs, rfl⟩ := Option.map_eq_some_iff.mp h
  have hfront : s.1.toList.isPrefixOf cs = true :=
    List.find?_some (p := fun s : String × TokenKind => s.1.toList.isPrefixOf cs) hs
  obtain ⟨r, rfl⟩ := List.isPrefixOf_iff_prefix.mp hfront
  exact ⟨s, List.mem_of_find?_eq_some hs, rfl, List.take_left' String.length_toList⟩

theorem symbol?_spelled : FindsSpelled symbol? := by
  intro cs l h
  obtain ⟨s, hs, hkind, htext⟩ := symbol?_text h
  have hall : ∀ e ∈ symbols, e.2.isFree = true ∨
      (e.2 ∈ TokenKind.headerMarks ∧ e.2.symbol = some e.1) ∨
      (e.2 = .doubleArrow ∧ e.1.toList = ['=', '>']) := by decide
  rw [hkind, htext]
  rcases hall s hs with hfree | ⟨hmark, hsymbol⟩ | ⟨harrow, hword⟩
  · exact TokenKind.spells_of_isFree hfree _
  · exact TokenKind.spells_of_mark hmark (by rw [hsymbol]; rfl)
  · exact harrow ▸ TokenKind.spells_of_arrow hword

theorem openTag?_spelled : FindsSpelled openTag? := by
  intro cs l h
  unfold openTag? at h
  split at h
  · next r =>
    split at h
    · next hr =>
      cases h
      refine ⟨nofun, nofun, fun hk => absurd hk (by decide), nofun, fun _ => ?_,
        fun hk => absurd hk (by decide), nofun⟩
      cases r with
      | nil => cases hr
      | cons c r =>
        cases hr
        rfl
    · repeat' split at h
      all_goals cases h
      all_goals exact TokenKind.spells_of_isFree rfl _
  · cases h

theorem closeTag?_spelled : FindsSpelled closeTag? := by
  intro cs l h
  unfold closeTag? at h
  split at h
  · cases h
    exact ⟨fun _ => by simp, nofun, fun hk => absurd hk (by decide), nofun, nofun,
      fun hk => absurd hk (by decide), nofun⟩
  · cases h
    exact ⟨fun _ => by simp, nofun, fun hk => absurd hk (by decide), nofun, nofun,
      fun hk => absurd hk (by decide), nofun⟩
  · cases h
    exact TokenKind.spells_of_isFree rfl _
  · cases h
    exact ⟨fun _ => by simp, nofun, fun hk => absurd hk (by decide), nofun, nofun,
      fun hk => absurd hk (by decide), nofun⟩
  · cases h

theorem variableWord?_spelled : FindsSpelled variableWord? := by
  intro cs l h
  unfold variableWord? at h
  split at h
  · split at h
    · cases h
      have hword : TokenKind.variable ∉ TokenKind.reservedWords := by decide
      have hmark : TokenKind.variable ∉ TokenKind.headerMarks := by decide
      refine ⟨nofun, nofun, fun hk => absurd hk hword, fun _ => ?_, nofun,
        fun hk => absurd hk hmark, nofun⟩
      simp [Nat.add_comm 2, List.take_succ_cons]
    · cases h
  · cases h

/-- A keyword is spelled as its kind says. -/
theorem spells_of_keyword? {text : List Char} {k : TokenKind} (h : keyword? text = some k) :
    k.Spells text := by
  have hall : ∀ e ∈ keywords,
      e.2 ∉ [TokenKind.closeTag, .identifier, .variable, .openTagWithEcho, .doubleArrow] ∧
        e.2 ∉ TokenKind.headerMarks := by decide
  have hk : k ∉ [TokenKind.closeTag, .identifier, .variable, .openTagWithEcho, .doubleArrow] :=
    (hall _ (mem_of_lookup h)).1
  have hmark : k ∉ TokenKind.headerMarks := (hall _ (mem_of_lookup h)).2
  refine ⟨fun e => ?_, fun e => ?_, fun _ => h, fun e => ?_, fun e => ?_,
    fun hk => absurd hk hmark, fun e => ?_⟩
  all_goals
    subst e
    exact absurd (by decide) hk

theorem word?_spelled : FindsSpelled word? := by
  intro cs l h
  unfold word? at h
  split at h
  · cases h
  · next c r =>
    split at h
    · next hstart =>
      dsimp only at h
      split at h
      · next hk =>
        split at h
        · cases h
          exact TokenKind.spells_of_isFree rfl _
        · cases h
          exact spells_of_keyword? hk
      · next k _ hk =>
        cases h
        exact spells_of_keyword? hk
      · next hk =>
        cases h
        have hword : TokenKind.identifier ∉ TokenKind.reservedWords := by decide
        have hmark : TokenKind.identifier ∉ TokenKind.headerMarks := by decide
        refine ⟨nofun, fun _ => ⟨hk, fun hhead => ?_⟩, fun hr => absurd hr hword, nofun, nofun,
          fun hm => absurd hm hmark, nofun⟩
        have hc : c = '<' := by
          cases hn : runLength isWordPart (c :: r) with
          | zero => simp [hn] at hhead
          | succ n => simpa [hn] using hhead
        rw [hc] at hstart
        exact absurd hstart (by decide)
    · cases h

theorem recognisers_spelled : ∀ f ∈ recognisers, FindsSpelled f := by
  simp only [recognisers, List.mem_cons, List.not_mem_nil, or_false, forall_eq_or_imp, forall_eq]
  exact ⟨whitespace?_finds.spelled (by decide), comment?_finds.spelled (by decide),
    closeTag?_spelled, variableWord?_spelled, number?_finds.spelled (by decide),
    quoted?_finds.spelled (by decide), heredoc?_finds.spelled (by decide), word?_spelled,
    cast?_finds.spelled (by decide), symbol?_spelled⟩

theorem code_spelled (cs : List Char) : (code cs).kind.Spells (cs.take (code cs).length) := by
  unfold code
  cases h : recognisers.findSome? (· cs) with
  | none => exact TokenKind.spells_of_isFree rfl _
  | some l =>
    obtain ⟨f, hf, hl⟩ := List.exists_of_findSome?_eq_some h
    exact recognisers_spelled f hf cs l hl

theorem html_spelled (cs : List Char) : (html cs).kind.Spells (cs.take (html cs).length) := by
  unfold html
  cases h : openTag? cs with
  | none => exact TokenKind.spells_of_isFree rfl _
  | some l => exact openTag?_spelled cs l h

theorem ofMode_spelled (m : Mode) (cs : List Char) :
    (ofMode m cs).kind.Spells (cs.take (ofMode m cs).length) := by
  cases m with
  | html => exact html_spelled cs
  | code => exact code_spelled cs

end Lexeme

/-! ## Tokens -/

/-- The tokens of a text are spelled as their kinds say. -/
theorem tokenize_spelled {source : String} {t : Token} (h : t ∈ tokenize source) :
    t.kind.Spells t.text.toList := by
  obtain ⟨before, after, hsource⟩ := List.append_of_mem h
  obtain ⟨cs, ht⟩ := tokenize_place hsource
  rw [ht.kind, ht.text]
  exact Lexeme.ofMode_spelled _ cs

/-- A token of a kind that only the table of symbols has is spelled as there. -/
theorem tokenize_symbol {source : String} {t : Token} (h : t ∈ tokenize source)
    (hf : Lexeme.finders t.kind = [Lexeme.symbol?]) (hbad : t.kind ≠ .badCharacter) :
    ∃ s ∈ symbols, t.kind = s.2 ∧ t.text = s.1 := by
  obtain ⟨before, after, hsource⟩ := List.append_of_mem h
  obtain ⟨cs, ht⟩ := tokenize_place hsource
  obtain ⟨l, hl, hkind, htext, _⟩ := ht.found_by hf hbad
  obtain ⟨s, hs, hkind', htext'⟩ := Lexeme.symbol?_text hl
  exact ⟨s, hs, hkind.trans hkind', String.toList_inj.mp (htext.trans htext')⟩

end PhpSyntax
