import PhpSyntax.Proofs.Formula.Basic
import PhpSyntax.Proofs.Scanner.Place

namespace PhpSyntax

/-- The kinds of the keywords and of the magic constants, which stand together in the list of
kinds. -/
def TokenKind.isReserved (k : TokenKind) : Bool :=
  kwAbstract.index ≤ k.index && k.index ≤ nsC.index

def IsSpelled (word : String) (cs : List Char) : Prop := cs.map Char.toLower = word.toList

/-- What the kind of a token says about the word that it is, in front of the characters
`rest`. -/
structure Classified (k : TokenKind) (text rest : List Char) : Prop where
  /-- An identifier is a word and no keyword. -/
  identifier : k = .identifier → isWord text = true ∧ ∀ e ∈ keywords, ¬IsSpelled e.1 text
  /-- A keyword or magic constant is spelled as one of its kind. -/
  reserved : k.isReserved = true → k ≠ .kwYieldFrom →
    ∃ spelling, (spelling, k) ∈ keywords ∧ IsSpelled spelling text
  /-- The keyword of two words has white space between them. -/
  yieldFrom : k = .kwYieldFrom → ∃ first blanks second, text = first ++ blanks ++ second ∧
    IsSpelled "yield" first ∧ blanks ≠ [] ∧ (∀ c ∈ blanks, isSpace c = true) ∧
    IsSpelled "from" second
  /-- A variable is a dollar sign and a word. -/
  sigil : k = .variable → ∃ word, text = '$' :: word ∧ isWord word = true
  /-- No character that could continue the word is behind it. -/
  longest : k = .identifier ∨ k = .variable ∨ k.isReserved = true → endsWord rest = true

/-- Nothing is said of other kinds. -/
theorem classified_of_other {k : TokenKind} (hidentifier : k ≠ .identifier)
    (hvariable : k ≠ .variable) (hreserved : k.isReserved = false) (text rest : List Char) :
    Classified k text rest := by
  have hyield : k ≠ .kwYieldFrom := by
    intro e
    rw [e] at hreserved
    cases hreserved
  refine ⟨fun e => absurd e hidentifier, fun h => ?_, fun e => absurd e hyield,
    fun e => absurd e hvariable, fun h => ?_⟩
  · rw [hreserved] at h
    cases h
  · rw [hreserved] at h
    rcases h with h | h | h
    · exact absurd h hidentifier
    · exact absurd h hvariable
    · cases h

namespace Lexeme

/-! ## The end of a word -/

theorem endsWord_dropWhile (cs : List Char) : endsWord (cs.dropWhile isWordPart) = true := by
  cases h : cs.dropWhile isWordPart with
  | nil => rfl
  | cons c r =>
    have hne : cs.dropWhile isWordPart ≠ [] := by simp [h]
    have hc := List.head_dropWhile_not isWordPart hne
    simp only [h, List.head_cons] at hc
    simp [endsWord, hc]

theorem isWord_takeWhile {c : Char} {r : List Char} (hc : isWordStart c = true) :
    isWord (c :: r.takeWhile isWordPart) = true := by
  simp [isWord, hc, List.all_takeWhile]

/-! ## Words and variables -/

/-- Behind `yield`, blanks and the word `from`. -/
theorem fromLength?_spec {cs : List Char} {m : Nat} (h : fromLength? cs = some m) :
    ∃ blanks word, cs.take m = blanks ++ word ∧ blanks ≠ [] ∧ (∀ c ∈ blanks, isSpace c = true) ∧
      IsSpelled "from" word ∧ endsWord (cs.drop m) = true := by
  simp only [fromLength?] at h
  split at h
  · next hfrom =>
    rw [Bool.and_eq_true, Bool.and_eq_true, decide_eq_true_eq] at hfrom
    obtain ⟨⟨hpos, hword⟩, hends⟩ := hfrom
    cases h
    refine ⟨cs.takeWhile isSpace, (cs.drop (runLength isSpace cs)).take 4, ?_, ?_, ?_, ?_, ?_⟩
    · rw [List.take_add, take_runLength]
    · exact List.ne_nil_of_length_pos hpos
    · exact fun c hc => List.all_eq_true.mp List.all_takeWhile c hc
    · exact (startsWith_iff (List.length_take_le _ _)).mp hword
    · rwa [← List.drop_drop]
  · cases h

theorem isSpelled_lower (word : List Char) :
    IsSpelled (String.ofList (word.map Char.toLower)) word :=
  String.toList_ofList.symm

theorem classified_of_keyword? {word rest : List Char} {k : TokenKind}
    (hk : keyword? word = some k) (hends : endsWord rest = true) : Classified k word rest := by
  have hmem : (String.ofList (word.map Char.toLower), k) ∈ keywords := mem_of_lookup hk
  have hall : ∀ e ∈ keywords, e.2 ≠ .identifier ∧ e.2 ≠ .kwYieldFrom ∧ e.2 ≠ .variable := by
    decide
  obtain ⟨hidentifier, hyield, hvariable⟩ := hall _ hmem
  exact ⟨fun e => absurd e hidentifier, fun _ _ => ⟨_, hmem, isSpelled_lower word⟩,
    fun e => absurd e hyield, fun e => absurd e hvariable, fun _ => hends⟩

theorem classified_of_identifier {word rest : List Char} (hword : isWord word = true)
    (hk : keyword? word = none) (hends : endsWord rest = true) :
    Classified .identifier word rest := by
  refine ⟨fun _ => ⟨hword, fun e he hspelled => ?_⟩, fun h => absurd h (by decide), nofun, nofun,
    fun _ => hends⟩
  have hne := List.lookup_eq_none_iff.mp hk e he
  rw [hspelled, String.ofList_toList] at hne
  simp at hne

theorem word?_classified {cs : List Char} {l : Lexeme} (h : word? cs = some l) :
    Classified l.kind (cs.take l.length) (cs.drop l.length) := by
  unfold word? at h
  split at h
  · cases h
  · next c r =>
    split at h
    · next hc =>
      have htake := take_runLength isWordPart (c :: r)
      have hends : endsWord ((c :: r).drop (runLength isWordPart (c :: r))) = true := by
        rw [drop_runLength]
        exact endsWord_dropWhile _
      dsimp only at h
      split at h
      · next hk =>
        split at h
        · next m hm =>
          cases h
          obtain ⟨blanks, second, htext, hne, hblank, hfrom, hrest⟩ := fromLength?_spec hm
          have hyield : IsSpelled "yield" ((c :: r).take (runLength isWordPart (c :: r))) := by
            obtain ⟨spelling, hmem, hspelled⟩ :=
              (classified_of_keyword? hk hends).reserved rfl nofun
            have honly : ∀ e ∈ keywords, e.2 = .kwYield → e.1 = "yield" := by decide
            exact honly _ hmem rfl ▸ hspelled
          refine ⟨nofun, fun _ hk => absurd rfl hk, fun _ => ?_, nofun, fun _ => ?_⟩
          · exact ⟨_, blanks, second, by rw [List.take_add, htext, List.append_assoc], hyield, hne,
              hblank, hfrom⟩
          · rwa [← List.drop_drop]
        · cases h
          exact classified_of_keyword? hk hends
      · next hk =>
        cases h
        exact classified_of_keyword? hk hends
      · next hk =>
        cases h
        refine classified_of_identifier ?_ hk hends
        rw [htake, List.takeWhile_cons_of_pos (by simp [isWordPart, hc])]
        exact isWord_takeWhile hc
    · cases h

theorem variableWord?_classified {cs : List Char} {l : Lexeme} (h : variableWord? cs = some l) :
    Classified l.kind (cs.take l.length) (cs.drop l.length) := by
  unfold variableWord? at h
  split at h
  · next c r =>
    split at h
    · next hc =>
      cases h
      have htext : ('$' :: c :: r).take (2 + runLength isWordPart r) =
          '$' :: c :: r.takeWhile isWordPart := by
        rw [Nat.add_comm, List.take_succ_cons, List.take_succ_cons, take_runLength]
      have hrest : ('$' :: c :: r).drop (2 + runLength isWordPart r) = r.dropWhile isWordPart := by
        rw [Nat.add_comm, List.drop_succ_cons, List.drop_succ_cons, drop_runLength]
      have hreserved : ¬TokenKind.variable.isReserved = true := by decide
      refine ⟨nofun, fun h => absurd h hreserved, nofun, fun _ => ?_, fun _ => ?_⟩
      · exact ⟨_, htext, isWord_takeWhile hc⟩
      · rw [hrest]
        exact endsWord_dropWhile r
    · cases h
  · cases h

/-- Identifiers and keywords are found by one recogniser only. -/
theorem finders_word {k : TokenKind} (h : k = .identifier ∨ k.isReserved = true) :
    finders k = [word?] ∧ k ≠ .badCharacter := by
  have hall : ∀ k ∈ TokenKind.all, k = .identifier ∨ k.isReserved = true →
      findings.map (fun e => decide (k ∈ e.2)) =
        [false, false, false, false, false, false, false, true, false, false] ∧
      k ≠ .badCharacter := by
    decide +kernel
  obtain ⟨hfound, hbad⟩ := hall k (TokenKind.mem_all k) h
  refine ⟨?_, hbad⟩
  simp only [findings, List.map_cons, List.map_nil, List.cons.injEq] at hfound
  simp only [finders, findings, List.filter_cons, hfound]
  rfl

end Lexeme

/-- The words among the tokens of a text are classified by what they are at their full length:
identifiers are no keywords, keywords are spelled as their kind says in any case, variables are
a dollar sign and a word, and no character that could continue any of them is behind it. -/
theorem tokenize_classified {source : String} {before after : List Token} {t : Token}
    (h : tokenize source = before ++ t :: after) :
    Classified t.kind t.text.toList (Token.chars after) := by
  obtain ⟨cs, ht⟩ := tokenize_place h
  by_cases hword : t.kind = .identifier ∨ t.kind.isReserved = true
  · obtain ⟨hfinders, hbad⟩ := Lexeme.finders_word hword
    obtain ⟨l, hl, hkind, htext, hrest⟩ := ht.found_by hfinders hbad
    rw [hkind, htext, hrest]
    exact Lexeme.word?_classified hl
  · obtain ⟨hidentifier, hreserved⟩ := not_or.mp hword
    by_cases hvariable : t.kind = .variable
    · have hfinders : Lexeme.finders t.kind = [Lexeme.variableWord?] := by
        rw [hvariable]
        rfl
      obtain ⟨l, hl, hkind, htext, hrest⟩ := ht.found_by hfinders (by rw [hvariable]; nofun)
      rw [hkind, htext, hrest]
      exact Lexeme.variableWord?_classified hl
    · exact classified_of_other hidentifier hvariable (Bool.not_eq_true _ ▸ hreserved) _ _

/-- The keyword of two words in `<?php YIELD  from $a;` ends in front of a blank. -/
theorem tokenize_classified_yield :
    ∃ before after t, tokenize "<?php YIELD  from $a;" = before ++ t :: after ∧
      t.kind = .kwYieldFrom ∧ t.text = "YIELD  from" ∧
        Classified t.kind t.text.toList (Token.chars after) := by
  have h : ∃ t, tokenize "<?php YIELD  from $a;" =
      (tokenize "<?php YIELD  from $a;").take 1 ++
        t :: (tokenize "<?php YIELD  from $a;").drop 2 ∧
      t.kind = .kwYieldFrom ∧ t.text = "YIELD  from" :=
    ⟨⟨.kwYieldFrom, "YIELD  from", ⟨1, 6, 6⟩, ⟨1, 17, 17⟩⟩, by decide +kernel⟩
  obtain ⟨t, htokens, hkind, htext⟩ := h
  exact ⟨_, _, t, htokens, hkind, htext, tokenize_classified htokens⟩

end PhpSyntax
