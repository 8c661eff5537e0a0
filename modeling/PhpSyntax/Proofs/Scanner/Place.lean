import PhpSyntax.Proofs.Scanner.Exact
import PhpSyntax.Proofs.Scanner.Kinds

namespace PhpSyntax

def Mode.behind (m : Mode) (ts : List Token) : Mode := ts.foldl (fun m t => m.after t.kind) m

theorem Mode.behind_concat (m : Mode) (ts : List Token) (t : Token) :
    m.behind (ts ++ [t]) = (m.behind ts).after t.kind := by
  rw [behind, List.foldl_append]
  rfl

def Token.chars (ts : List Token) : List Char := (String.join (ts.map Token.text)).toList

theorem Token.chars_cons (t : Token) (ts : List Token) :
    chars (t :: ts) = t.text.toList ++ chars ts := by
  rw [chars, List.map_cons, String.join_cons, String.toList_append]
  rfl

/-- The token `t` is what is found in front of `cs` in the language `m`, and `rest` is left. -/
structure Token.FoundIn (t : Token) (m : Mode) (cs rest : List Char) : Prop where
  ahead : cs ≠ []
  kind : t.kind = (Lexeme.ofMode m cs).kind
  text : t.text.toList = cs.take (Lexeme.ofMode m cs).length
  rest : rest = cs.drop (Lexeme.ofMode m cs).length

namespace Token.FoundIn

variable {t : Token} {m : Mode} {cs rest : List Char}

theorem append (h : t.FoundIn m cs rest) : t.text.toList ++ rest = cs := by
  rw [h.text, h.rest, List.take_append_drop]

/-- The kind of a token says which language it is in. -/
theorem html_iff (h : t.FoundIn m cs rest) : t.kind ∈ TokenKind.htmlKinds ↔ m = .html := by
  rw [h.kind]
  cases m with
  | html => exact iff_of_true (Lexeme.html_kind cs) rfl
  | code => exact iff_of_false (Lexeme.code_kind cs) nofun

/-- A token of a kind that only the recogniser `f` finds is found by it. -/
theorem found_by (h : t.FoundIn m cs rest) {f : List Char → Option Lexeme}
    (hf : Lexeme.finders t.kind = [f]) (hbad : t.kind ≠ .badCharacter) :
    ∃ l, f cs = some l ∧ t.kind = l.kind ∧ t.text.toList = cs.take l.length ∧
      rest = cs.drop l.length := by
  have hm : m = .code := by
    cases m with
    | code => rfl
    | html =>
      rw [(Lexeme.finders_html _ (h.html_iff.mpr rfl)).2] at hf
      cases hf
  subst hm
  exact ⟨_, Lexeme.found_by hf hbad h.kind.symm, h.kind, h.text, h.rest⟩

end Token.FoundIn

/-- A token ahead is found where the tokens in front of it end. -/
theorem Scanner.tokens_place {s : Scanner} {before after : List Token} {t : Token}
    (h : s.tokens = before ++ t :: after) :
    ∃ cs, t.FoundIn (s.mode.behind before) cs (Token.chars after) := by
  induction before generalizing s with
  | nil =>
    by_cases hs : s.ahead = []
    · rw [tokens_of_none (next_nil hs)] at h
      cases h
    · rw [tokens_of_some (next_eq_cut hs)] at h
      obtain ⟨ht, hafter⟩ := List.cons.inj h
      refine ⟨s.ahead, hs, ?_, ?_, ?_⟩
      · rw [← ht]
        rfl
      · rw [← ht, cut, String.toList_ofList]
        rfl
      · rw [← hafter, Token.chars, join_tokens]
        rfl
  | cons u before ih =>
    by_cases hs : s.ahead = []
    · rw [tokens_of_none (next_nil hs)] at h
      cases h
    · rw [tokens_of_some (next_eq_cut hs)] at h
      obtain ⟨hu, hrest⟩ := List.cons.inj h
      have hmode : (s.cut (Lexeme.ofMode s.mode s.ahead)).2.mode = s.mode.after u.kind := by
        rw [← hu]
        rfl
      have hplace := ih hrest
      rwa [hmode] at hplace

/-- A token of a text is found where the tokens in front of it end. -/
theorem tokenize_place {source : String} {before after : List Token} {t : Token}
    (h : tokenize source = before ++ t :: after) :
    ∃ cs, t.FoundIn (Mode.html.behind before) cs (Token.chars after) :=
  Scanner.tokens_place h

/-- Of two neighbours the second is found where the first one ends. -/
theorem tokenize_neighbours {source : String} {before after : List Token} {t u : Token}
    (h : tokenize source = before ++ t :: u :: after) :
    ∃ m cs ds, t.FoundIn m cs ds ∧ u.FoundIn (m.after t.kind) ds (Token.chars after) := by
  obtain ⟨cs, ht⟩ := tokenize_place h
  have h' : tokenize source = (before ++ [t]) ++ u :: after := by
    rw [h, List.append_assoc, List.singleton_append]
  obtain ⟨ds, hu⟩ := tokenize_place h'
  rw [Mode.behind_concat] at hu
  rw [Token.chars_cons, hu.append] at ht
  exact ⟨_, cs, ds, ht, hu⟩

end PhpSyntax
