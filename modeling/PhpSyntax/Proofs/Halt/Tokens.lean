import PhpSyntax.Proofs.Halt.Lexeme
import PhpSyntax.Proofs.Scanner.Exact

namespace PhpSyntax

/-- The last one of the tokens is a semicolon, and no closing tag in its part. -/
def EndInSemicolon (ts : List Token) : Prop :=
  ∃ t, ts.getLast? = some t ∧ t.kind = .semicolon ∧ t.text = ";"

instance (ts : List Token) : Decidable (EndInSemicolon ts) :=
  inferInstanceAs (Decidable (∃ t ∈ ts.getLast?, t.kind = .semicolon ∧ t.text = ";"))

namespace Scanner

variable {s u : Scanner} {cs ds : List Char}

/-- Another scanner cuts the same token off, if it finds the same lexeme in front of the
semicolon. -/
theorem cut_mark (hp : u.position = s.position) (hs : s.ahead = cs ++ [';'])
    (hu : u.ahead = cs ++ ';' :: ds) {l : Lexeme} (hl : l.length ≤ cs.length) :
    (u.cut l).1 = (s.cut l).1 := by
  simp only [cut, hp, hs, hu, Lexeme.take_mark _ hl]

/-- The last token takes all that is ahead. -/
theorem ahead_of_last {last : Token} (h : s.tokens = [last]) : s.ahead = last.text.toList := by
  rw [← s.join_tokens, h, List.map_singleton, String.join_cons, String.join_nil,
    String.append_empty]

/-- Where the semicolon is the last token, it is the next one with more text behind it too. -/
theorem tokens_semicolon {last : Token} (hp : u.position = s.position) (hm : u.mode = s.mode)
    (hu : u.ahead = ';' :: ds) (htokens : s.tokens = [last]) (hk : last.kind = .semicolon)
    (htext : last.text = ";") :
    ∃ behind, u.tokens = last :: behind ∧ (String.join (behind.map Token.text)).toList = ds := by
  have hs : s.ahead = [';'] := by
    rw [ahead_of_last htokens, htext]
    rfl
  have hcut : last = (s.cut (Lexeme.ofMode s.mode [';'])).1 := by
    have hnext := next_eq_cut (s := s) (by simp [hs])
    rw [tokens_of_some hnext, hs] at htokens
    exact (List.cons.inj htokens).1.symm
  have hmode : s.mode = .code := by
    cases hmode : s.mode with
    | code => rfl
    | html =>
      rw [hcut, hmode] at hk
      cases hk
  have hnext : u.next = (some last, (u.cut ⟨.semicolon, 1⟩).2) := by
    rw [next_eq_cut (by simp [hu]), hm, hmode, hu, hcut, hmode]
    simp only [Lexeme.ofMode]
    rw [Lexeme.code_mark, Lexeme.code_mark]
    simp only [cut, hp, hs, hu, List.take_succ_cons, List.take_zero]
  refine ⟨_, tokens_of_some hnext, ?_⟩
  rw [join_tokens, cut, hu]
  rfl

/-- A lexeme that is not the last one leaves the semicolon. -/
theorem length_le_of_tokens {l : Lexeme} (hs : s.ahead = cs ++ [';'])
    (h : (s.cut l).2.tokens ≠ []) : l.length ≤ cs.length := by
  refine Nat.le_of_not_lt fun hlt => ?_
  have hempty : (s.cut l).2.ahead = [] := by
    rw [cut, hs]
    apply List.drop_eq_nil_of_le
    rw [List.length_append, List.length_singleton]
    omega
  exact h (tokens_of_none (next_nil hempty))

/-- A lexeme that leaves the semicolon is found whatever stands behind the semicolon. -/
theorem ofMode_mark (hm : u.mode = s.mode) (hs : s.ahead = cs ++ [';'])
    (hu : u.ahead = cs ++ ';' :: ds) (hk : (Lexeme.ofMode s.mode s.ahead).kind ≠ .badCharacter)
    (hle : (Lexeme.ofMode s.mode s.ahead).length ≤ cs.length) :
    Lexeme.ofMode u.mode u.ahead = Lexeme.ofMode s.mode s.ahead := by
  rw [hs] at hk hle
  rw [hm, hu, hs]
  rcases Lexeme.ofMode_firm s.mode cs ds with h | h | h
  · exact h
  · exact absurd h hk
  · exact absurd h (Nat.not_lt_of_le hle)

/-- A scanner with more text behind its last semicolon has the same tokens first. -/
theorem tokens_append {ts : List Token} {last : Token} (hp : u.position = s.position)
    (hm : u.mode = s.mode) (hs : s.ahead = cs ++ [';']) (hu : u.ahead = cs ++ ';' :: ds)
    (htokens : s.tokens = ts ++ [last]) (hk : last.kind = .semicolon) (htext : last.text = ";")
    (hbad : ∀ t ∈ ts, t.kind ≠ .badCharacter) :
    ∃ behind, u.tokens = s.tokens ++ behind ∧
      (String.join (behind.map Token.text)).toList = ds := by
  induction ts generalizing s u cs with
  | nil =>
    have hcs : cs = [] := by
      have hahead := ahead_of_last htokens
      rw [hs, htext] at hahead
      exact List.append_cancel_right (hahead : cs ++ [';'] = [] ++ [';'])
    rw [htokens]
    exact tokens_semicolon hp hm (by rw [hu, hcs]; rfl) htokens hk htext
  | cons t ts ih =>
    have hne : s.ahead ≠ [] := by simp [hs]
    have hne' : u.ahead ≠ [] := by simp [hu]
    let l := Lexeme.ofMode s.mode s.ahead
    have hnext : s.next = (some (s.cut l).1, (s.cut l).2) := next_eq_cut hne
    rw [tokens_of_some hnext] at htokens
    obtain ⟨ht, hrest⟩ := List.cons.inj htokens
    have hahead : (s.cut l).2.ahead = (cs ++ [';']).drop l.length := congrArg (List.drop _) hs
    have hle : l.length ≤ cs.length := by
      refine length_le_of_tokens hs ?_
      rw [hrest]
      exact List.append_ne_nil_of_right_ne_nil ts (List.cons_ne_nil _ _)
    have hsame : Lexeme.ofMode u.mode u.ahead = l := by
      refine ofMode_mark hm hs hu ?_ hle
      have hkind := hbad t List.mem_cons_self
      rwa [← ht] at hkind
    have hcut : (u.cut l).1 = (s.cut l).1 := cut_mark hp hs hu hle
    have hnext' : u.next = (some (s.cut l).1, (u.cut l).2) := by
      rw [next_eq_cut hne', hsame, hcut]
    obtain ⟨behind, hbehind, hjoin⟩ := ih (s := (s.cut l).2) (u := (u.cut l).2)
      (congrArg Token.stop hcut) (congrArg (Mode.after · l.kind) hm)
      (hahead.trans (Lexeme.drop_mark [] hle))
      ((congrArg (List.drop _) hu).trans (Lexeme.drop_mark ds hle)) hrest
      fun v hv => hbad v (List.mem_cons_of_mem _ hv)
    refine ⟨behind, ?_, hjoin⟩
    rw [tokens_of_some hnext', tokens_of_some hnext, hbehind, List.cons_append]

end Scanner

/-- A text that ends in a semicolon and has no bad token keeps its tokens in front of more
text. -/
theorem tokenize_append {source : String} (hend : EndInSemicolon (tokenize source))
    (hbad : ∀ t ∈ tokenize source, t.kind ≠ .badCharacter) (more : String) :
    ∃ behind, tokenize (source ++ more) = tokenize source ++ behind ∧
      String.join (behind.map Token.text) = more := by
  obtain ⟨last, hlast, hk, htext⟩ := hend
  obtain ⟨ts, htokens⟩ := List.getLast?_eq_some_iff.mp hlast
  let read := String.join (ts.map Token.text)
  have hsource : source.toList = read.toList ++ [';'] := by
    rw [← join_tokenize source, htokens, List.map_append, String.join_append, String.toList_append,
      List.map_singleton, String.join_cons, htext, String.join_nil]
    rfl
  have hmore : (source ++ more).toList = read.toList ++ ';' :: more.toList := by
    rw [String.toList_append, hsource, List.append_assoc]
    rfl
  obtain ⟨behind, hbehind, hjoin⟩ := Scanner.tokens_append (s := .ofSource source)
    (u := .ofSource (source ++ more)) rfl rfl hsource hmore htokens hk htext
    fun t ht => hbad t (htokens ▸ List.mem_append_left _ ht)
  exact ⟨behind, hbehind, String.toList_inj.mp hjoin⟩

end PhpSyntax
