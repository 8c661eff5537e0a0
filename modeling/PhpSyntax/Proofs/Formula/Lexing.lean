/-
The tokens of a formula are found again.

Each token of a formula is followed by a blank or by the semicolon, neither of which belongs
to a word, a number or an operator, so the longest match takes the token and nothing else
(`Lexes`).  Only a parenthesis might be the start of a cast, which what begins a formula rules
out.  Token by token the program is cut into what it was written from
(`grammarTokens_program`).
-/
import PhpSyntax.Proofs.Formula.Basic
import PhpSyntax.Proofs.Halt.Tokens
import PhpSyntax.Proofs.Layout.Independence

namespace PhpSyntax

/-! ## What follows a token -/

/-- The tokens to come, with a blank in front of each and a semicolon behind the last. -/
def behind : List (TokenKind × String) → List Char
  | [] => [';']
  | f :: fs => ' ' :: (f.2.toList ++ behind fs)

def Apart (ds : List Char) : Prop := ∃ r, ds = ' ' :: r ∨ ds = ';' :: r

theorem behind_apart (fs : List (TokenKind × String)) : Apart (behind fs) := by
  cases fs with
  | nil => exact ⟨[], .inr rfl⟩
  | cons f fs => exact ⟨_, .inl rfl⟩

theorem Formula.toList_program (f : Formula) :
    f.program.toList = "<?php".toList ++ behind f.tokens := by
  have hbehind (t : TokenKind × String) (ts : List (TokenKind × String)) :
      (" ".intercalate ((t :: ts).map Prod.snd)).toList ++ [';'] =
        t.2.toList ++ behind ts := by
    induction ts generalizing t with
    | nil => simp [behind]
    | cons u ts ih =>
      have ih := ih u
      simp only [List.map_cons] at ih
      simp only [List.map_cons, String.intercalate_cons_cons, String.toList_append,
        List.append_assoc, ih, behind]
      rfl
  cases htokens : f.tokens with
  | nil => cases f <;> simp [tokens] at htokens
  | cons t ts =>
    rw [program, htokens, String.toList_append, String.toList_append, List.append_assoc]
    exact congrArg (_ ++ ·) (hbehind t ts)

namespace Lexeme

/-! ## Words and numbers -/

/-- The first recogniser that finds something decides. -/
theorem code_of_first (fs : List (List Char → Option Lexeme)) (f : List Char → Option Lexeme)
    {gs : List (List Char → Option Lexeme)} {cs : List Char} {l : Lexeme}
      (h : recognisers = fs ++ f :: gs) (hfs : ∀ g ∈ fs, g cs = none)
    (hf : f cs = some l) : code cs = l := by
  rw [code, h, List.findSome?_append, List.findSome?_eq_none_iff.mpr hfs, Option.none_or,
    List.findSome?_cons, hf]
  rfl

/-- A run of characters ends where what comes next is none of them. -/
theorem runLength_apart {p : Char → Bool} (hblank : p ' ' = false) (hmark : p ';' = false)
    {cs ds : List Char} (hcs : cs.all p = true) (hds : Apart ds) :
    runLength p (cs ++ ds) = cs.length := by
  have hstop : ds.takeWhile p = [] := by
    obtain ⟨r, rfl | rfl⟩ := hds
    · exact List.takeWhile_cons_of_neg (by rw [hblank]; exact Bool.false_ne_true)
    · exact List.takeWhile_cons_of_neg (by rw [hmark]; exact Bool.false_ne_true)
  rw [runLength, List.takeWhile_append_of_pos (List.all_eq_true.mp hcs), hstop, List.append_nil]

theorem code_variable {cs ds : List Char} (hcs : isWord cs = true) (hds : Apart ds) :
    code ('$' :: (cs ++ ds)) = ⟨.variable, cs.length + 1⟩ := by
  cases cs with
  | nil => cases hcs
  | cons c cs =>
    obtain ⟨hstart, hpart⟩ := Bool.and_eq_true_iff.mp hcs
    have hrun := runLength_apart (p := isWordPart) (by decide) (by decide) hpart hds
    refine code_of_first [whitespace?, comment?, closeTag?] variableWord? rfl ?_ ?_
    · simp only [List.mem_cons, List.not_mem_nil, or_false, forall_eq_or_imp, forall_eq]
      exact ⟨rfl, rfl, rfl⟩
    · rw [List.cons_append, variableWord?, if_pos hstart, hrun, List.length_cons, Nat.add_comm 2]

theorem groupTailLength_digit {digit : Char → Bool} {c : Char} (hc : digit c = true)
    (r : List Char) : groupTailLength digit (c :: r) = groupsLength digit (c :: r) := by
  cases r with
  | nil => simp [groupsLength, groupTailLength, hc]
  | cons d r => rw [groupTailLength, groupsLength, if_pos hc, if_pos hc]

theorem groupTailLength_apart {ds : List Char} (hds : Apart ds) :
    groupTailLength Char.isDigit ds = 0 := by
  obtain ⟨r, rfl | rfl⟩ := hds
  all_goals cases r <;> rfl

/-- A numeral begins with a digit. -/
theorem isDecimal_head {cs : List Char} (h : isDecimal cs = true) :
    ∃ c r, cs = c :: r ∧ c.isDigit = true := by
  fun_cases isDecimal cs with
  | case1 => cases h
  | case2 c => exact ⟨c, [], rfl, h⟩
  | case3 c r => exact ⟨c, _, rfl, (Bool.and_eq_true_iff.mp h).1⟩
  | case4 c r hne hmark =>
    rw [isDecimal.eq_4 _ _ hne hmark] at h
    exact ⟨c, r, rfl, (Bool.and_eq_true_iff.mp h).1⟩

/-- The digits of a numeral are one number. -/
theorem groupsLength_isDecimal {cs ds : List Char} (hcs : isDecimal cs = true) (hds : Apart ds) :
    groupsLength Char.isDigit (cs ++ ds) = cs.length := by
  have hgroups {c : Char} (hc : c.isDigit = true) (r : List Char) :
      groupsLength Char.isDigit (c :: r) = 1 + groupTailLength Char.isDigit r := if_pos hc
  fun_induction isDecimal cs with
  | case1 => cases hcs
  | case2 c =>
    rw [List.singleton_append, hgroups hcs, groupTailLength_apart hds]
    rfl
  | case3 c r ih =>
    obtain ⟨hc, hr⟩ := Bool.and_eq_true_iff.mp hcs
    obtain ⟨d, r, rfl, hd⟩ := isDecimal_head hr
    have htail : groupTailLength Char.isDigit ('_' :: (d :: r ++ ds)) =
        2 + groupTailLength Char.isDigit (r ++ ds) := by
      simp [groupTailLength, hd]
    have ih := ih hr
    rw [List.cons_append, hgroups hd, List.length_cons] at ih
    rw [List.cons_append, List.cons_append, hgroups hc, htail, List.length_cons, List.length_cons,
      List.length_cons]
    omega
  | case4 c r hne hmark ih =>
    obtain ⟨hc, hr⟩ := Bool.and_eq_true_iff.mp hcs
    obtain ⟨d, r, rfl, hd⟩ := isDecimal_head hr
    have ih := ih hr
    rw [List.cons_append] at ih
    rw [List.cons_append, hgroups hc, List.cons_append, groupTailLength_digit hd, ih,
      List.length_cons (a := c), Nat.add_comm]

theorem isDecimal_chars {cs : List Char} (h : isDecimal cs = true) :
    ∀ c ∈ cs, c.isDigit = true ∨ c = '_' := by
  fun_induction isDecimal cs with
  | case1 => cases h
  | case2 c => exact List.forall_mem_singleton.mpr (.inl h)
  | case3 c r ih =>
    obtain ⟨hc, hr⟩ := Bool.and_eq_true_iff.mp h
    exact List.forall_mem_cons.mpr ⟨.inl hc, List.forall_mem_cons.mpr ⟨.inr rfl, ih hr⟩⟩
  | case4 c r hne hmark ih =>
    obtain ⟨hc, hr⟩ := Bool.and_eq_true_iff.mp h
    exact List.forall_mem_cons.mpr ⟨.inl hc, ih hr⟩

/-- No letter of a base stands in a numeral. -/
theorem basedDigitsLength_isDecimal {cs ds : List Char} (hcs : isDecimal cs = true)
    (hds : Apart ds) : basedDigitsLength (cs ++ ds) = 0 := by
  have hsecond (c d : Char) (r : List Char) (h : cs ++ ds = c :: d :: r) :
      d.isDigit = true ∨ d = '_' ∨ d = ' ' ∨ d = ';' := by
    match cs with
    | [] => cases hcs
    | [a] =>
      obtain ⟨r, rfl | rfl⟩ := hds
      · cases h
        exact .inr (.inr (.inl rfl))
      · cases h
        exact .inr (.inr (.inr rfl))
    | a :: b :: cs =>
      cases h
      rcases isDecimal_chars hcs d (by simp) with hd | hd
      · exact .inl hd
      · exact .inr (.inl hd)
  refine basedDigitsLength_of_ne ?_ ?_ ?_ ?_
  all_goals
    intro r h
    have := hsecond _ _ _ h
    revert this
    decide

theorem number?_isDecimal {cs ds : List Char} (hcs : isDecimal cs = true) (hds : Apart ds) :
    number? (cs ++ ds) = some ⟨.lNumber, cs.length⟩ := by
  have hpos : 0 < cs.length := by
    obtain ⟨c, r, rfl, _⟩ := isDecimal_head hcs
    exact Nat.succ_pos _
  have hafter : afterInteger cs.length ds = ⟨.lNumber, cs.length⟩ := by
    obtain ⟨r, rfl | rfl⟩ := hds <;> rfl
  simp only [number?, basedDigitsLength_isDecimal hcs hds, groupsLength_isDecimal hcs hds,
    List.drop_left, hafter, Nat.lt_irrefl, if_false, if_pos hpos]

theorem code_decimal {cs ds : List Char} (hcs : isDecimal cs = true) (hds : Apart ds) :
    code (cs ++ ds) = ⟨.lNumber, cs.length⟩ := by
  refine code_of_first [whitespace?, comment?, closeTag?, variableWord?] number? rfl ?_
    (number?_isDecimal hcs hds)
  obtain ⟨c, r, rfl, hc⟩ := isDecimal_head hcs
  have hne : ∀ d ∈ [' ', '\t', '\n', '\r', '#', '/', '?', '$'], c ≠ d := by
    have hnot : [' ', '\t', '\n', '\r', '#', '/', '?', '$'].all (!·.isDigit) = true := rfl
    rintro d hd rfl
    have hdigit := List.all_eq_true.mp hnot c hd
    rw [hc] at hdigit
    cases hdigit
  simp only [List.mem_cons, List.not_mem_nil, or_false, forall_eq_or_imp, forall_eq] at hne ⊢
  refine ⟨?_, ?_, ?_, ?_⟩
  · simp [whitespace?, runLength, isSpace, isBlank, hne]
  · simp [comment?, hne]
  · simp [closeTag?, hne]
  · simp [variableWord?, hne]

/-! ## Operators and parentheses -/

def beforeWords : List (List Char → Option Lexeme) :=
  [whitespace?, comment?, closeTag?, variableWord?, number?, quoted?, heredoc?]

theorem code_keyword {cs ds : List Char} {k : TokenKind} (hcs : isWord cs = true)
    (hother : ∀ g ∈ beforeWords, g (cs ++ ds) = none) (hk : keyword? cs = some k)
    (hyield : k ≠ .kwYield) (hds : Apart ds) : code (cs ++ ds) = ⟨k, cs.length⟩ := by
  refine code_of_first beforeWords word? rfl hother ?_
  cases cs with
  | nil => cases hcs
  | cons c cs =>
    obtain ⟨hstart, hpart⟩ := Bool.and_eq_true_iff.mp hcs
    have hall : (c :: cs).all isWordPart = true := by
      rw [List.all_cons, hpart, isWordPart, hstart]
      rfl
    have hrun := runLength_apart (p := isWordPart) (by decide) (by decide) hall hds
    simp only [List.cons_append, word?, hstart, if_true]
    rw [← List.cons_append, hrun, List.take_left, hk]
    cases k with
    | kwYield => exact absurd rfl hyield
    | _ => rfl

/-- An operator is not part of a longer one in front of a blank. -/
theorem code_operator (op : Infix) (ds : List Char) :
    code (op.token.2.toList ++ ' ' :: ds) = ⟨op.token.1, op.token.2.length⟩ := by
  have hblank : Apart (' ' :: ds) := ⟨ds, .inl rfl⟩
  cases op with
  | binary op =>
    cases op with
    | logicalAnd | logicalOr | logicalXor | instanceOf =>
      rw [← String.length_toList]
      refine code_keyword rfl ?_ (by decide +kernel) (by decide +kernel) hblank
      simp only [beforeWords, List.mem_cons, List.not_mem_nil, or_false, forall_eq_or_imp,
        forall_eq]
      exact ⟨rfl, rfl, rfl, rfl, rfl, rfl, rfl⟩
    | _ => rfl
  | coalesce => rfl
  | ternary => rfl

def Begins (c : Char) : Prop := c = '$' ∨ c = '(' ∨ c.isDigit = true

/-- No type begins like a formula, so a parenthesis in front of one opens no cast. -/
theorem code_parenthesis {c : Char} (hc : Begins c) (ds : List Char) :
    code ('(' :: ' ' :: c :: ds) = ⟨.lParen, 1⟩ := by
  have hplain : isBlank c = false ∧ c.isAlpha = false ∧ c ≠ ')' := by
    rcases hc with rfl | rfl | hc
    · decide
    · decide
    · obtain ⟨hlow, hhigh⟩ := Char.isDigit_iff_toNat.mp hc
      have hall : ∀ n < 58, 48 ≤ n → isBlank (Char.ofNat n) = false ∧
          (Char.ofNat n).isAlpha = false ∧ Char.ofNat n ≠ ')' := by decide
      rw [← Char.ofNat_toNat c]
      exact hall _ (Nat.lt_succ_of_le hhigh) hlow
  obtain ⟨hblank, halpha, hclose⟩ := hplain
  have hcast : cast? ('(' :: ' ' :: c :: ds) = none := by
    have hspace : isBlank ' ' = true := rfl
    simp [cast?, runLength, hspace, hblank, halpha, hclose]
  refine code_of_first (beforeWords ++ [word?, cast?]) symbol? rfl ?_ rfl
  simp only [beforeWords, List.cons_append, List.nil_append, List.mem_cons, List.not_mem_nil,
    or_false, forall_eq_or_imp, forall_eq]
  exact ⟨rfl, rfl, rfl, rfl, rfl, rfl, rfl, rfl, hcast⟩

end Lexeme

/-! ## Tokens in a row -/

/-- The grammar sees a token of this kind as it is, and code goes on behind it. -/
def TokenKind.isPlain (k : TokenKind) : Bool :=
  !k.isTrivia && k ∉ [openTagWithEcho, closeTag, kwFn]

theorem Mode.after_of_isPlain {k : TokenKind} (h : k.isPlain = true) :
    Mode.code.after k = .code := by
  have hall : ∀ j ∈ TokenKind.all, j.isPlain = true → Mode.code.after j = .code := by decide +kernel
  exact hall k (TokenKind.mem_all k) h

theorem Token.face_forGrammar (t : Token) {o : Options} (h : t.kind.isPlain = true) :
    (t.forGrammar o).face = t.face := by
  unfold forGrammar
  split
  case h_4 => rfl
  all_goals
    next hk =>
      rw [hk] at h
      cases h

/-- In front of `ds` the token is found in code. -/
structure Lexes (f : TokenKind × String) (ds : List Char) : Prop where
  code : Lexeme.code (f.2.toList ++ ds) = ⟨f.1, f.2.length⟩
  plain : f.1.isPlain = true

def AllLex : List (TokenKind × String) → Prop
  | [] => True
  | f :: fs => Lexes f (behind fs) ∧ AllLex fs

theorem Infix.lexes (op : Infix) {f : TokenKind × String} {fs : List (TokenKind × String)}
    (h : AllLex (f :: fs)) : AllLex (op.token :: (op.rest ++ f :: fs)) := by
  have htoken (ds : List Char) : Lexes op.token (' ' :: ds) := by
    refine ⟨Lexeme.code_operator op ds, ?_⟩
    cases op with
    | binary op => cases op <;> rfl
    | coalesce => rfl
    | ternary => rfl
  cases op with
  | binary op => exact ⟨htoken _, h⟩
  | coalesce => exact ⟨htoken _, h⟩
  | ternary => exact ⟨htoken _, ⟨rfl, rfl⟩, h⟩

structure Opens (f : TokenKind × String) : Prop where
  kind : f.1 ∈ [TokenKind.variable, .lNumber, .lParen]
  text : ∃ c cs, f.2.toList = c :: cs ∧ Lexeme.Begins c

namespace Formula

theorem tokens_head (f : Formula) : ∃ t ts, f.tokens = t :: ts ∧ Opens t := by
  induction f with
  | «variable» name => exact ⟨_, [], rfl, by simp, '$', name.1.toList, by simp, .inl rfl⟩
  | integer digits =>
    obtain ⟨c, cs, hdigits, hc⟩ := Lexeme.isDecimal_head digits.2
    exact ⟨_, [], rfl, by simp, c, cs, hdigits, .inr (.inr hc)⟩
  | parenthesis inner => exact ⟨_, _, rfl, by decide, '(', [], rfl, .inr (.inl rfl)⟩
  | operation op left right ih _ =>
    obtain ⟨t, ts, htokens, ht⟩ := ih
    exact ⟨t, _, by rw [tokens, htokens, List.cons_append], ht⟩
  | choice test middle otherwise ih _ _ =>
    obtain ⟨t, ts, htokens, ht⟩ := ih
    exact ⟨t, _, by rw [tokens, htokens, List.cons_append], ht⟩

/-- The tokens of a formula are found, whatever comes next. -/
theorem tokens_lex (f : Formula) (fs : List (TokenKind × String)) (hfs : AllLex fs) :
    AllLex (f.tokens ++ fs) := by
  induction f generalizing fs with
  | «variable» name =>
    refine ⟨⟨?_, rfl⟩, hfs⟩
    rw [String.toList_append, String.length_append, ← String.length_toList, Nat.add_comm]
    exact Lexeme.code_variable name.2 (behind_apart fs)
  | integer digits => exact ⟨⟨Lexeme.code_decimal digits.2 (behind_apart fs), rfl⟩, hfs⟩
  | parenthesis inner ih =>
    obtain ⟨t, ts, htokens, -, c, cs, htext, hc⟩ := inner.tokens_head
    have hinner := ih ((.rParen, ")") :: fs) ⟨⟨rfl, rfl⟩, hfs⟩
    rw [tokens, List.cons_append, List.append_assoc]
    refine ⟨⟨?_, rfl⟩, hinner⟩
    rw [htokens, List.cons_append, behind, htext]
    exact Lexeme.code_parenthesis hc _
  | operation op left right ihleft ihright =>
    obtain ⟨t, ts, htokens, -⟩ := right.tokens_head
    have hright := ihright fs hfs
    simp only [tokens, List.append_assoc, List.cons_append]
    refine ihleft _ ?_
    rw [htokens] at hright ⊢
    exact op.lexes hright
  | choice test middle otherwise ihtest ihmiddle ihotherwise =>
    obtain ⟨t, ts, htokens, -⟩ := middle.tokens_head
    obtain ⟨u, us, hotherwise, -⟩ := otherwise.tokens_head
    have hcolon : AllLex ((.colon, ":") :: (otherwise.tokens ++ fs)) := by
      refine ⟨?_, ihotherwise fs hfs⟩
      rw [hotherwise]
      exact ⟨rfl, rfl⟩
    have hmiddle := ihmiddle _ hcolon
    simp only [tokens, List.append_assoc, List.cons_append]
    refine ihtest _ ⟨?_, hmiddle⟩
    rw [htokens]
    exact ⟨rfl, rfl⟩

end Formula

/-! ## The tokens that the grammar sees -/

namespace Scanner

variable {s : Scanner}

def visible (s : Scanner) : List (TokenKind × String) :=
  ((s.tokens.filter (!·.kind.isTrivia)).map (·.forGrammar {})).map Token.face

/-- One lexeme is one token, and the scanner goes on behind it. -/
theorem tokens_of_lexeme (cs : List Char) {ds : List Char} {l : Lexeme} (hs : s.ahead = cs ++ ds)
    (hl : Lexeme.ofMode s.mode s.ahead = l) (hlength : l.length = cs.length) (hcs : cs ≠ []) :
    ∃ (u : Scanner) (t : Token), s.tokens = t :: u.tokens ∧ t.kind = l.kind ∧
      t.text = String.ofList cs ∧ u.mode = s.mode.after l.kind ∧ u.ahead = ds := by
  have hne : s.ahead ≠ [] := by
    rw [hs]
    exact List.append_ne_nil_of_left_ne_nil hcs ds
  refine ⟨_, _, tokens_of_some (next_eq_cut hne), ?_⟩
  rw [hl]
  refine ⟨rfl, ?_, rfl, ?_⟩
  · rw [cut, hs, hlength, List.take_left]
  · rw [cut, hs, hlength, List.drop_left]

theorem visible_of_lexes {f : TokenKind × String} {ds : List Char} (hmode : s.mode = .code)
    (hs : s.ahead = f.2.toList ++ ds) (h : Lexes f ds) :
    ∃ u : Scanner, u.mode = .code ∧ u.ahead = ds ∧ s.visible = f :: u.visible := by
  obtain ⟨k, word⟩ := f
  have hcode : Lexeme.ofMode s.mode s.ahead = ⟨k, word.length⟩ := by
    rw [hmode, hs]
    exact h.code
  have hword : word.toList ≠ [] := by
    have hpos := (Lexeme.code_proper (word.toList ++ ds)).1
    rw [h.code] at hpos
    exact List.ne_nil_of_length_pos (by rwa [String.length_toList])
  obtain ⟨u, t, htokens, hkind, htext, humode, huahead⟩ :=
    tokens_of_lexeme _ hs hcode String.length_toList.symm hword
  have htplain : t.kind.isPlain = true := by rw [hkind, h.plain]
  refine ⟨u, by rw [humode, hmode, Mode.after_of_isPlain h.plain], huahead, ?_⟩
  have hseen : (!t.kind.isTrivia) = true := (Bool.and_eq_true_iff.mp htplain).1
  rw [visible, htokens, List.filter_cons, if_pos hseen, List.map_cons, List.map_cons, visible,
    t.face_forGrammar htplain, Token.face, hkind, htext, String.ofList_toList]

/-- A blank in front of a token is a token of its own. -/
theorem visible_of_blank {f : TokenKind × String} {ds : List Char} (hmode : s.mode = .code)
    (hs : s.ahead = ' ' :: (f.2.toList ++ ds)) (h : Lexes f ds) :
    ∃ u : Scanner, u.mode = .code ∧ u.ahead = f.2.toList ++ ds ∧ s.visible = u.visible := by
  have hrun : runLength isSpace (f.2.toList ++ ds) = 0 := by
    by_contra hpos
    have hspace : Lexeme.whitespace? (f.2.toList ++ ds) =
        some ⟨.whitespace, runLength isSpace (f.2.toList ++ ds)⟩ :=
      if_pos (Nat.pos_of_ne_zero hpos)
    have hcode := Lexeme.code_of_first [] _ rfl nofun hspace
    have hkind : f.1 = .whitespace := by rw [h.code] at hcode; exact congrArg Lexeme.kind hcode
    have hplain := h.plain
    rw [hkind] at hplain
    cases hplain
  have hcode : Lexeme.ofMode s.mode s.ahead = ⟨.whitespace, 1⟩ := by
    rw [hmode, hs]
    refine Lexeme.code_of_first [] Lexeme.whitespace? rfl nofun ?_
    have hone : runLength isSpace (' ' :: (f.2.toList ++ ds)) = 1 := by
      rw [runLength, List.takeWhile_cons_of_pos rfl, List.length_cons]
      exact congrArg (· + 1) hrun
    rw [Lexeme.whitespace?, hone]
    rfl
  obtain ⟨u, t, htokens, hkind, htext, humode, huahead⟩ :=
    tokens_of_lexeme [' '] hs hcode rfl (List.cons_ne_nil _ _)
  refine ⟨u, by rw [humode, hmode]; rfl, huahead, ?_⟩
  rw [visible, htokens, List.filter_cons_of_neg (by rw [hkind]; decide), visible]

/-- Where each token is found in front of those that come next, the grammar sees them. -/
theorem visible_of_allLex {f : TokenKind × String} {fs : List (TokenKind × String)}
    (hmode : s.mode = .code) (hs : s.ahead = f.2.toList ++ behind fs) (h : AllLex (f :: fs)) :
    s.visible = f :: (fs ++ [(.semicolon, ";")]) := by
  induction fs generalizing s f with
  | nil =>
    obtain ⟨u, humode, huahead, hu⟩ := visible_of_lexes hmode hs h.1
    obtain ⟨v, hvmode, hvahead, hv⟩ :=
      visible_of_lexes (f := (.semicolon, ";")) humode huahead ⟨rfl, rfl⟩
    rw [hu, hv, visible, tokens_of_none (next_nil hvahead)]
    rfl
  | cons g fs ih =>
    obtain ⟨u, humode, huahead, hu⟩ := visible_of_lexes hmode hs h.1
    obtain ⟨v, hvmode, hvahead, hv⟩ := visible_of_blank humode huahead h.2.1
    rw [hu, hv, ih hvmode hvahead h.2]
    rfl

end Scanner

/-- The grammar sees the tokens of a formula and the semicolon behind them. -/
theorem Formula.grammarTokens_program (f : Formula) :
    (grammarTokens {} f.program).map Token.face = f.tokens ++ [(.semicolon, ";")] := by
  obtain ⟨t, ts, htokens, -⟩ := f.tokens_head
  have hlex : AllLex (t :: ts) := by
    have hlex := f.tokens_lex [] trivial
    rwa [List.append_nil, htokens] at hlex
  have hahead : (Scanner.ofSource f.program).ahead =
      "<?php ".toList ++ (t.2.toList ++ behind ts) := by
    show f.program.toList = _
    rw [f.toList_program, htokens]
    rfl
  have hopen : Lexeme.ofMode .html (Scanner.ofSource f.program).ahead = ⟨.openTag, 6⟩ := by
    rw [hahead]
    rfl
  obtain ⟨u, tag, hcut, hkind, -, humode, huahead⟩ :=
    Scanner.tokens_of_lexeme _ hahead hopen rfl (List.cons_ne_nil _ _)
  rw [htokens]
  refine Eq.trans ?_ (Scanner.visible_of_allLex humode huahead hlex)
  have hunseen : ¬(!tag.kind.isTrivia) = true := by
    rw [hkind]
    decide
  show ((((Scanner.ofSource f.program).tokens.filter _).map _).map _) = _
  rw [hcut, List.filter_cons, if_neg hunseen]
  rfl

end PhpSyntax
