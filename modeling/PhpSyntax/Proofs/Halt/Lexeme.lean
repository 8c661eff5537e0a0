/-
What the text behind a semicolon does to the tokens before it.

A recogniser looks as far ahead as it likes, but only a comment, a literal in quotes and a
heredoc look over a semicolon.  A comment that is not over in front of the last semicolon of
a text has the semicolon in it, and a literal that is not is a bad token.  So whatever is put
behind the semicolon, the tokens before it stay the same (`ofMode_firm`).
-/
import PhpSyntax.Scanner.Mode

namespace PhpSyntax
namespace Lexeme

/-- What is found in front of a semicolon does not depend on what is behind it, unless it is
a bad token or has the semicolon in it. -/
def Firm (f : List Char → Option Lexeme) : Prop :=
  ∀ cs ds, f (cs ++ ';' :: ds) = f (cs ++ [';']) ∨
    ∃ l, f (cs ++ [';']) = some l ∧ (l.kind = .badCharacter ∨ cs.length < l.length)

theorem Firm.of_eq {f : List Char → Option Lexeme}
    (h : ∀ cs ds, f (cs ++ ';' :: ds) = f (cs ++ [';'])) : Firm f :=
  fun cs ds => .inl (h cs ds)

/-! ## Runs of characters and words -/

section

variable (cs ds : List Char)

theorem runLength_mark {p : Char → Bool} (hp : p ';' = false) :
    runLength p (cs ++ ';' :: ds) = runLength p cs := by
  unfold runLength
  induction cs with
  | nil => simp [hp]
  | cons c cs ih =>
    by_cases hc : p c = true
    · simpa [hc] using ih
    · simp [hc]

theorem runLength_le (p : Char → Bool) : runLength p cs ≤ cs.length :=
  (List.takeWhile_prefix p).length_le

variable {cs}

theorem drop_mark {n : Nat} (h : n ≤ cs.length) :
    (cs ++ ';' :: ds).drop n = cs.drop n ++ ';' :: ds :=
  List.drop_append_of_le_length h

theorem take_mark {n : Nat} (h : n ≤ cs.length) : (cs ++ ';' :: ds).take n = cs.take n :=
  List.take_append_of_le_length h

variable (cs)

/-- A word without semicolons is found in front of the semicolon or not at all. -/
theorem isPrefixOf_mark {word : List Char} (h : ';' ∉ word) :
    word.isPrefixOf (cs ++ ';' :: ds) = word.isPrefixOf cs := by
  induction word generalizing cs with
  | nil => rfl
  | cons w word ih =>
    obtain ⟨hw, hword⟩ := not_or.mp (mt List.mem_cons.mpr h)
    cases cs with
    | nil => simp [List.isPrefixOf, Ne.symm hw]
    | cons c cs => simp [List.isPrefixOf, ih cs hword]

variable {cs}

theorem ne_mark {word : List Char} (hword : ';' ∉ word) (h : ∀ r, cs ≠ word ++ r) :
    ∀ r, cs ++ ';' :: ds ≠ word ++ r := by
  intro r heq
  have hprefix : word.isPrefixOf (cs ++ ';' :: ds) = true :=
    List.isPrefixOf_iff_prefix.mpr ⟨r, heq.symm⟩
  rw [isPrefixOf_mark cs ds hword] at hprefix
  obtain ⟨r', hr'⟩ := List.isPrefixOf_iff_prefix.mp hprefix
  exact h r' hr'.symm

variable (cs)

theorem endsWord_mark : endsWord (cs ++ ';' :: ds) = endsWord (cs ++ [';']) := by
  cases cs <;> rfl

theorem startsWith_mark {word : String} (h : ';' ∉ word.toList) :
    startsWith word (cs ++ ';' :: ds) = startsWith word cs := by
  have hlower : Char.toLower ';' = ';' := by decide
  rw [startsWith, startsWith, List.map_append, List.map_cons, hlower, isPrefixOf_mark _ _ h]

/-- Whether a text starts with a word is told by as many characters as the word has. -/
theorem startsWith_take (word : String) :
    startsWith word (cs.take word.toList.length) = startsWith word cs := by
  rw [startsWith, startsWith, List.map_take, Bool.eq_iff_iff, List.isPrefixOf_iff_prefix,
    List.isPrefixOf_iff_prefix, List.prefix_take_iff]
  exact and_iff_left (Nat.le_refl _)

theorem length_of_startsWith {word : String} (h : startsWith word cs = true) :
    word.toList.length ≤ cs.length := by
  have hle := (List.isPrefixOf_iff_prefix.mp h).length_le
  rwa [List.length_map] at hle

end

/-! ## White space, words and casts -/

theorem whitespace?_firm : Firm whitespace? := .of_eq fun cs ds => by
  rw [whitespace?, whitespace?, runLength_mark cs ds (by decide), runLength_mark cs [] (by decide)]

theorem variableWord?_firm : Firm variableWord? := .of_eq fun cs ds => by
  match cs with
  | [] => rfl
  | c :: r =>
    by_cases hc : c = '$'
    · subst hc
      cases r with
      | nil => rfl
      | cons d r =>
        simp only [List.cons_append, variableWord?,
          runLength_mark r _ (p := isWordPart) (by decide)]
    · simp [variableWord?, hc]

theorem fromLength?_mark (cs ds : List Char) :
    fromLength? (cs ++ ';' :: ds) = fromLength? (cs ++ [';']) := by
  let r := cs.drop (runLength isSpace cs)
  have hword (ds : List Char) :
      (startsWith "from" ((r ++ ';' :: ds).take 4) && endsWord ((r ++ ';' :: ds).drop 4)) =
        (startsWith "from" r && endsWord (r.drop 4 ++ [';'])) := by
    rw [show 4 = "from".toList.length from rfl, startsWith_take, startsWith_mark _ _ (by decide)]
    by_cases h : startsWith "from" r = true
    · rw [drop_mark _ (length_of_startsWith _ h), endsWord_mark]
    · rw [Bool.eq_false_iff.mpr h, Bool.false_and, Bool.false_and]
  simp only [fromLength?, runLength_mark cs _ (p := isSpace) (by decide),
    drop_mark _ (runLength_le cs isSpace), Bool.and_assoc]
  rw [hword ds, hword []]

theorem word?_firm : Firm word? := .of_eq fun cs ds => by
  cases cs with
  | nil => rfl
  | cons c r =>
    have hrun (ds : List Char) : runLength isWordPart (c :: (r ++ ';' :: ds)) =
        runLength isWordPart (c :: r) := runLength_mark (c :: r) ds (by decide)
    have hle := runLength_le (c :: r) isWordPart
    have htake (ds : List Char) : (c :: (r ++ ';' :: ds)).take (runLength isWordPart (c :: r)) =
        (c :: r).take (runLength isWordPart (c :: r)) := take_mark ds hle
    have hfrom : fromLength? ((c :: (r ++ ';' :: ds)).drop (runLength isWordPart (c :: r))) =
        fromLength? ((c :: (r ++ [';'])).drop (runLength isWordPart (c :: r))) := by
      rw [← List.cons_append, ← List.cons_append, drop_mark _ hle, drop_mark _ hle,
        fromLength?_mark]
    simp only [List.cons_append, word?, hrun, htake, hfrom]

theorem cast?_firm : Firm cast? := .of_eq fun cs ds => by
  match cs with
  | [] => rfl
  | c :: r =>
    by_cases hc : c = '('
    · subst hc
      let inner := r.drop (runLength isBlank r)
      let n := runLength Char.isAlpha inner
      let after := runLength isBlank (inner.drop n)
      have hbefore (ds : List Char) : runLength isBlank (r ++ ';' :: ds) = runLength isBlank r :=
        runLength_mark r ds (by decide)
      have hinner (ds : List Char) :
          (r ++ ';' :: ds).drop (runLength isBlank r) = inner ++ ';' :: ds :=
        drop_mark ds (runLength_le r isBlank)
      have hn (ds : List Char) : runLength Char.isAlpha (inner ++ ';' :: ds) = n :=
        runLength_mark inner ds (by decide)
      have hle : n ≤ inner.length := runLength_le inner Char.isAlpha
      have hafter (ds : List Char) : runLength isBlank ((inner ++ ';' :: ds).drop n) = after := by
        rw [drop_mark ds hle]
        exact runLength_mark (inner.drop n) ds (by decide)
      have htotal : n + after ≤ inner.length := by
        have hrest : after ≤ (inner.drop n).length := runLength_le _ _
        rw [List.length_drop] at hrest
        omega
      have hhead (ds : List Char) : ((inner ++ ';' :: ds).drop (n + after)).head? =
          (inner.drop (n + after) ++ [';']).head? := by
        rw [drop_mark ds htotal]
        cases inner.drop (n + after) <;> rfl
      have htake (ds : List Char) : (inner ++ ';' :: ds).take n = inner.take n := take_mark ds hle
      simp only [List.cons_append, cast?, hbefore, hinner, hn, hafter, hhead, htake]
    · simp [cast?, hc]

/-! ## Marks -/

theorem symbol?_firm : Firm symbol? := .of_eq fun cs ds => by
  have hspelling : ∀ s ∈ symbols, ';' ∉ s.1.toList ∨ s.1.toList = [';'] := by decide
  have hsame : ∀ s ∈ symbols,
      s.1.toList.isPrefixOf (cs ++ ';' :: ds) = s.1.toList.isPrefixOf (cs ++ [';']) := by
    intro s hs
    rcases hspelling s hs with hnot | heq
    · rw [isPrefixOf_mark cs ds hnot, isPrefixOf_mark cs [] hnot]
    · rw [heq]
      cases cs <;> simp [List.isPrefixOf]
  rw [symbol?, symbol?, ← List.head?_filter, ← List.head?_filter, List.filter_congr hsame]

theorem closeTag?_of_ne {cs : List Char} (h : ∀ r, cs ≠ ['?', '>'] ++ r) : closeTag? cs = none := by
  unfold closeTag?
  split
  all_goals first | rfl | exact absurd rfl (h _)

theorem closeTag?_firm : Firm closeTag? := .of_eq fun cs ds => by
  fun_cases closeTag? cs with
  | case1 | case2 => rfl
  | case3 r hr =>
    cases r with
    | nil => rfl
    | cons c r =>
      have hc : c ≠ '\n' := fun e => hr r (by rw [e])
      simp [closeTag?, hc]
  | case4 r hn _ hr =>
    cases r with
    | nil => rfl
    | cons c r =>
      have hc : c ≠ '\n' := fun e => hn r (by rw [e])
      have hc' : c ≠ '\r' := fun e => hr r (by rw [e])
      simp [closeTag?, hc, hc']
  | case5 _ _ _ _ h =>
    have hnone (ds : List Char) : closeTag? (cs ++ ';' :: ds) = none :=
      closeTag?_of_ne (ne_mark ds (by decide) h)
    rw [hnone ds, hnone []]

/-! ## Comments -/

/-- A length that is counted character by character ends in front of the semicolon, or has
the semicolon in it. -/
theorem length_mark {f : List Char → Nat} (hmark : f [';'] = 1)
    (hstep : ∀ c r, (∀ ds, f (c :: (r ++ ';' :: ds)) = f (c :: (r ++ [';']))) ∨
      ∀ ds, f (c :: (r ++ ';' :: ds)) = 1 + f (r ++ ';' :: ds)) (cs ds : List Char) :
    f (cs ++ ';' :: ds) = f (cs ++ [';']) ∨ f (cs ++ [';']) = cs.length + 1 := by
  induction cs with
  | nil => exact .inr hmark
  | cons c r ih =>
    rw [List.cons_append, List.cons_append, List.length_cons]
    rcases hstep c r with hend | hgo
    · exact .inl (hend ds)
    · rw [hgo ds, hgo []]
      rcases ih with hsame | hall
      · exact .inl (by rw [hsame])
      · exact .inr (by omega)

theorem lineLength_cons {c : Char} {r : List Char} (h : ∀ r', c :: r ≠ ['?', '>'] ++ r') :
    lineLength (c :: r) = if c = '\n' || c = '\r' then 0 else 1 + lineLength r := by
  rw [lineLength]
  exact fun r' hc hr => h r' (by rw [hc, hr]; rfl)

theorem lineLength_mark (cs ds : List Char) :
    lineLength (cs ++ ';' :: ds) = lineLength (cs ++ [';']) ∨
      lineLength (cs ++ [';']) = cs.length + 1 := by
  refine length_mark rfl (fun c r => ?_) cs ds
  by_cases htag : ∃ r', c :: r = ['?', '>'] ++ r'
  · obtain ⟨r', hr'⟩ := htag
    left
    intro ds
    rw [← List.cons_append, ← List.cons_append, hr']
    rfl
  · have hcons (ds : List Char) : lineLength (c :: (r ++ ';' :: ds)) =
        if c = '\n' || c = '\r' then 0 else 1 + lineLength (r ++ ';' :: ds) :=
      lineLength_cons (ne_mark ds (by decide) (not_exists.mp htag))
    by_cases hend : (c = '\n' || c = '\r') = true
    · left
      intro ds
      rw [hcons ds, hcons [], if_pos hend, if_pos hend]
    · right
      intro ds
      rw [hcons ds, if_neg hend]

theorem blockLength_cons {c : Char} {r : List Char} (h : ∀ r', c :: r ≠ ['*', '/'] ++ r') :
    blockLength (c :: r) = 1 + blockLength r := by
  rw [blockLength]
  exact fun r' hc hr => h r' (by rw [hc, hr]; rfl)

theorem blockLength_mark (cs ds : List Char) :
    blockLength (cs ++ ';' :: ds) = blockLength (cs ++ [';']) ∨
      blockLength (cs ++ [';']) = cs.length + 1 := by
  refine length_mark rfl (fun c r => ?_) cs ds
  by_cases hend : ∃ r', c :: r = ['*', '/'] ++ r'
  · obtain ⟨r', hr'⟩ := hend
    left
    intro ds
    rw [← List.cons_append, ← List.cons_append, hr']
    rfl
  · right
    intro ds
    exact blockLength_cons (ne_mark ds (by decide) (not_exists.mp hend))

theorem startsDoc_mark (cs ds : List Char) :
    startsDoc (cs ++ ';' :: ds) = startsDoc (cs ++ [';']) := by
  match cs with
  | [] => rfl
  | c :: r =>
    by_cases hc : c = '*'
    · subst hc
      cases r <;> rfl
    · simp [startsDoc, hc]

theorem comment?_of_ne {cs : List Char} (hhash : ∀ r, cs ≠ ['#'] ++ r)
    (hline : ∀ r, cs ≠ ['/', '/'] ++ r) (hblock : ∀ r, cs ≠ ['/', '*'] ++ r) :
    comment? cs = none := by
  unfold comment?
  split
  · exact absurd rfl (hhash _)
  · exact absurd rfl (hline _)
  · exact absurd rfl (hblock _)
  · rfl

theorem comment?_firm : Firm comment? := by
  intro cs ds
  fun_cases comment? cs with
  | case1 r =>
    rcases lineLength_mark r ds with hsame | hall
    · exact .inl (congrArg (fun n => some (Lexeme.mk .comment (1 + n))) hsame)
    · refine .inr ⟨_, rfl, .inr ?_⟩
      show r.length + 1 < 1 + lineLength (r ++ [';'])
      omega
  | case2 r =>
    rcases lineLength_mark r ds with hsame | hall
    · exact .inl (congrArg (fun n => some (Lexeme.mk .comment (2 + n))) hsame)
    · refine .inr ⟨_, rfl, .inr ?_⟩
      show r.length + 2 < 2 + lineLength (r ++ [';'])
      omega
  | case3 r =>
    rcases blockLength_mark r ds with hsame | hall
    · left
      simp only [List.cons_append, comment?, startsDoc_mark r ds, hsame]
    · refine .inr ⟨_, rfl, .inr ?_⟩
      show r.length + 2 < 2 + blockLength (r ++ [';'])
      omega
  | case4 _ hhash hline hblock =>
    have hnone (ds : List Char) : comment? (cs ++ ';' :: ds) = none :=
      comment?_of_ne (ne_mark ds (by decide) hhash) (ne_mark ds (by decide) hline)
        (ne_mark ds (by decide) hblock)
    exact .inl ((hnone ds).trans (hnone []).symm)

/-! ## Numbers -/

theorem groupTailLength_mark {digit : Char → Bool} (hd : digit ';' = false) (cs ds : List Char) :
    groupTailLength digit (cs ++ ';' :: ds) = groupTailLength digit cs := by
  fun_induction groupTailLength digit cs with
  | case1 => cases ds <;> simp [groupTailLength, hd]
  | case2 c h => cases ds <;> simp [groupTailLength, hd, h]
  | case3 c h => simp [groupTailLength, hd, h]
  | case4 c d r h ih => simpa [groupTailLength, h] using ih
  | case5 c d r h h' ih => simpa [groupTailLength, h, h'] using ih
  | case6 c d r h h' => simp [groupTailLength, h, h']

theorem groupTailLength_le (digit : Char → Bool) (cs : List Char) :
    groupTailLength digit cs ≤ cs.length := by
  fun_induction groupTailLength digit cs with
  | case1 => simp
  | case2 => simp
  | case3 => simp
  | case4 c d r h ih =>
    rw [List.length_cons]
    omega
  | case5 c d r h h' ih =>
    rw [List.length_cons, List.length_cons]
    omega
  | case6 => simp

theorem groupsLength_mark {digit : Char → Bool} (hd : digit ';' = false) (cs ds : List Char) :
    groupsLength digit (cs ++ ';' :: ds) = groupsLength digit cs := by
  cases cs with
  | nil => simp [groupsLength, hd]
  | cons c r => simp only [List.cons_append, groupsLength, groupTailLength_mark hd]

theorem groupsLength_le (digit : Char → Bool) (cs : List Char) :
    groupsLength digit cs ≤ cs.length := by
  cases cs with
  | nil => simp [groupsLength]
  | cons c r =>
    have hle := groupTailLength_le digit r
    rw [groupsLength, List.length_cons]
    split
    · omega
    · omega

theorem startsExponent_mark (cs ds : List Char) :
    startsExponent (cs ++ ';' :: ds) = startsExponent (cs ++ [';']) := by
  cases cs <;> rfl

theorem exponentLength_mark (cs ds : List Char) :
    exponentLength (cs ++ ';' :: ds) = exponentLength (cs ++ [';']) := by
  match cs with
  | [] => rfl
  | [c] => rfl
  | c :: d :: r =>
    have hr (ds : List Char) : runLength Char.isDigit (r ++ ';' :: ds) = runLength Char.isDigit r :=
      runLength_mark r ds (by decide)
    have hdr (ds : List Char) : runLength Char.isDigit (d :: (r ++ ';' :: ds)) =
        runLength Char.isDigit (d :: r) := runLength_mark (d :: r) ds (by decide)
    by_cases hplus : d = '+'
    · simp [exponentLength, startsExponent, hplus, hr]
    · by_cases hminus : d = '-'
      · simp [exponentLength, startsExponent, hminus, hr]
      · simp [exponentLength, startsExponent, hplus, hminus, hdr]

theorem exponentLength_drop_mark {cs : List Char} (ds : List Char) {n : Nat} (h : n ≤ cs.length) :
    exponentLength ((cs ++ ';' :: ds).drop n) = exponentLength ((cs ++ [';']).drop n) := by
  rw [drop_mark ds h, drop_mark [] h, exponentLength_mark]

theorem basedDigitsLength_of_ne {cs : List Char} (hx : ∀ r, cs ≠ ['0', 'x'] ++ r)
    (hX : ∀ r, cs ≠ ['0', 'X'] ++ r) (hb : ∀ r, cs ≠ ['0', 'b'] ++ r)
    (hB : ∀ r, cs ≠ ['0', 'B'] ++ r) : basedDigitsLength cs = 0 := by
  unfold basedDigitsLength
  split
  · exact absurd rfl (hx _)
  · exact absurd rfl (hX _)
  · exact absurd rfl (hb _)
  · exact absurd rfl (hB _)
  · rfl

theorem basedDigitsLength_mark (cs ds : List Char) :
    basedDigitsLength (cs ++ ';' :: ds) = basedDigitsLength cs := by
  fun_cases basedDigitsLength cs with
  | case1 r | case2 r => exact groupsLength_mark (by decide) r ds
  | case3 r | case4 r => exact groupsLength_mark (by decide) r ds
  | case5 _ hx hX hb hB =>
    exact basedDigitsLength_of_ne (ne_mark ds (by decide) hx) (ne_mark ds (by decide) hX)
      (ne_mark ds (by decide) hb) (ne_mark ds (by decide) hB)

theorem afterInteger_mark (n : Nat) (cs ds : List Char) :
    afterInteger n (cs ++ ';' :: ds) = afterInteger n (cs ++ [';']) := by
  match cs with
  | [] => rfl
  | c :: r =>
    have hgroups (ds : List Char) : groupsLength Char.isDigit (r ++ ';' :: ds) =
        groupsLength Char.isDigit r := groupsLength_mark (by decide) r ds
    have hle := groupsLength_le Char.isDigit r
    by_cases hdot : c = '.'
    · subst hdot
      simp only [List.cons_append, afterInteger, hgroups, exponentLength_drop_mark ds hle,
        exponentLength_mark r ds, startsExponent_mark r ds]
    · by_cases hunderscore : c = '_'
      · subst hunderscore
        rfl
      · have hexponent := exponentLength_mark (c :: r) ds
        simp only [List.cons_append] at hexponent
        simp [afterInteger, hdot, hunderscore, hexponent]

theorem number?_firm : Firm number? := .of_eq fun cs ds => by
  have hbased (ds : List Char) := basedDigitsLength_mark cs ds
  have hgroups (ds : List Char) : groupsLength Char.isDigit (cs ++ ';' :: ds) =
      groupsLength Char.isDigit cs := groupsLength_mark (by decide) cs ds
  have hafter : afterInteger (groupsLength Char.isDigit cs)
        ((cs ++ ';' :: ds).drop (groupsLength Char.isDigit cs)) =
      afterInteger (groupsLength Char.isDigit cs)
        ((cs ++ [';']).drop (groupsLength Char.isDigit cs)) := by
    rw [drop_mark _ (groupsLength_le _ cs), drop_mark _ (groupsLength_le _ cs), afterInteger_mark]
  cases cs with
  | nil => rfl
  | cons c r =>
    rw [List.cons_append, List.cons_append] at hafter
    simp only [List.cons_append] at hbased hgroups
    by_cases hdot : c = '.'
    · subst hdot
      have hfraction (ds : List Char) : groupsLength Char.isDigit (r ++ ';' :: ds) =
          groupsLength Char.isDigit r := groupsLength_mark (by decide) r ds
      simp only [List.cons_append, number?, hbased, hgroups, hafter, hfraction,
        exponentLength_drop_mark ds (groupsLength_le Char.isDigit r)]
    · simp [number?, hbased, hgroups, hafter, hdot]

/-! ## Literals in quotes -/

theorem quotedLength_cons {quote c : Char} (hc : c ≠ '\\') (r : List Char) :
    quotedLength quote (c :: r) =
      if c = quote then (1, true)
      else ((quotedLength quote r).1 + 1, (quotedLength quote r).2) := by
  cases r <;> simp [quotedLength, hc]

/-- A literal that is closed in front of the semicolon is closed there whatever is behind
it. -/
theorem quotedLength_mark {quote : Char} (hq : quote ≠ ';') (cs ds : List Char)
    (h : (quotedLength quote (cs ++ [';'])).2 = true) :
    quotedLength quote (cs ++ ';' :: ds) = quotedLength quote (cs ++ [';']) ∧
      (quotedLength quote (cs ++ [';'])).1 ≤ cs.length := by
  match cs with
  | [] => simp [quotedLength, hq.symm] at h
  | c :: r =>
    by_cases hc : c = '\\'
    · subst hc
      match r with
      | [] => simp [quotedLength] at h
      | d :: r =>
        have hescape (r : List Char) : quotedLength quote ('\\' :: d :: r) =
          ((quotedLength quote r).1 + 2, (quotedLength quote r).2) := rfl
        simp only [List.cons_append, hescape] at h ⊢
        obtain ⟨hsame, hle⟩ := quotedLength_mark hq r ds h
        rw [hsame]
        exact ⟨rfl, Nat.add_le_add_right hle 2⟩
    · simp only [List.cons_append, quotedLength_cons hc] at h ⊢
      by_cases hquote : c = quote
      · simp [hquote]
      · simp only [hquote, if_false] at h ⊢
        obtain ⟨hsame, hle⟩ := quotedLength_mark hq r ds h
        rw [hsame]
        exact ⟨rfl, Nat.add_le_add_right hle 1⟩

theorem quotedFrom_mark (before : Nat) {quote : Char} (hq : quote ≠ ';') (cs ds : List Char) :
    quotedFrom before quote (cs ++ ';' :: ds) = quotedFrom before quote (cs ++ [';']) ∨
      (quotedFrom before quote (cs ++ [';'])).kind = .badCharacter := by
  have hmark := quotedLength_mark hq cs ds
  unfold quotedFrom
  cases hlength : quotedLength quote (cs ++ [';']) with
  | mk n closed =>
    rw [hlength] at hmark
    cases closed with
    | true =>
      obtain ⟨hsame, hle⟩ := hmark rfl
      left
      rw [hsame]
      simp only [take_mark _ hle]
    | false => exact .inr rfl

theorem quoted?_of_ne {cs : List Char} (hsingle : ∀ r, cs ≠ ['\''] ++ r)
    (hdouble : ∀ r, cs ≠ ['"'] ++ r) (hback : ∀ r, cs ≠ ['\x60'] ++ r)
    (hb : ∀ r, cs ≠ ['b', '\''] ++ r) (hB : ∀ r, cs ≠ ['B', '\''] ++ r)
    (hb' : ∀ r, cs ≠ ['b', '"'] ++ r) (hB' : ∀ r, cs ≠ ['B', '"'] ++ r) : quoted? cs = none := by
  unfold quoted?
  split
  · exact absurd rfl (hsingle _)
  · exact absurd rfl (hdouble _)
  · exact absurd rfl (hback _)
  · exact absurd rfl (hb _)
  · exact absurd rfl (hB _)
  · exact absurd rfl (hb' _)
  · exact absurd rfl (hB' _)
  · rfl

theorem quoted?_firm : Firm quoted? := by
  intro cs ds
  have hfrom (before : Nat) {quote : Char} (hq : quote ≠ ';') (r : List Char) :
      some (quotedFrom before quote (r ++ ';' :: ds)) =
          some (quotedFrom before quote (r ++ [';'])) ∨
        ∃ l, some (quotedFrom before quote (r ++ [';'])) = some l ∧
          (l.kind = .badCharacter ∨ cs.length < l.length) :=
    (quotedFrom_mark before hq r ds).imp (congrArg some) fun hbad => ⟨_, rfl, .inl hbad⟩
  fun_cases quoted? cs with
  | case1 r => exact hfrom 0 (by decide) r
  | case2 r => exact hfrom 0 (by decide) r
  | case3 r => exact hfrom 0 (by decide) r
  | case4 r => exact hfrom 1 (by decide) r
  | case5 r => exact hfrom 1 (by decide) r
  | case6 r => exact hfrom 1 (by decide) r
  | case7 r => exact hfrom 1 (by decide) r
  | case8 _ hsingle hdouble hback hb hB hb' hB' =>
    have hnone (ds : List Char) : quoted? (cs ++ ';' :: ds) = none :=
      quoted?_of_ne (ne_mark ds (by decide) hsingle) (ne_mark ds (by decide) hdouble)
        (ne_mark ds (by decide) hback) (ne_mark ds (by decide) hb) (ne_mark ds (by decide) hB)
        (ne_mark ds (by decide) hb') (ne_mark ds (by decide) hB')
    exact .inl ((hnone ds).trans (hnone []).symm)

/-! ## Heredocs -/

theorem labelLength_mark (cs ds : List Char) : labelLength (cs ++ ';' :: ds) = labelLength cs := by
  cases cs with
  | nil => rfl
  | cons c r =>
    have hrun := runLength_mark (c :: r) ds (p := fun d => d.isAlphanum || d = '_') (by decide)
    rw [List.cons_append] at hrun
    simp only [List.cons_append, labelLength, hrun]

theorem labelLength_le (cs : List Char) : labelLength cs ≤ cs.length := by
  unfold labelLength
  split
  · split
    · exact runLength_le _ _
    · exact Nat.zero_le _
  · exact Nat.le_refl _

theorem head?_mark (cs ds : List Char) : (cs ++ ';' :: ds).head? = (cs ++ [';']).head? := by
  cases cs <;> rfl

theorem heredocHead_mark (cs ds : List Char) :
    heredocHead (cs ++ ';' :: ds) = heredocHead (cs ++ [';']) := by
  have hblanks (ds : List Char) : runLength isBlank (cs ++ ';' :: ds) = runLength isBlank cs :=
    runLength_mark cs ds (by decide)
  have hdrop (ds : List Char) : (cs ++ ';' :: ds).drop (runLength isBlank cs) =
      cs.drop (runLength isBlank cs) ++ ';' :: ds := drop_mark ds (runLength_le cs isBlank)
  simp only [heredocHead, hblanks, hdrop]
  cases cs.drop (runLength isBlank cs) with
  | nil => rfl
  | cons c r =>
    have hlabel (ds : List Char) : labelLength (c :: (r ++ ';' :: ds)) = labelLength (c :: r) :=
      labelLength_mark (c :: r) ds
    have htake (ds : List Char) : (c :: (r ++ ';' :: ds)).take (labelLength (c :: r)) =
        (c :: r).take (labelLength (c :: r)) := take_mark ds (labelLength_le (c :: r))
    have hle := labelLength_le r
    by_cases hsingle : c = '\''
    · subst hsingle
      simp only [List.cons_append, labelLength_mark, drop_mark _ hle, take_mark _ hle,
        head?_mark _ ds]
    · by_cases hdouble : c = '"'
      · subst hdouble
        simp only [List.cons_append, labelLength_mark, drop_mark _ hle, take_mark _ hle,
          head?_mark _ ds]
      · simp [hsingle, hdouble, hlabel, htake]

theorem not_mem_label (cs : List Char) : ';' ∉ cs.take (labelLength cs) := by
  cases cs with
  | nil => simp
  | cons c r =>
    rw [labelLength]
    split
    · rw [runLength, ← List.prefix_iff_eq_take.mp (List.takeWhile_prefix _)]
      intro hmem
      have hpart := List.all_eq_true.mp List.all_takeWhile _ hmem
      exact absurd hpart (by decide)
    · simp

/-- A label in quotes ends in front of the semicolon, as the quote behind it does. -/
theorem quoted_labelled {quote : Char} (hq : quote ≠ ';') {r label : List Char} {blanks n : Nat}
    (h : (if labelLength (r ++ [';']) = 0 then HeredocHead.broken blanks
      else if ((r ++ [';']).drop (labelLength (r ++ [';']))).head? = some quote then
        .labelled ((r ++ [';']).take (labelLength (r ++ [';'])))
          (blanks + labelLength (r ++ [';']) + 2)
      else .broken (blanks + labelLength (r ++ [';']) + 1)) = .labelled label n) :
    n ≤ blanks + (r.length + 1) ∧ ';' ∉ label := by
  have hle := labelLength_le r
  rw [labelLength_mark, drop_mark [] hle, take_mark [] hle] at h
  split at h
  · cases h
  · split at h
    · next hhead =>
      have hlt : labelLength r < r.length := by
        apply Nat.lt_of_le_of_ne hle
        intro heq
        rw [heq, List.drop_length] at hhead
        exact hq (Option.some.inj hhead).symm
      cases h
      exact ⟨by omega, not_mem_label r⟩
    · cases h

/-- A label that is found in front of the semicolon has no semicolon in it. -/
theorem heredocHead_labelled {cs label : List Char} {n : Nat}
    (h : heredocHead (cs ++ [';']) = .labelled label n) : n ≤ cs.length ∧ ';' ∉ label := by
  have hblanks : runLength isBlank (cs ++ [';']) = runLength isBlank cs :=
    runLength_mark cs [] (by decide)
  have hdrop : (cs ++ [';']).drop (runLength isBlank cs) =
      cs.drop (runLength isBlank cs) ++ [';'] := drop_mark [] (runLength_le cs isBlank)
  have hle := runLength_le cs isBlank
  simp only [heredocHead, hblanks, hdrop] at h
  cases hr : cs.drop (runLength isBlank cs) with
  | nil =>
    rw [hr] at h
    cases h
  | cons c r =>
    have hlength : runLength isBlank cs + (r.length + 1) = cs.length := by
      have hrest := congrArg List.length hr
      rw [List.length_drop, List.length_cons] at hrest
      omega
    rw [hr] at h
    rw [← hlength]
    by_cases hsingle : c = '\''
    · subst hsingle
      exact quoted_labelled (by decide) h
    · by_cases hdouble : c = '"'
      · subst hdouble
        exact quoted_labelled (by decide) h
      · have hcr := labelLength_le (c :: r)
        have htake := take_mark [] hcr
        have hrun := labelLength_mark (c :: r) []
        rw [List.cons_append] at htake hrun
        rw [List.length_cons] at hcr
        split at h
        · next heq => exact absurd (List.cons.inj heq).1 hsingle
        · next heq => exact absurd (List.cons.inj heq).1 hdouble
        · rw [List.cons_append, hrun, htake] at h
          split at h
          · cases h
          · cases h
            exact ⟨by omega, not_mem_label (c :: r)⟩

theorem lineEndLength?_mark (cs ds : List Char) :
    lineEndLength? (cs ++ ';' :: ds) = lineEndLength? (cs ++ [';']) := by
  match cs with
  | [] => rfl
  | [c] =>
    by_cases hn : c = '\n'
    · subst hn
      rfl
    · simp [lineEndLength?, hn]
  | c :: d :: r =>
    by_cases hn : c = '\n'
    · subst hn
      rfl
    · by_cases hr : c = '\r'
      · subst hr
        by_cases hd : d = '\n'
        · subst hd
          rfl
        · simp [lineEndLength?, hd]
      · simp [lineEndLength?, hn, hr]

theorem lineEndLength?_le {cs : List Char} {n : Nat} (h : lineEndLength? (cs ++ [';']) = some n) :
    n ≤ cs.length := by
  match cs with
  | [] => cases h
  | [c] =>
    by_cases hn : c = '\n'
    · subst hn
      cases h
      exact Nat.le_refl _
    · simp [lineEndLength?, hn] at h
  | c :: d :: r =>
    have htwo : n ≤ 2 := by
      unfold lineEndLength? at h
      split at h
      all_goals cases h
      all_goals omega
    rw [List.length_cons, List.length_cons]
    omega

theorem closingLength?_mark {label : List Char} (hlabel : ';' ∉ label) (cs ds : List Char) :
    closingLength? label (cs ++ ';' :: ds) = closingLength? label (cs ++ [';']) := by
  let r := cs.drop (runLength isBlank cs)
  have hword (ds : List Char) : (label.isPrefixOf (r ++ ';' :: ds) &&
      endsWord ((r ++ ';' :: ds).drop label.length)) =
        (label.isPrefixOf r && endsWord (r.drop label.length ++ [';'])) := by
    rw [isPrefixOf_mark _ _ hlabel]
    by_cases h : label.isPrefixOf r = true
    · rw [drop_mark ds (List.isPrefixOf_iff_prefix.mp h).length_le, endsWord_mark]
    · rw [Bool.eq_false_iff.mpr h, Bool.false_and, Bool.false_and]
  simp only [closingLength?, runLength_mark cs _ (p := isBlank) (by decide),
    drop_mark _ (runLength_le cs isBlank)]
  rw [hword ds, hword []]

/-- A label that comes back in front of the semicolon comes back there whatever is behind
it. -/
theorem bodyLength?_mark {label : List Char} (hlabel : ';' ∉ label) {fresh : Bool}
    {cs : List Char} {n : Nat} (ds : List Char)
    (h : bodyLength? label fresh (cs ++ [';']) = some n) :
    bodyLength? label fresh (cs ++ ';' :: ds) = some n := by
  induction cs generalizing fresh n with
  | nil =>
    have hclosing := closingLength?_mark hlabel [] ds
    simp only [List.nil_append] at hclosing h ⊢
    simp only [bodyLength?, hclosing] at h ⊢
    split at h
    · exact h
    · cases h
  | cons c r ih =>
    have hclosing := closingLength?_mark hlabel (c :: r) ds
    simp only [List.cons_append] at hclosing h ⊢
    simp only [bodyLength?, hclosing] at h ⊢
    split at h
    · exact h
    · obtain ⟨k, hk, rfl⟩ := Option.map_eq_some_iff.mp h
      rw [ih hk]
      rfl

theorem heredoc?_of_ne {cs : List Char} (h : ∀ r, cs ≠ ['<', '<', '<'] ++ r) :
    heredoc? cs = none := by
  unfold heredoc?
  split
  · exact absurd rfl (h _)
  · rfl

theorem heredoc?_firm : Firm heredoc? := by
  intro cs ds
  by_cases hcs : ∃ r, cs = ['<', '<', '<'] ++ r
  · obtain ⟨r, rfl⟩ := hcs
    simp only [List.cons_append, List.nil_append, heredoc?, heredocHead_mark r ds]
    cases hhead : heredocHead (r ++ [';']) with
    | broken n => exact .inl rfl
    | labelled label n =>
      obtain ⟨hn, hlabel⟩ := heredocHead_labelled hhead
      simp only [drop_mark _ hn, lineEndLength?_mark _ ds]
      cases hend : lineEndLength? (r.drop n ++ [';']) with
      | none => exact .inl rfl
      | some m =>
        have hm := lineEndLength?_le hend
        rw [List.length_drop] at hm
        have hnm : n + m ≤ r.length := by omega
        simp only [drop_mark _ hnm]
        cases hbody : bodyLength? label true (r.drop (n + m) ++ [';']) with
        | none => exact .inr ⟨_, rfl, .inl rfl⟩
        | some k =>
          rw [bodyLength?_mark hlabel ds hbody]
          exact .inl rfl
  · have hnone (ds : List Char) : heredoc? (cs ++ ';' :: ds) = none :=
      heredoc?_of_ne (ne_mark ds (by decide) (not_exists.mp hcs))
    exact .inl ((hnone ds).trans (hnone []).symm)

/-! ## Both languages -/

/-- The first of some recognisers that finds something. -/
theorem findSome?_firm {fs : List (List Char → Option Lexeme)} (h : ∀ f ∈ fs, Firm f) :
    Firm fun cs => fs.findSome? (· cs) := by
  intro cs ds
  induction fs with
  | nil => exact .inl rfl
  | cons f fs ih =>
    obtain ⟨hf, hfs⟩ := List.forall_mem_cons.mp h
    simp only [List.findSome?_cons]
    rcases hf cs ds with hsame | ⟨l, hl, hbad⟩
    · rw [hsame]
      cases hfound : f (cs ++ [';']) with
      | none => exact ih hfs
      | some l => exact .inl rfl
    · rw [hl]
      exact .inr ⟨l, rfl, hbad⟩

theorem recognisers_firm : ∀ f ∈ recognisers, Firm f := by
  simp only [recognisers, List.forall_mem_cons]
  exact ⟨whitespace?_firm, comment?_firm, closeTag?_firm, variableWord?_firm, number?_firm,
    quoted?_firm, heredoc?_firm, word?_firm, cast?_firm, symbol?_firm, nofun⟩

theorem openTag?_of_ne {cs : List Char} (h : ∀ r, cs ≠ ['<', '?'] ++ r) : openTag? cs = none := by
  unfold openTag?
  split
  · exact absurd rfl (h _)
  · rfl

theorem openTag?_mark (cs ds : List Char) :
    openTag? (cs ++ ';' :: ds) = openTag? (cs ++ [';']) := by
  by_cases hcs : ∃ r, cs = ['<', '?'] ++ r
  · obtain ⟨r, rfl⟩ := hcs
    have hphp (ds : List Char) :
        startsWith "php" ((r ++ ';' :: ds).take 3) = startsWith "php" r := by
      rw [show 3 = "php".toList.length from rfl, startsWith_take, startsWith_mark _ _ (by decide)]
    simp only [List.cons_append, List.nil_append, openTag?, hphp, head?_mark r ds]
    by_cases h : startsWith "php" r = true
    · have hle : 3 ≤ r.length := length_of_startsWith r h
      simp only [drop_mark _ hle]
      match r.drop 3 with
      | [] => rfl
      | [c] =>
        by_cases hr : c = '\r'
        · subst hr
          rfl
        · simp [hr]
      | c :: d :: q =>
        by_cases hr : c = '\r'
        · subst hr
          by_cases hn : d = '\n'
          · subst hn
            rfl
          · simp [hn]
        · simp [hr]
    · simp only [h]
      rfl
  · have hnone (ds : List Char) : openTag? (cs ++ ';' :: ds) = none :=
      openTag?_of_ne (ne_mark ds (by decide) (not_exists.mp hcs))
    rw [hnone ds, hnone []]

theorem htmlLength_mark (cs ds : List Char) :
    htmlLength (cs ++ ';' :: ds) = htmlLength (cs ++ [';']) ∨
      htmlLength (cs ++ [';']) = cs.length + 1 := by
  refine length_mark rfl (fun c r => ?_) cs ds
  have htag (ds : List Char) : openTag? (c :: (r ++ ';' :: ds)) = openTag? (c :: (r ++ [';'])) :=
    openTag?_mark (c :: r) ds
  by_cases hend : (openTag? (c :: (r ++ [';']))).isSome = true
  · left
    intro ds
    simp only [htmlLength, htag ds, hend, if_true]
  · right
    intro ds
    simp only [htmlLength, htag ds, hend, Bool.false_eq_true, if_false]

theorem html_mark (cs ds : List Char) :
    html (cs ++ ';' :: ds) = html (cs ++ [';']) ∨ cs.length < (html (cs ++ [';'])).length := by
  rw [html, html, openTag?_mark cs ds]
  cases openTag? (cs ++ [';']) with
  | some l => exact .inl rfl
  | none =>
    rcases htmlLength_mark cs ds with hsame | hall
    · exact .inl (congrArg (Lexeme.mk .inlineHtml) hsame)
    · right
      show cs.length < htmlLength (cs ++ [';'])
      omega

/-- What is found in front of a semicolon does not depend on what is behind it, unless it is
a bad token or has the semicolon in it. -/
theorem ofMode_firm (m : Mode) (cs ds : List Char) :
    ofMode m (cs ++ ';' :: ds) = ofMode m (cs ++ [';']) ∨
      (ofMode m (cs ++ [';'])).kind = .badCharacter ∨
        cs.length < (ofMode m (cs ++ [';'])).length := by
  cases m with
  | html => exact (html_mark cs ds).imp_right .inr
  | code =>
    let or (found : Option Lexeme) : Lexeme := found.getD ⟨.badCharacter, 1⟩
    rcases findSome?_firm recognisers_firm cs ds with hsame | ⟨l, hl, hbad⟩
    · exact .inl (congrArg or hsame)
    · have hcode : ofMode .code (cs ++ [';']) = l := congrArg or hl
      rw [hcode]
      exact .inr hbad

theorem code_mark (ds : List Char) : code (';' :: ds) = ⟨.semicolon, 1⟩ := rfl

end Lexeme
end PhpSyntax
