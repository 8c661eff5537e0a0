/-
Quoted strings round-trip.

A string is written between quotes by spelling one character after the other, each in any of
the ways that its quotes have for it (`Quote.Writes`), and every string can be written in either
quotes (`Quote.exists_writes`).  Three passes read what is written.  One looks for the closing
quote and one for variables; to both a spelling is characters that are no quotes, dollar signs or
backslashes, and backslashes with the character behind them (`Paired`).  The third makes the value
and takes exactly one spelling at a time, whatever comes next (`unescapeDouble_append`).  That is
why a numeric spelling has all the digits it can have, or a brace behind them.
-/
import PhpSyntax.Proofs.Literal.Alone

namespace PhpSyntax.Literal

/-! ## Spellings of characters -/

def escapeNames : List (Char × Char) :=
  [('n', '\n'), ('t', '\t'), ('r', '\r'), ('v', '\x0b'), ('e', '\x1b'), ('f', '\x0c'),
   ('\\', '\\'), ('$', '$'), ('"', '"')]

/-- The digit `d` has the value `v`; letters may be small or capital. -/
def IsDigit (v : Nat) (d : Char) : Prop := d = v.digitChar ∨ d = v.digitChar.toUpper

instance (v : Nat) (d : Char) : Decidable (IsDigit v d) := inferInstanceAs (Decidable (_ ∨ _))

/-- The digits `ds` write `n` in the given base, the highest digit first. -/
inductive Digits (base : Nat) : List Char → Nat → Prop where
  | nil : Digits base [] 0
  | snoc {ds : List Char} {n v : Nat} {d : Char} (hds : Digits base ds n) (hv : v < base)
      (hd : IsDigit v d) : Digits base (ds ++ [d]) (base * n + v)

inductive SpelledSingle : Char → List Char → Prop where
  | plain {c : Char} (hc : c ∉ ['\\', '\'']) : SpelledSingle c [c]
  | escaped {c : Char} (hc : c ∈ ['\\', '\'']) : SpelledSingle c ['\\', c]

/-- The spellings of a character in double quotes: itself, its name, or its code in octal or
hexadecimal digits. -/
inductive SpelledDouble : Char → List Char → Prop where
  | plain {c : Char} (hc : c ∉ ['\\', '$', '"']) : SpelledDouble c [c]
  | named {c e : Char} (he : (e, c) ∈ escapeNames) : SpelledDouble c ['\\', e]
  | octal {c : Char} {ds : List Char} (hlength : ds.length = 3) (hcode : c.toNat ≤ 0xFF)
      (hds : Digits 8 ds c.toNat) : SpelledDouble c ('\\' :: ds)
  | hex {c : Char} {ds : List Char} (hlength : ds.length = 2) (hcode : c.toNat ≤ 0xFF)
      (hds : Digits 16 ds c.toNat) : SpelledDouble c ('\\' :: 'x' :: ds)
  | unicode {c : Char} {ds : List Char} (hlength : 1 ≤ ds.length ∧ ds.length ≤ 6)
      (hds : Digits 16 ds c.toNat) : SpelledDouble c ('\\' :: 'u' :: '{' :: (ds ++ ['}']))

inductive Quote where
  | single
  | double
deriving DecidableEq, Repr

namespace Quote

def mark : Quote → Char
  | single => '\''
  | double => '"'

def Spells : Quote → Char → List Char → Prop
  | single => SpelledSingle
  | double => SpelledDouble

/-- The characters `cs` may be written as `text`, each in a way of its own. -/
inductive Writes (q : Quote) : (cs text : List Char) → Prop where
  | nil : Writes q [] []
  | cons {c : Char} {cs piece text : List Char} (hc : q.Spells c piece) (hcs : Writes q cs text) :
      Writes q (c :: cs) (piece ++ text)

def enclose (q : Quote) (text : String) : String :=
  String.ofList (q.mark :: (text.toList ++ [q.mark]))

/-- Every character has a spelling. -/
theorem exists_spells (q : Quote) (c : Char) : ∃ piece, q.Spells c piece := by
  cases q with
  | single =>
    by_cases hc : c ∈ ['\\', '\'']
    · exact ⟨_, SpelledSingle.escaped hc⟩
    · exact ⟨_, SpelledSingle.plain hc⟩
  | double =>
    by_cases hc : c ∈ ['\\', '$', '"']
    · have hnamed : ['\\', '$', '"'].all (fun d => decide ((d, d) ∈ escapeNames)) = true := by decide
      have hc : (c, c) ∈ escapeNames := of_decide_eq_true (List.all_eq_true.mp hnamed c hc)
      exact ⟨_, SpelledDouble.named hc⟩
    · exact ⟨_, SpelledDouble.plain hc⟩

/-- Every string can be written. -/
theorem exists_writes (q : Quote) (cs : List Char) : ∃ text, q.Writes cs text := by
  induction cs with
  | nil => exact ⟨[], .nil⟩
  | cons c cs ih =>
    obtain ⟨piece, hc⟩ := q.exists_spells c
    obtain ⟨text, hcs⟩ := ih
    exact ⟨piece ++ text, .cons hc hcs⟩

end Quote

/-! ## Digits -/

theorem IsDigit.hex {v : Nat} {d : Char} (hv : v < 16) (h : IsDigit v d) :
    Lexeme.isHexDigit d = true ∧ digitValue d = v := by
  have hall : ∀ v < 16, (Lexeme.isHexDigit v.digitChar = true ∧ digitValue v.digitChar = v) ∧
      Lexeme.isHexDigit v.digitChar.toUpper = true ∧ digitValue v.digitChar.toUpper = v := by
    decide
  obtain ⟨hsmall, hcapital⟩ := hall v hv
  rcases h with rfl | rfl
  · exact hsmall
  · exact hcapital

theorem IsDigit.octal {v : Nat} {d : Char} (hv : v < 8) (h : IsDigit v d) :
    isOctalDigit d = true ∧ namedEscape? d = none := by
  have hall : ∀ v < 8, (isOctalDigit v.digitChar = true ∧ namedEscape? v.digitChar = none) ∧
      isOctalDigit v.digitChar.toUpper = true ∧ namedEscape? v.digitChar.toUpper = none := by
    decide
  obtain ⟨hsmall, hcapital⟩ := hall v hv
  rcases h with rfl | rfl
  · exact hsmall
  · exact hcapital

namespace Digits

variable {base n : Nat} {ds : List Char}

theorem isHexDigit (h : Digits base ds n) (hbase : base ≤ 16) :
    ∀ d ∈ ds, Lexeme.isHexDigit d = true := by
  induction h with
  | nil => nofun
  | snoc _ hv hd ih =>
    intro c hc
    rcases List.mem_append.mp hc with hc | hc
    · exact ih c hc
    · rw [List.mem_singleton.mp hc]
      exact (hd.hex (by omega)).1

theorem isOctalDigit (h : Digits 8 ds n) :
    ∀ d ∈ ds, Literal.isOctalDigit d = true ∧ namedEscape? d = none := by
  induction h with
  | nil => nofun
  | snoc _ hv hd ih =>
    intro c hc
    rcases List.mem_append.mp hc with hc | hc
    · exact ih c hc
    · rw [List.mem_singleton.mp hc]
      exact hd.octal hv

/-- The parser reads the number that is written. -/
theorem value (h : Digits base ds n) (hbase : base ≤ 16) : digitsValue base ds = n := by
  induction h with
  | nil => rfl
  | snoc _ hv hd ih =>
    rw [digitsValue] at ih ⊢
    rw [List.foldl_append, ih, List.foldl_cons, List.foldl_nil, (hd.hex (by omega)).2,
      Nat.mul_comm]

/-- Digits write the number that the parser reads. -/
theorem of_value (hbase : base ≤ 16)
    (hds : ds.all (fun d => decide (∃ v < base, IsDigit v d)) = true)
    (hn : digitsValue base ds = n) : Digits base ds n := by
  induction ds using List.reverseRecOn generalizing n with
  | nil =>
    subst hn
    exact .nil
  | append_singleton ds d ih =>
    rw [List.all_append, Bool.and_eq_true, List.all_cons, Bool.and_eq_true] at hds
    obtain ⟨v, hv, hd⟩ := of_decide_eq_true hds.2.1
    have hfront := ih hds.1 rfl
    have hvalue : digitsValue base (ds ++ [d]) = base * digitsValue base ds + v := by
      rw [digitsValue, List.foldl_append, List.foldl_cons, List.foldl_nil,
        (hd.hex (by omega)).2, Nat.mul_comm]
      rfl
    rw [← hn, hvalue]
    exact hfront.snoc hv hd

end Digits

/-! ## Quotes and variables -/

/-- Characters none of which is in `marks`, and backslashes with the character behind them. -/
inductive Paired (marks : List Char) : List Char → Prop where
  | nil : Paired marks []
  | pair {c : Char} {cs : List Char} (hcs : Paired marks cs) : Paired marks ('\\' :: c :: cs)
  | plain {c : Char} {cs : List Char} (hc : c ∉ '\\' :: marks) (hcs : Paired marks cs) :
      Paired marks (c :: cs)

namespace Paired

variable {marks cs ds : List Char}

theorem append (hcs : Paired marks cs) (hds : Paired marks ds) : Paired marks (cs ++ ds) := by
  induction hcs with
  | nil => exact hds
  | pair _ ih => exact .pair ih
  | plain hc _ ih => exact .plain hc ih

theorem of_forall (h : ∀ c ∈ cs, c ∉ '\\' :: marks) : Paired marks cs := by
  induction cs with
  | nil => exact .nil
  | cons c cs ih =>
    obtain ⟨hc, hcs⟩ := List.forall_mem_cons.mp h
    exact .plain hc (ih hcs)

theorem mono {marks' : List Char} (h : Paired marks cs) (hsub : marks' ⊆ marks) :
    Paired marks' cs := by
  induction h with
  | nil => exact .nil
  | pair _ ih => exact .pair ih
  | plain hc _ ih => exact .plain (fun hmem => hc (List.cons_subset_cons _ hsub hmem)) ih

/-- The first quote behind a pair or a plain character is the closing one. -/
theorem quotedLength_eq {quote : Char} (hquote : quote ≠ '\\') (h : Paired [quote] cs)
    (r : List Char) : Lexeme.quotedLength quote (cs ++ quote :: r) = (cs.length + 1, true) := by
  induction h with
  | nil =>
    rw [List.nil_append, Lexeme.quotedLength.eq_4 _ _ _ (by simp [hquote]) (by simp [hquote]),
      if_pos rfl]
    rfl
  | pair _ ih => simp only [List.cons_append, Lexeme.quotedLength, ih, List.length_cons]
  | @plain c cs hc _ ih =>
    simp only [List.mem_cons, List.not_mem_nil, or_false, not_or] at hc
    rw [List.cons_append, Lexeme.quotedLength.eq_4 _ _ _ (by simp [hc.1]) (by simp [hc.1]),
      if_neg hc.2, ih]
    rfl

/-- Without dollar signs of its own, a text has no variables. -/
theorem interpolates_eq (h : Paired ['$'] cs) : Lexeme.interpolates cs = false := by
  induction h with
  | nil => rfl
  | pair _ ih => rw [Lexeme.interpolates, ih]
  | @plain c cs hc hcs ih =>
    simp only [List.mem_cons, List.not_mem_nil, or_false, not_or] at hc
    rw [Lexeme.interpolates.eq_5 _ _ (by simp [hc.1]) (by simp [hc.2]) ?_, ih]
    rintro r - rfl
    cases hcs with
    | plain hdollar => exact absurd (by simp) hdollar

end Paired

theorem Digits.plain {base n : Nat} {ds : List Char} (h : Digits base ds n) (hbase : base ≤ 16) :
    ∀ d ∈ ds, d ∉ ['\\', '$', '"'] := by
  intro d hd hmem
  have hnone : ['\\', '$', '"'].all (!Lexeme.isHexDigit ·) = true := by decide
  have hnot := List.all_eq_true.mp hnone d hmem
  rw [h.isHexDigit hbase d hd] at hnot
  cases hnot

namespace Quote

def marks : Quote → List Char
  | single => ['\'']
  | double => ['$', '"']

theorem Spells.paired {q : Quote} {c : Char} {piece : List Char} (h : q.Spells c piece) :
    Paired q.marks piece := by
  cases q with
  | single =>
    cases h with
    | plain hc => exact .plain hc .nil
    | escaped => exact .pair .nil
  | double =>
    cases h with
    | plain hc => exact .plain hc .nil
    | named => exact .pair .nil
    | octal hlength _ hds =>
      obtain ⟨d, es, rfl⟩ := List.exists_cons_of_length_pos
        (Nat.lt_of_lt_of_eq (by omega) hlength.symm)
      exact .pair (.of_forall fun e he => hds.plain (by omega) e (List.mem_cons_of_mem d he))
    | hex _ _ hds => exact .pair (.of_forall (hds.plain (by omega)))
    | unicode _ hds =>
      have hclose : Paired ['$', '"'] ['}'] := .plain (by decide) .nil
      exact .pair (.plain (by decide) ((Paired.of_forall (hds.plain (by omega))).append hclose))

theorem Writes.paired {q : Quote} {cs text : List Char} (h : q.Writes cs text) :
    Paired q.marks text := by
  induction h with
  | nil => exact .nil
  | cons hc _ ih => exact hc.paired.append ih

end Quote

/-! ## Values -/

theorem charOfCode_toNat (c : Char) : charOfCode c.toNat = c := by
  rw [charOfCode, if_pos (show c.toNat.isValidChar from c.valid), Char.ofNat_toNat]

theorem unescapeDouble_skip (n : Nat) (cs : List Char) :
    unescapeDouble n cs = unescapeDouble 0 (cs.drop n) := by
  induction cs generalizing n with
  | nil => rw [List.drop_nil, unescapeDouble, unescapeDouble]
  | cons c cs ih =>
    cases n with
    | zero => rfl
    | succ n => rw [unescapeDouble, ih, List.drop_succ_cons]

/-- A backslash stands for the escape that it introduces. -/
theorem unescapeDouble_escape {cs r value : List Char} (h : escape (cs ++ r) = (value, cs.length)) :
    unescapeDouble 0 ('\\' :: (cs ++ r)) = value ++ unescapeDouble 0 r := by
  rw [unescapeDouble, h]
  show value ++ unescapeDouble cs.length (cs ++ r) = _
  rw [unescapeDouble_skip, List.drop_left]

theorem namedEscape?_of_mem : ∀ x ∈ escapeNames, namedEscape? x.1 = some x.2 := by decide

theorem escape_named {c e : Char} (h : (e, c) ∈ escapeNames) (r : List Char) :
    escape ([e] ++ r) = ([c], 1) := by
  have hnamed : namedEscape? e = some c := namedEscape?_of_mem _ h
  simp only [List.singleton_append, escape, hnamed]

/-- Three octal digits are read, even in front of another digit. -/
theorem escape_octal {c : Char} {ds : List Char} (hlength : ds.length = 3)
    (hcode : c.toNat ≤ 0xFF) (h : Digits 8 ds c.toNat) (r : List Char) :
    escape (ds ++ r) = ([c], ds.length) := by
  have htake : ((ds ++ r).take 3).takeWhile isOctalDigit = ds := by
    rw [← hlength, List.take_left]
    exact List.takeWhile_eq_self_iff.mpr fun d hd => (h.isOctalDigit d hd).1
  have hvalue : digitsValue 8 ds % 256 = c.toNat := by
    rw [h.value (by omega)]
    exact Nat.mod_eq_of_lt (by omega)
  obtain ⟨d, es, rfl⟩ : ∃ d es, ds = d :: es := List.exists_cons_of_length_pos (by omega)
  obtain ⟨hoctal, hnamed⟩ := h.isOctalDigit d List.mem_cons_self
  rw [List.cons_append] at htake ⊢
  simp only [escape, hnamed, hoctal, if_true, htake, hvalue, charOfCode_toNat]

/-- Two hexadecimal digits are read, even in front of another digit. -/
theorem escape_hex {c : Char} {ds : List Char} (hlength : ds.length = 2)
    (h : Digits 16 ds c.toNat) (r : List Char) :
    escape (('x' :: ds) ++ r) = ([c], ('x' :: ds).length) := by
  have htake : ((ds ++ r).take 2).takeWhile Lexeme.isHexDigit = ds := by
    rw [← hlength, List.take_left]
    exact List.takeWhile_eq_self_iff.mpr (h.isHexDigit (by omega))
  have hne : ds.isEmpty = false := by
    rw [List.isEmpty_eq_false_iff]
    rintro rfl
    cases hlength
  have hother : namedEscape? 'x' = none ∧ isOctalDigit 'x' = false := by decide
  simp only [List.cons_append, escape, hother, Bool.false_eq_true, if_false, if_true, htake, hne,
    h.value (by omega), charOfCode_toNat, List.length_cons, Nat.add_comm]

/-- Up to six hexadecimal digits are read, and the brace behind them. -/
theorem escape_unicode {c : Char} {ds : List Char} (hlength : ds.length ≤ 6)
    (h : Digits 16 ds c.toNat) (r : List Char) :
    escape (('u' :: '{' :: (ds ++ ['}'])) ++ r) = ([c], ('u' :: '{' :: (ds ++ ['}'])).length) := by
  have htake : ((ds ++ '}' :: r).take 6).takeWhile Lexeme.isHexDigit = ds := by
    have hbrace (n : Nat) : (('}' :: r).take n).takeWhile Lexeme.isHexDigit = [] := by
      cases n <;> rfl
    rw [List.take_append, List.take_of_length_le hlength,
      List.takeWhile_append_of_pos (h.isHexDigit (by omega)), hbrace, List.append_nil]
  have hother : namedEscape? 'u' = none ∧ isOctalDigit 'u' = false := by decide
  simp only [List.cons_append, List.append_assoc, List.nil_append, escape, hother,
    Bool.false_eq_true, if_false, if_true, htake, List.drop_left, List.head?_cons,
    h.value (by omega), charOfCode_toNat, List.length_cons, List.length_append, List.length_nil]
  rw [if_neg (by decide)]
  exact congrArg (Prod.mk [c]) (by omega)

/-- One spelling is taken for its character, whatever comes next. -/
theorem unescapeDouble_append {c : Char} {piece : List Char} (h : SpelledDouble c piece)
    (r : List Char) : unescapeDouble 0 (piece ++ r) = c :: unescapeDouble 0 r := by
  cases h with
  | plain hc =>
    simp only [List.mem_cons, not_or] at hc
    rw [List.singleton_append, unescapeDouble.eq_4 _ _ (by simp [hc.1])]
  | named he => exact unescapeDouble_escape (escape_named he r)
  | octal hlength hcode hds => exact unescapeDouble_escape (escape_octal hlength hcode hds r)
  | hex hlength _ hds => exact unescapeDouble_escape (escape_hex hlength hds r)
  | unicode hlength hds => exact unescapeDouble_escape (escape_unicode hlength.2 hds r)

theorem unescapeSingle_append {c : Char} {piece : List Char} (h : SpelledSingle c piece)
    (r : List Char) : unescapeSingle (piece ++ r) = c :: unescapeSingle r := by
  cases h with
  | plain hc =>
    simp only [List.mem_cons, not_or] at hc
    rw [List.singleton_append, unescapeSingle.eq_4 _ _ (by simp [hc.1]) (by simp [hc.1])]
  | escaped hc =>
    simp only [List.mem_cons, List.not_mem_nil, or_false] at hc
    rcases hc with rfl | rfl
    · rfl
    · rfl

namespace Quote

variable {q : Quote} {cs : List Char} {s text : String}

/-- What is written between the quotes has the value that it was written for. -/
theorem Writes.value (h : q.Writes s.toList text.toList) :
    stringValue (q.enclose text) = (s, decide (q = .double)) := by
  cases q with
  | single =>
    have hinside : stringValue (single.enclose text) =
        (String.ofList (unescapeSingle (text.toList ++ ['\'']).dropLast), false) := by
      rw [stringValue, enclose, String.toList_ofList]
      rfl
    have hvalue {cs ts : List Char} (h : single.Writes cs ts) : unescapeSingle ts = cs := by
      induction h with
      | nil => rfl
      | cons hc _ ih => rw [unescapeSingle_append hc, ih]
    rw [hinside, List.dropLast_concat, hvalue h, String.ofList_toList]
    rfl
  | double =>
    have hinside : stringValue (double.enclose text) =
        (String.ofList (unescapeDouble 0 (text.toList ++ ['"']).dropLast), true) := by
      rw [stringValue, enclose, String.toList_ofList]
      rfl
    have hvalue {cs ts : List Char} (h : double.Writes cs ts) : unescapeDouble 0 ts = cs := by
      induction h with
      | nil => rfl
      | cons hc _ ih => rw [unescapeDouble_append hc, ih]
    rw [hinside, List.dropLast_concat, hvalue h, String.ofList_toList]
    rfl

/-- What is written between quotes is one token. -/
theorem Writes.code (h : q.Writes cs text.toList) (r : List Char) :
    Lexeme.code ((q.enclose text).toList ++ r) = ⟨.constantString, (q.enclose text).length⟩ := by
  have hlength : (q.enclose text).length = 0 + 1 + (text.toList.length + 1) := by
    rw [← String.length_toList, enclose, String.toList_ofList, List.length_cons,
      List.length_append, List.length_singleton]
    omega
  have htoList : (q.enclose text).toList ++ r = q.mark :: (text.toList ++ q.mark :: r) := by
    rw [enclose, String.toList_ofList, List.cons_append, List.append_assoc]
    rfl
  have hquoted : Lexeme.quoted? (q.mark :: (text.toList ++ q.mark :: r)) =
      some (Lexeme.quotedFrom 0 q.mark (text.toList ++ q.mark :: r)) := by
    cases q <;> rfl
  have hclosed : Lexeme.quotedLength q.mark (text.toList ++ q.mark :: r) =
      (text.toList.length + 1, true) := by
    cases q with
    | single => exact h.paired.quotedLength_eq (by decide) r
    | double => exact (h.paired.mono (by decide)).quotedLength_eq (by decide) r
  have hlexeme : Lexeme.quotedFrom 0 q.mark (text.toList ++ q.mark :: r) =
      ⟨.constantString, (q.enclose text).length⟩ := by
    rw [Lexeme.quotedFrom, hclosed, hlength]
    cases q with
    | single => rfl
    | double =>
      have htake : (text.toList ++ '"' :: r).take (text.toList.length + 1) =
          text.toList ++ ['"'] := by
        rw [List.take_append, List.take_of_length_le (Nat.le_succ _), Nat.add_sub_cancel_left]
        rfl
      have hplain : Lexeme.interpolates (text.toList ++ ['"']) = false :=
        ((h.paired.mono (by decide)).append (.plain (by decide) .nil)).interpolates_eq
      simp only [mark, htake, hplain]
      rfl
  rw [htoList, ← hlexeme]
  refine Lexeme.code_of_first [Lexeme.whitespace?, Lexeme.comment?, Lexeme.closeTag?,
    Lexeme.variableWord?, Lexeme.number?] Lexeme.quoted? rfl ?_ hquoted
  simp only [List.mem_cons, List.not_mem_nil, or_false, forall_eq_or_imp, forall_eq]
  cases q with
  | single => exact ⟨rfl, rfl, rfl, rfl, rfl⟩
  | double => exact ⟨rfl, rfl, rfl, rfl, rfl⟩

end Quote

/-- A string that is written between quotes, in whatever spellings, is scanned as one token and
parsed as a string with its value. -/
theorem quoted_round_trips (q : Quote) {s text : String} (h : q.Writes s.toList text.toList)
    (fileName : Option String) (o : Options) (hstrict : o.suppressErrors = false) :
    (tokenize (program (q.enclose text))).map Token.face =
        programTokens .constantString (q.enclose text) ∧
      ∃ p n e, parse (program (q.enclose text)) fileName o = .ok p ∧ p.children = [n] ∧
        n.production = .expressionStatement e ∧
          e.production = .string s (q.enclose text) (decide (q = .double)) := by
  have htokens := tokenize_program (by decide) (h.code [';'])
  have hliteral : Grammar.literal? .constantString (q.enclose text) =
      some (.string s (q.enclose text) (decide (q = .double))) := by
    rw [Grammar.literal?, Grammar.stringLiteral, h.value]
  exact ⟨htokens, parse_alone fileName hstrict (by decide) htokens hliteral fun _ => rfl⟩

def mixedText : String := "\\xE9\\n\\0447\x7b\\u\x7b01f600\x7d\\$"

theorem mixedText_writes : Quote.double.Writes "é\n$7\x7b😀$".toList mixedText.toList := by
  have hacute : Digits 16 ['E', '9'] 'é'.toNat :=
    .of_value (by decide) (by decide) (by decide)
  have hdollar : Digits 8 ['0', '4', '4'] '$'.toNat :=
    .of_value (by decide) (by decide) (by decide)
  have hface : Digits 16 ['0', '1', 'f', '6', '0', '0'] '😀'.toNat :=
    .of_value (by decide) (by decide) (by decide)
  have hwrites : Quote.double.Writes ['é', '\n', '$', '7', '{', '😀', '$']
      (['\\', 'x', 'E', '9'] ++ (['\\', 'n'] ++ (['\\', '0', '4', '4'] ++ (['7'] ++ (['{'] ++
        (('\\' :: 'u' :: '{' :: (['0', '1', 'f', '6', '0', '0'] ++ ['}'])) ++
          (['\\', '$'] ++ []))))))) :=
    .cons (SpelledDouble.hex rfl (by decide) hacute)
      (.cons (SpelledDouble.named (by decide))
        (.cons (SpelledDouble.octal rfl (by decide) hdollar)
          (.cons (SpelledDouble.plain (by decide)) (.cons (SpelledDouble.plain (by decide))
            (.cons (SpelledDouble.unicode (by decide) hface)
              (.cons (SpelledDouble.named (by decide)) .nil))))))
  exact hwrites

theorem quoted_round_trips_mixed :
    Quote.double.Writes "é\n$7\x7b😀$".toList mixedText.toList ∧
      (tokenize (program (Quote.double.enclose mixedText))).map Token.face =
          programTokens .constantString (Quote.double.enclose mixedText) ∧
        ∃ p n e, parse (program (Quote.double.enclose mixedText)) none {} = .ok p ∧
          p.children = [n] ∧ n.production = .expressionStatement e ∧
            e.production = .string "é\n$7\x7b😀$" (Quote.double.enclose mixedText) true :=
  ⟨mixedText_writes, quoted_round_trips .double mixedText_writes none {} rfl⟩

end PhpSyntax.Literal
