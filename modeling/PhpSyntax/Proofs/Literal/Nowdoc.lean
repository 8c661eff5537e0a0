/-
Nowdocs round-trip.

A nowdoc is written line by line, each line indented as the closing label is
(`Nowdoc.text`).  The scanner looks for the closing label at the start of every line, so no line
of the body may start with it as a whole word, blanks aside; inside a line it may stand.  The
parser then cuts the text into lines once more and takes the indentation off.  Both come back to
the lines that were written (`nowdoc_round_trips`).
-/
import PhpSyntax.Proofs.Literal.Alone

namespace PhpSyntax.Literal

/-! ## What is written -/

/-- A word of letters, digits and underscores of ASCII that does not start with a digit. -/
def isLabel : List Char → Bool
  | [] => false
  | c :: cs => (c.isAlpha || c = '_') && cs.all fun d => d.isAlphanum || d = '_'

/-- Whether a line starts, blanks aside, with the label as a whole word. -/
def closes (label line : List Char) : Bool :=
  label.isPrefixOf (line.dropWhile isBlank) &&
    endsWord ((line.dropWhile isBlank).drop label.length)

/-- A nowdoc before it is written: its label, its indentation and its lines. -/
structure Nowdoc where
  label : String
  indent : String
  body : List String
  label_word : isLabel label.toList = true
  indent_blank : indent.toList.all isBlank = true
  body_ne : body ≠ []
  line_whole : ∀ line ∈ body, '\n' ∉ line.toList
  line_open : ∀ line ∈ body, closes label.toList line.toList = false
  /-- A carriage return in front of the closing line would be part of the line end. -/
  last_plain : (body.getLast body_ne).toList.getLast? ≠ some '\r'

/-- The lines of a body behind each other, each with its indentation and its end. -/
def written (indent : List Char) (body : List (List Char)) : List Char :=
  body.flatMap fun line => indent ++ (line ++ ['\n'])

namespace Nowdoc

def text (d : Nowdoc) : String :=
  "<<<'" ++ d.label ++ "'\n" ++ String.join (d.body.map fun line => d.indent ++ (line ++ "\n")) ++
    (d.indent ++ d.label)

def value (d : Nowdoc) : String := "\n".intercalate d.body

theorem toList_text (d : Nowdoc) :
    d.text.toList = "<<<'".toList ++ (d.label.toList ++ '\'' :: '\n' ::
      (written d.indent.toList (d.body.map String.toList) ++
        (d.indent.toList ++ d.label.toList))) := by
  have hbody : (d.body.map fun line => d.indent ++ (line ++ "\n")).flatMap String.toList =
      written d.indent.toList (d.body.map String.toList) := by
    simp only [written, List.flatMap_map, String.toList_append]
    rfl
  simp only [text, String.toList_append, String.toList_join, hbody, List.append_assoc]
  rfl

end Nowdoc

/-! ## Blanks and labels -/

variable {label indent line cs r : List Char} {body : List (List Char)}

/-- An indentation is part of the blanks at the start of a line. -/
theorem runLength_indent (h : indent.all isBlank = true) (cs : List Char) :
    runLength isBlank (indent ++ cs) = indent.length + runLength isBlank cs := by
  rw [runLength, List.takeWhile_append_of_pos (List.all_eq_true.mp h), List.length_append,
    runLength]

theorem closes_indent (h : indent.all isBlank = true) (cs : List Char) :
    closes label (indent ++ cs) = closes label cs := by
  rw [closes, List.dropWhile_append_of_pos (List.all_eq_true.mp h), closes]

/-- The characters of a label are those of a word. -/
theorem isLabel_chars (h : isLabel label = true) :
    ∀ c ∈ label, (c.isAlphanum || c = '_') = true := by
  cases label with
  | nil => nofun
  | cons c cs =>
    obtain ⟨hc, hcs⟩ := Bool.and_eq_true_iff.mp h
    refine List.forall_mem_cons.mpr ⟨?_, List.all_eq_true.mp hcs⟩
    rw [Char.isAlphanum]
    rcases Bool.or_eq_true_iff.mp hc with hc | hc <;> simp [hc]

/-- What is no character of a word is not in a label. -/
theorem not_mem_of_isLabel (h : isLabel label = true) {c : Char}
    (hc : (c.isAlphanum || c = '_') = false) : c ∉ label := by
  intro hmem
  have hword := isLabel_chars h c hmem
  rw [hc] at hword
  cases hword

/-- A label starts with a character that is no blank. -/
theorem isLabel_head (h : isLabel label = true) :
    ∃ c cs, label = c :: cs ∧ isBlank c = false := by
  cases label with
  | nil => cases h
  | cons c cs =>
    refine ⟨c, cs, rfl, ?_⟩
    rw [Bool.eq_false_iff]
    intro hblank
    rw [isBlank, Bool.or_eq_true, decide_eq_true_eq, decide_eq_true_eq] at hblank
    rcases hblank with rfl | rfl
    · exact not_mem_of_isLabel h (c := ' ') (by decide) List.mem_cons_self
    · exact not_mem_of_isLabel h (c := '\t') (by decide) List.mem_cons_self

/-- The blanks in front of a label are its indentation. -/
theorem runLength_label (hlabel : isLabel label = true) (hindent : indent.all isBlank = true)
    (r : List Char) : runLength isBlank (indent ++ (label ++ r)) = indent.length := by
  obtain ⟨c, cs, rfl, hblank⟩ := isLabel_head hlabel
  rw [runLength_indent hindent, List.cons_append, runLength,
    List.takeWhile_cons_of_neg (by rw [hblank]; decide)]
  rfl

theorem newline_not_mem (h : isLabel label = true) : '\n' ∉ label :=
  not_mem_of_isLabel h (by decide)

theorem newline_not_blank (h : indent.all isBlank = true) : '\n' ∉ indent :=
  fun hmem => absurd (List.all_eq_true.mp h _ hmem) (by decide)

/-- The first of the lines that are written is an indented line and its end. -/
theorem written_cons_append (indent line : List Char) (body : List (List Char)) (r : List Char) :
    written indent (line :: body) ++ r =
      (indent ++ line) ++ '\n' :: (written indent body ++ r) := by
  simp only [written, List.flatMap_cons, List.append_assoc, List.cons_append, List.nil_append]

/-! ## The closing label -/

/-- What is behind the end of a line has no part in whether the line closes the body. -/
theorem closes_line (hlabel : '\n' ∉ label) (line r : List Char) :
    closes label (line ++ '\n' :: r) = closes label line := by
  have hdrop : (line ++ '\n' :: r).dropWhile isBlank = line.dropWhile isBlank ++ '\n' :: r := by
    have hnewline : ('\n' :: r).dropWhile isBlank = '\n' :: r :=
      List.dropWhile_cons_of_neg (by decide)
    rw [List.dropWhile_append]
    split
    · next hempty => rw [hnewline, List.isEmpty_iff.mp hempty, List.nil_append]
    · rfl
  rw [closes, hdrop, closes]
  generalize line.dropWhile isBlank = word
  have hbegin : label.isPrefixOf (word ++ '\n' :: r) = label.isPrefixOf word := by
    rw [Bool.eq_iff_iff, List.isPrefixOf_iff_prefix, List.isPrefixOf_iff_prefix]
    constructor
    · intro h
      have hline : word ++ ['\n'] <+: word ++ '\n' :: r := ⟨r, by simp⟩
      rcases List.prefix_or_prefix_of_prefix h hline with hshort | hlong
      · rcases List.prefix_concat_iff.mp hshort with rfl | hshort
        · exact absurd (by simp) hlabel
        · exact hshort
      · exact absurd (hlong.subset (by simp)) hlabel
    · intro h
      exact h.trans (List.prefix_append _ _)
  rw [hbegin]
  by_cases h : label <+: word
  · obtain ⟨rest, rfl⟩ := h
    rw [List.append_assoc, List.drop_left, List.drop_left]
    cases rest with
    | nil => rw [List.nil_append, endsWord, endsWord]; rfl
    | cons c rest => rfl
  · rw [Bool.eq_false_iff.mpr (mt List.isPrefixOf_iff_prefix.mp h), Bool.false_and, Bool.false_and]

theorem closingLength?_eq (label cs : List Char) : Lexeme.closingLength? label cs =
    if closes label cs then some (runLength isBlank cs + label.length) else none := by
  rw [Lexeme.closingLength?, Lexeme.drop_runLength, closes]

/-- In a line that does not close the body, nothing is found. -/
theorem bodyLength?_line (hline : '\n' ∉ line) (r : List Char) :
    Lexeme.bodyLength? label false (line ++ '\n' :: r) =
      (Lexeme.bodyLength? label true r).map (· + (line.length + 1)) := by
  induction line with
  | nil => rfl
  | cons c line ih =>
    obtain ⟨hc, hline⟩ := List.ne_and_not_mem_of_not_mem_cons hline
    have hstay : Lexeme.bodyLength? label false (c :: (line ++ '\n' :: r)) =
        (Lexeme.bodyLength? label false (line ++ '\n' :: r)).map (· + 1) := by
      rw [Lexeme.bodyLength?, decide_eq_false (Ne.symm hc)]
      rfl
    rw [List.cons_append, hstay, ih hline, Option.map_map]
    rfl

theorem bodyLength?_open (h : closes label cs = false) :
    Lexeme.bodyLength? label true cs = Lexeme.bodyLength? label false cs := by
  cases cs with
  | nil => rfl
  | cons c cs =>
    rw [Lexeme.bodyLength?, Lexeme.bodyLength?, closingLength?_eq, h]
    rfl

/-- The closing label is found behind all lines of the body, for none of them closes it. -/
theorem bodyLength?_written (hlabel : isLabel label = true) (hindent : indent.all isBlank = true)
    (hbody : ∀ line ∈ body, '\n' ∉ line ∧ closes label line = false) (hr : endsWord r = true) :
    Lexeme.bodyLength? label true (written indent body ++ (indent ++ (label ++ r))) =
      some ((written indent body).length + (indent.length + label.length)) := by
  induction body with
  | nil =>
    obtain ⟨c, cs, hcons, hblank⟩ := isLabel_head hlabel
    have hclosing : Lexeme.closingLength? label (indent ++ (label ++ r)) =
        some (indent.length + label.length) := by
      have hcloses : closes label (indent ++ (label ++ r)) = true := by
        have hword : (label ++ r).dropWhile isBlank = label ++ r := by
          rw [hcons, List.cons_append]
          exact List.dropWhile_cons_of_neg (by rw [hblank]; decide)
        rw [closes_indent hindent, closes, hword, List.drop_left, hr, Bool.and_true,
          List.isPrefixOf_iff_prefix]
        exact List.prefix_append _ _
      rw [closingLength?_eq, hcloses, if_pos rfl, runLength_label hlabel hindent]
    have hne : indent ++ (label ++ r) ≠ [] := by simp [hcons]
    obtain ⟨d, ds, hds⟩ := List.exists_cons_of_ne_nil hne
    show Lexeme.bodyLength? label true (indent ++ (label ++ r)) = some (0 + _)
    rw [hds] at hclosing ⊢
    rw [Lexeme.bodyLength?, if_pos rfl, hclosing, Nat.zero_add]
  | cons line body ih =>
    obtain ⟨⟨hwhole, hopen⟩, hbody⟩ := List.forall_mem_cons.mp hbody
    have hopen : closes label ((indent ++ line) ++
        '\n' :: (written indent body ++ (indent ++ (label ++ r)))) = false := by
      rw [closes_line (newline_not_mem hlabel), closes_indent hindent, hopen]
    have hwhole : '\n' ∉ indent ++ line := List.not_mem_append (newline_not_blank hindent) hwhole
    rw [written_cons_append, bodyLength?_open hopen, bodyLength?_line hwhole, ih hbody,
      Option.map_some]
    simp only [written, List.flatMap_cons, List.length_append, List.length_singleton]
    exact congrArg some (by omega)

/-! ## One token -/

theorem heredocHead_quoted (hlabel : isLabel label = true) (r : List Char) :
    Lexeme.heredocHead ('\'' :: (label ++ '\'' :: r)) = .labelled label (label.length + 2) := by
  have hlength : Lexeme.labelLength (label ++ '\'' :: r) = label.length := by
    have hrun : runLength (fun d => d.isAlphanum || d = '_') (label ++ '\'' :: r) =
        label.length := by
      rw [runLength, List.takeWhile_append_of_pos (isLabel_chars hlabel),
        List.takeWhile_cons_of_neg (by decide), List.append_nil]
    cases label with
    | nil => cases hlabel
    | cons c cs =>
      rw [List.cons_append] at hrun ⊢
      rw [Lexeme.labelLength, if_pos (Bool.and_eq_true_iff.mp hlabel).1, hrun]
  have hpos : label.length ≠ 0 := by
    obtain ⟨c, cs, rfl, _⟩ := isLabel_head hlabel
    exact Nat.succ_ne_zero _
  have hblanks : runLength isBlank ('\'' :: (label ++ '\'' :: r)) = 0 := rfl
  simp only [Lexeme.heredocHead, hblanks, List.drop_zero, hlength, if_neg hpos, List.drop_left,
    List.take_left, List.head?_cons, if_true, Nat.zero_add]

namespace Nowdoc

variable (d : Nowdoc)

theorem line_chars : ∀ line ∈ d.body.map String.toList,
    '\n' ∉ line ∧ closes d.label.toList line = false := by
  intro line hline
  obtain ⟨l, hl, rfl⟩ := List.mem_map.mp hline
  exact ⟨d.line_whole l hl, d.line_open l hl⟩

/-- In front of anything that does not go on with the closing label, a nowdoc is one token. -/
theorem code {r : List Char} (hr : endsWord r = true) :
    Lexeme.code (d.text.toList ++ r) = ⟨.heredoc, d.text.length⟩ := by
  let rest := written d.indent.toList (d.body.map String.toList) ++
    (d.indent.toList ++ (d.label.toList ++ r))
  have htext : d.text.toList ++ r =
      '<' :: '<' :: '<' :: '\'' :: (d.label.toList ++ '\'' :: '\n' :: rest) := by
    rw [toList_text]
    simp only [List.append_assoc, List.cons_append, rest]
    rfl
  have hbehind : ('\'' :: (d.label.toList ++ '\'' :: '\n' :: rest)).drop
      (d.label.toList.length + 2) = '\n' :: rest := by
    rw [List.drop_succ_cons, List.drop_append, List.drop_of_length_le (Nat.le_succ _),
      Nat.add_sub_cancel_left]
    rfl
  have hbody : ('\'' :: (d.label.toList ++ '\'' :: '\n' :: rest)).drop
      (d.label.toList.length + 2 + 1) = rest := by
    rw [← List.drop_drop, hbehind]
    rfl
  have hlength : d.text.length = 3 + (d.label.toList.length + 2) + 1 +
      ((written d.indent.toList (d.body.map String.toList)).length +
        (d.indent.toList.length + d.label.toList.length)) := by
    have hthree : "<<<'".toList.length = 4 := rfl
    rw [← String.length_toList, toList_text]
    simp only [List.length_append, List.length_cons, hthree]
    omega
  have hheredoc : Lexeme.heredoc? (d.text.toList ++ r) = some ⟨.heredoc, d.text.length⟩ := by
    rw [htext, Lexeme.heredoc?, heredocHead_quoted d.label_word]
    simp only [hbehind, Lexeme.lineEndLength?, hbody, rest,
      bodyLength?_written d.label_word d.indent_blank d.line_chars hr, hlength]
  refine Lexeme.code_of_first [Lexeme.whitespace?, Lexeme.comment?, Lexeme.closeTag?,
    Lexeme.variableWord?, Lexeme.number?, Lexeme.quoted?] Lexeme.heredoc? rfl ?_ hheredoc
  simp only [List.mem_cons, List.not_mem_nil, or_false, forall_eq_or_imp, forall_eq]
  rw [htext]
  exact ⟨rfl, rfl, rfl, rfl, rfl, rfl⟩

end Nowdoc

/-! ## The value -/

theorem lines_line (hline : '\n' ∉ line) (r : List Char) :
    lines (line ++ '\n' :: r) = line :: lines r := by
  induction line with
  | nil => rfl
  | cons c line ih =>
    obtain ⟨hc, hline⟩ := List.ne_and_not_mem_of_not_mem_cons hline
    rw [List.cons_append, lines, if_neg (Ne.symm hc), ih hline]

theorem lines_last (hline : '\n' ∉ line) : lines line = [line] := by
  induction line with
  | nil => rfl
  | cons c line ih =>
    obtain ⟨hc, hline⟩ := List.ne_and_not_mem_of_not_mem_cons hline
    rw [lines, if_neg (Ne.symm hc), ih hline]

/-- The lines that are written are found again. -/
theorem lines_written (hindent : '\n' ∉ indent) (hbody : ∀ line ∈ body, '\n' ∉ line)
    (hlast : '\n' ∉ cs) :
    lines (written indent body ++ cs) = body.map (indent ++ ·) ++ [cs] := by
  induction body with
  | nil => exact lines_last hlast
  | cons line body ih =>
    obtain ⟨hline, hbody⟩ := List.forall_mem_cons.mp hbody
    rw [written_cons_append, lines_line (List.not_mem_append hindent hline), ih hbody]
    rfl

/-- The indentation of a line is what is taken off it. -/
theorem dedent_indent (h : indent.all isBlank = true) (line : List Char) :
    dedent indent.length (indent ++ line) = line := by
  rw [dedent, runLength_indent h, Nat.min_eq_left (Nat.le_add_right _ _), List.drop_left]

theorem dropFinalReturn_eq {ls : List (List Char)} {last : List Char}
    (hls : ls.getLast? = some last)
    (hlast : last.getLast? ≠ some '\r') : dropFinalReturn ls = ls := by
  simp only [dropFinalReturn, hls, if_neg hlast]

/-- No carriage return is at the end of an indented line if there is none at the end of the
line. -/
theorem getLast?_indent (h : indent.all isBlank = true) (hline : line.getLast? ≠ some '\r') :
    (indent ++ line).getLast? ≠ some '\r' := by
  rw [List.getLast?_append]
  cases hlast : line.getLast? with
  | some c =>
    rw [hlast] at hline
    exact hline
  | none =>
    intro hreturn
    exact absurd (List.all_eq_true.mp h '\r' (List.mem_of_getLast? hreturn)) (by decide)

theorem writtenLabel_eq (hlabel : isLabel label = true) :
    writtenLabel ('<' :: '<' :: '<' :: '\'' :: (label ++ ['\''])) =
      '\'' :: (label ++ ['\'']) := by
  have hword : ∀ c ∈ '\'' :: (label ++ ['\'']), (!isSpace c) = true := by
    intro c hc
    have hspace : [' ', '\t', '\n', '\r'].all
        (fun e => !(e.isAlphanum || e = '_') && e ≠ '\'') = true := by decide
    rw [Bool.not_eq_true', Bool.eq_false_iff]
    intro hblank
    have hmem : c ∈ [' ', '\t', '\n', '\r'] := by
      simpa [isSpace, isBlank, or_assoc] using hblank
    obtain ⟨hother, hquote⟩ := Bool.and_eq_true_iff.mp (List.all_eq_true.mp hspace c hmem)
    have hin : c ∈ label := by simpa [of_decide_eq_true hquote] using hc
    rw [Bool.not_eq_true'] at hother
    exact not_mem_of_isLabel hlabel hother hin
  show ((('\'' :: (label ++ ['\''])).dropWhile isSpace).takeWhile (!isSpace ·)) = _
  rw [List.dropWhile_cons_of_neg (by decide)]
  exact List.takeWhile_eq_self_iff.mpr hword

namespace Nowdoc

variable (d : Nowdoc)

theorem nowdoc?_text : nowdoc? d.text = some (d.label, d.value) := by
  have hnewline := newline_not_mem d.label_word
  have hblank := newline_not_blank d.indent_blank
  have hfirst : '\n' ∉ '<' :: '<' :: '<' :: '\'' :: (d.label.toList ++ ['\'']) := by
    simp [hnewline]
  have hlast : '\n' ∉ d.indent.toList ++ d.label.toList := List.not_mem_append hblank hnewline
  have hlines : lines d.text.toList = ('<' :: '<' :: '<' :: '\'' :: (d.label.toList ++ ['\''])) ::
      ((d.body.map String.toList).map (d.indent.toList ++ ·) ++
        [d.indent.toList ++ d.label.toList]) := by
    have htext : d.text.toList = ('<' :: '<' :: '<' :: '\'' :: (d.label.toList ++ ['\''])) ++ '\n' ::
        (written d.indent.toList (d.body.map String.toList) ++
          (d.indent.toList ++ d.label.toList)) := by
      rw [toList_text]
      simp only [List.append_assoc, List.cons_append, List.nil_append]
      rfl
    rw [htext, lines_line hfirst, lines_written hblank (fun l hl => (d.line_chars l hl).1) hlast]
  have hreturn : dropFinalReturn ((d.body.map String.toList).map (d.indent.toList ++ ·)) =
      (d.body.map String.toList).map (d.indent.toList ++ ·) := by
    refine dropFinalReturn_eq ?_ (getLast?_indent d.indent_blank d.last_plain)
    rw [List.map_map, List.getLast?_map, List.getLast?_eq_some_getLast d.body_ne]
    rfl
  have hindent : runLength isBlank (d.indent.toList ++ d.label.toList) =
      d.indent.toList.length := by
    have hrun := runLength_label d.label_word d.indent_blank []
    rwa [List.append_nil] at hrun
  have hdedent : ((d.body.map String.toList).map (d.indent.toList ++ ·)).map
      (dedent d.indent.toList.length) = d.body.map String.toList := by
    rw [List.map_map]
    refine Eq.trans (List.map_congr_left fun line _ => ?_) (List.map_id _)
    exact dedent_indent d.indent_blank line
  have hlabel : (d.label.toList ++ ['\'']).takeWhile (· ≠ '\'') = d.label.toList := by
    have hquote : ∀ c ∈ d.label.toList, decide (c ≠ '\'') = true := by
      intro c hc
      refine decide_eq_true fun h => ?_
      exact not_mem_of_isLabel d.label_word (c := '\'') (by decide) (h ▸ hc)
    rw [List.takeWhile_append_of_pos hquote, List.takeWhile_cons_of_neg (by decide),
      List.append_nil]
  have hvalue : String.ofList ((d.body.map String.toList).intersperse ['\n']).flatten =
      d.value := by
    rw [← String.toList_inj, String.toList_ofList, value, String.toList_intercalate]
    rfl
  simp only [nowdoc?, hlines, writtenLabel_eq d.label_word, List.getLast?_concat, Option.getD_some,
    List.dropLast_concat, hreturn, hindent, hdedent, hlabel, hvalue, String.ofList_toList]

end Nowdoc

/-- A nowdoc is scanned as one token up to its closing label and parsed as a nowdoc with its
label and its lines. -/
theorem nowdoc_round_trips (d : Nowdoc) (fileName : Option String) (o : Options)
    (hstrict : o.suppressErrors = false) :
    (tokenize (program d.text)).map Token.face = programTokens .heredoc d.text ∧
      ∃ p n e, parse (program d.text) fileName o = .ok p ∧ p.children = [n] ∧
        n.production = .expressionStatement e ∧
          e.production = .nowdoc d.text d.label ("\n".intercalate d.body) := by
  have htokens := tokenize_program (by decide) (d.code (r := [';']) rfl)
  have hliteral : Grammar.literal? .heredoc d.text = some (.nowdoc d.text d.label d.value) := by
    rw [Grammar.literal?, Grammar.heredocLiteral, d.nowdoc?_text]
  exact ⟨htokens, parse_alone fileName hstrict (by decide) htokens hliteral fun _ => rfl⟩

/-- The label inside lines and as the start of a longer word, more indentation, an empty line, a
carriage return that is not at the end, and characters beyond ASCII. -/
def Nowdoc.indented : Nowdoc where
  label := "EOT"
  indent := "\t "
  body := ["EOTA, EOT", "", "  é EOT\r", "EOTé $x"]
  label_word := by decide
  indent_blank := by decide
  body_ne := by decide
  line_whole := by decide
  line_open := by decide
  last_plain := by decide

theorem nowdoc_round_trips_indented :
    Nowdoc.indented.text =
        "<<<'EOT'\n\t EOTA, EOT\n\t \n\t   é EOT\r\n\t EOTé $x\n\t EOT" ∧
      ({} : Options).suppressErrors = false ∧
        (tokenize (program Nowdoc.indented.text)).map Token.face =
            programTokens .heredoc Nowdoc.indented.text ∧
          ∃ p n e, parse (program Nowdoc.indented.text) none {} = .ok p ∧ p.children = [n] ∧
            n.production = .expressionStatement e ∧
              e.production = .nowdoc Nowdoc.indented.text "EOT"
                ("\n".intercalate ["EOTA, EOT", "", "  é EOT\r", "EOTé $x"]) :=
  ⟨by decide +kernel, rfl, nowdoc_round_trips .indented none {} rfl⟩

end PhpSyntax.Literal
