/-
Patterns that are read as arrays.

Behind a short array an equals sign makes a destructuring list of it (`Node.asPattern`), so the
entries of a pattern in front of one are read as those of an array.  Where two texts have the
entries in common, one parse may read them in a pattern and the other in an array.  If no place
of the pattern is skipped, the array becomes the pattern (`entries_reread`).

The induction is on the tree of the pattern, and in each pattern on its entries.
-/
import PhpSyntax.Proofs.Fork.Parts

namespace PhpSyntax

/-! ## Patterns without skipped places -/

mutual

/-- What may stand at a place of a short pattern: a short pattern itself, or what is no pattern
at all. -/
def Node.isPlace : Node → Bool
  | ⟨_, p⟩ => Production.isPlace p

def Production.isPlace : Production Node → Bool
  | .list items shortform => shortform && Node.areFilled items
  | .array .. | .entry .. => false
  | _ => true

def Node.areFilled : List Node → Bool
  | [] => true
  | n :: ns => n.isFilled && Node.areFilled ns

/-- An entry of a short pattern.  Its key is no pattern. -/
def Node.isFilled : Node → Bool
  | ⟨_, p⟩ => Production.isFilled p

def Production.isFilled : Production Node → Bool
  | .entry key value unpack => !unpack && !key.any Grammar.isList && value.isPlace
  | _ => false

end

theorem Node.areFilled_iff {ns : List Node} :
    areFilled ns = true ↔ ∀ n ∈ ns, n.isFilled = true := by
  induction ns with
  | nil => simp [areFilled]
  | cons n ns ih => simp [areFilled, ih]

theorem Node.filled_entry {n : Node} (h : n.isFilled = true) : ∃ key value,
    n.production = .entry key value false ∧ key.any Grammar.isList = false ∧
      value.isPlace = true := by
  obtain ⟨info, p⟩ := n
  cases p with
  | entry key value unpack =>
    have h : (!unpack && !key.any Grammar.isList && value.isPlace) = true := h
    simp only [Bool.and_eq_true, Bool.not_eq_true'] at h
    obtain ⟨⟨rfl, hkey⟩, hvalue⟩ := h
    exact ⟨key, value, rfl, hkey, hvalue⟩
  | _ => cases h

/-- What is no pattern stays what it is where an array is read as one. -/
theorem Node.asPattern_of_isPlace {n : Node} (h : n.isPlace = true) : n.asPattern = n := by
  obtain ⟨info, p⟩ := n
  cases p <;> first | rfl | cases h

variable {F : Fork} {s t u : ParseState} {n : Node} {ns : List Node}

namespace Grammar
open PhpSyntax.Parser

/-! ## Entries -/

theorem entryPart_onward (isPattern : Bool) : Onward (entryPart isPattern) :=
  KeepsPace.onward fun _ hs => ⟨_, _, entryPart_sat (Stage.start hs) (by decide)⟩

theorem entry_onward (isPattern : Bool) : Onward (entry isPattern) :=
  KeepsPace.onward fun _ hs => ⟨_, _, entry_sat (Stage.start hs) (by decide)⟩

theorem entryPart_follows (isPattern : Bool) :
    Follows F F.image (entryPart isPattern) (entryPart isPattern) :=
  .of_echoes (fun _ hs => ⟨_, _, entryPart_sat (Stage.start hs) (by decide)⟩)
    (entryPart_echoes isPattern)

/-- An entry that does not start with an ellipsis is a value, or a key and a value. -/
theorem yields_entry {isPattern : Bool} (hk : s.kind ≠ .ellipsis) :
    (entry isPattern).Yields s n u ↔ ∃ first m, (entryPart isPattern).Yields s.openNode.2 first m ∧
      ((m.kind = .doubleArrow ∧ ∃ value v, (entryPart isPattern).Yields m.advance value v ∧
          (finish s.openNode.1 (.entry (some first) value false)).Yields v n u) ∨
        (m.kind ≠ .doubleArrow ∧
          (finish s.openNode.1 (.entry none first false)).Yields m n u)) := by
  have hopen : s.openNode.2.kind ≠ .ellipsis := hk
  rw [entry, yields_openNode_bind, yields_isAt_bind, decide_eq_false hopen,
    if_neg Bool.false_ne_true, yields_bind]
  refine exists_congr fun first => exists_congr fun m => and_congr_right fun _ => ?_
  rw [yields_bind]
  constructor
  · rintro ⟨value, v, hafter, h⟩
    obtain ⟨c, w, hc, hbehind⟩ := yields_bind.mp hafter
    rcases yields_eat.mp hc with ⟨hm, rfl, rfl⟩ | ⟨hm, rfl, rfl⟩
    · obtain ⟨value', v', hvalue, hsome⟩ := yields_bind.mp hbehind
      obtain ⟨rfl, rfl⟩ := yields_pure.mp hsome
      exact Or.inl ⟨hm, value', _, hvalue, h⟩
    · obtain ⟨rfl, rfl⟩ := yields_pure.mp hbehind
      exact Or.inr ⟨hm, h⟩
  · rintro (⟨hm, value, v, hvalue, h⟩ | ⟨hm, h⟩)
    · refine ⟨some value, v, yields_bind.mpr ⟨true, m.advance, ?_, ?_⟩, h⟩
      · exact yields_eat.mpr (Or.inl ⟨hm, rfl, rfl⟩)
      · exact yields_bind.mpr ⟨value, v, hvalue, yields_pure.mpr ⟨rfl, rfl⟩⟩
    · refine ⟨none, m, yields_bind.mpr ⟨false, m, ?_, yields_pure.mpr ⟨rfl, rfl⟩⟩, h⟩
      exact yields_eat.mpr (Or.inr ⟨hm, rfl, rfl⟩)

theorem entry_ellipsis {isPattern : Bool} (hk : s.kind = .ellipsis)
    (h : (entry isPattern).Yields s n u) : n.isFilled = false := by
  have hopen : s.openNode.2.kind = .ellipsis := hk
  rw [entry, yields_openNode_bind, yields_isAt_bind, decide_eq_true hopen, if_pos rfl] at h
  obtain ⟨_, _, _, h⟩ := yields_bind.mp h
  obtain ⟨_, _, _, h⟩ := yields_bind.mp h
  obtain ⟨_, _, _, h⟩ := yields_bind.mp h
  obtain ⟨rfl, _⟩ := yields_finish.mp h
  rfl

/-- The entries of a pattern that skips no place. -/
theorem entries_cases (hs : s.tolerates = false) (hsound : s.stream.Sound)
    (hfilled : ∀ n ∈ ns, n.isFilled = true) (h : (entries .rBracket true).Yields s ns u) :
    (s.kind = .rBracket ∧ ns = [] ∧ u = s.advance) ∨
      (s.kind ≠ .rBracket ∧ s.kind ≠ .eof ∧ ∃ n ms m, ns = n :: ms ∧ (entry true).Yields s n m ∧
        ((m.kind = .comma ∧ (entries .rBracket true).Yields m.advance ms u) ∨
          (m.kind = .rBracket ∧ ms = [] ∧ u = m.advance))) := by
  by_cases hk : s.kind = .rBracket
  · exact Or.inl ⟨hk, (yields_entries_nil hs hk).mp h⟩
  have heof : s.kind ≠ .eof := fun heof => not_yields_entries hs hk heof h
  refine Or.inr ⟨hk, heof, ?_⟩
  have hcomma : s.kind ≠ .comma := by
    intro hcomma
    obtain ⟨n, _, ms, hn, _, rfl⟩ := (yields_entries_skip hk hcomma).mp h
    obtain ⟨rfl, _⟩ := yields_finish.mp hn
    exact Bool.false_ne_true (hfilled _ List.mem_cons_self)
  obtain ⟨n, m, hn, h⟩ := (yields_entries_cons hk heof (by simp [hcomma])).mp h
  have hm : m.tolerates = false := (entry_onward true hs hsound hn).strict hs
  rcases h with ⟨hmk, ms, hms, rfl⟩ | ⟨_, hrequire, rfl⟩
  · exact ⟨n, ms, m, rfl, hn, Or.inl ⟨hmk, hms⟩⟩
  · obtain ⟨hclose, rfl⟩ := (yields_require hm).mp hrequire
    exact ⟨n, [], m, rfl, hn, Or.inr ⟨hclose, rfl, rfl⟩⟩

/-! ## Arrays and lists -/

/-- Behind the opening bracket a list is its entries. -/
theorem yields_listPattern (hk : s.kind = .lBracket) :
    listPattern.Yields s n u ↔ ∃ items m,
      (entries .rBracket true).Yields s.openNode.2.advance items m ∧
        (finish s.openNode.1 (.list items true)).Yields m n u := by
  have hopen : s.openNode.2.kind = .lBracket := hk
  rw [listPattern, yields_openNode_bind, yields_isAt_bind, decide_eq_true hopen, openEntries]
  simp only [if_true, bind_bind, pure_bind]
  rw [yields_advance_bind, yields_bind]
  exact exists_congr fun items => exists_congr fun m => and_congr_left' yields_call

theorem yields_arrayLiteral (hk : s.kind = .lBracket) :
    arrayLiteral.Yields s n u ↔ ∃ items m,
      (entries .rBracket false).Yields s.openNode.2.advance items m ∧
        (finish s.openNode.1 (.array items true)).Yields m n u := by
  have hopen : s.openNode.2.kind = .lBracket := hk
  rw [arrayLiteral, yields_openNode_bind, yields_isAt_bind, decide_eq_true hopen, openEntries]
  simp only [if_true, bind_bind, pure_bind]
  rw [yields_advance_bind, yields_bind]
  exact exists_congr fun items => exists_congr fun m => and_congr_left' yields_call

theorem listPattern_list (h : listPattern.Yields s n u) :
    ∃ items, n.production = .list items (decide (s.kind = .lBracket)) := by
  rw [listPattern, yields_openNode_bind, yields_isAt_bind] at h
  obtain ⟨close, v, _, h⟩ := yields_bind.mp h
  obtain ⟨items, w, _, h⟩ := yields_bind.mp h
  obtain ⟨rfl, _⟩ := yields_finish.mp h
  exact ⟨items, rfl⟩

/-- A list at a place of a short pattern is short. -/
theorem listPattern_short (hn : n.isPlace = true) (h : listPattern.Yields s n u) :
    s.kind = .lBracket := by
  obtain ⟨items, hitems⟩ := listPattern_list h
  obtain ⟨info, p⟩ := n
  obtain rfl : p = .list items (decide (s.kind = .lBracket)) := hitems
  exact of_decide_eq_true (Bool.and_eq_true_iff.mp hn).1

/-- In a pattern a bracket and the keyword of long lists open a list. -/
theorem entryPart_cases (h : (entryPart true).Yields s n u) :
    (listPattern.Yields s n u ∧ (s.kind = .lBracket ∨ s.kind = .kwList)) ∨
      (entryPart false).Yields s n u := by
  rw [entryPart, yields_kind_bind] at h ⊢
  split at h
  case h_2 hk => exact Or.inl ⟨h, Or.inr hk⟩
  case h_3 hk => exact Or.inl ⟨h, Or.inl hk⟩
  case h_1 => exact Or.inr h
  case h_4 => exact Or.inr h

/-! ## Operands and what follows them -/

def operandEnds : List TokenKind := [.comma, .rBracket, .kwAs, .semicolon]

theorem lookups_ends (hk : s.kind ∈ operandEnds) : (call (.lookups n false)).Yields s n s := by
  refine yields_call.mpr (yields_bind.mpr ⟨none, s, ?_, yields_pure.mpr ⟨rfl, rfl⟩⟩)
  rw [lookup?, yields_kind_bind]
  simp only [operandEnds, List.mem_cons, List.not_mem_nil, or_false] at hk
  rcases hk with hk | hk | hk | hk
  all_goals
    rw [hk]
    exact yields_pure.mpr ⟨rfl, rfl⟩

theorem ofToken?_operandEnds : ∀ k ∈ operandEnds, Infix.ofToken? k = none ∧
    AssignOp.ofToken? k = none ∧ UpdateOp.ofToken? k = none := by decide

theorem expression_of_operand (h : operand.Yields s n u) (hk : u.kind ∈ operandEnds) :
    Parser.expression.Yields s n u := by
  refine yields_call.mpr (yields_bind.mpr ⟨n, u, yields_call.mpr h, yields_call.mpr ?_⟩)
  show (infixes 0 n).Yields u n u
  rw [infixes, yields_kind_bind, (ofToken?_operandEnds u.kind hk).1]
  exact yields_pure.mpr ⟨rfl, rfl⟩

def literalStarts : List TokenKind := [.lBracket, .constantString, .heredoc]

/-- A literal is an operand by its first token. -/
theorem operand_of_literal (hk : s.kind ∈ literalStarts) (h : literal.Yields s n u) :
    operand.Yields s n u := by
  have hsets : ∀ k ∈ literalStarts, Category.variable.set.contains k = false ∧
      Category.scalar.set.contains k = true := by decide
  obtain ⟨hvariable, hscalar⟩ := hsets s.stream.current.kind hk
  have hsimple : simpleOperand.Yields s n u := by
    rw [simpleOperand, isIn, yields_read_bind, hvariable, if_neg Bool.false_ne_true, isIn,
      yields_read_bind, hscalar, if_pos rfl]
    exact h
  rw [operand, yields_kind_bind]
  simp only [literalStarts, List.mem_cons, List.not_mem_nil, or_false] at hk
  rcases hk with hk | hk | hk
  all_goals
    rw [hk]
    exact hsimple

/-- An expression in front of a semicolon is a statement. -/
theorem expressionStatement_of (h : Parser.expression.Yields s.openNode.2 n u)
    (hu : u.tolerates = false) (hk : u.kind = .semicolon) :
    ∃ m v, expressionStatement.Yields s m v ∧ m.production = .expressionStatement n ∧
      v.stream = u.stream.advance := by
  let v := u.advance.finishNode s.openNode.1
  refine ⟨⟨v.1, .expressionStatement n⟩, v.2, ?_, rfl, rfl⟩
  rw [expressionStatement, yields_openNode_bind]
  refine yields_bind.mpr ⟨n, u, h, yields_bind.mpr ⟨(), u.advance, ?_, ?_⟩⟩
  · exact (yields_endStatement hu).mpr (Or.inl ⟨hk, rfl⟩)
  · exact yields_finish.mpr ⟨rfl, rfl⟩

/-- A short array is a literal, and in front of an equals sign the target of an assignment. -/
theorem yields_literal (hk : s.kind = .lBracket) :
    literal.Yields s n u ↔ ∃ m v, arrayLiteral.Yields s m v ∧
      if v.kind = .equal then (assignment m.asPattern .assign).Yields v n u
      else (call (.lookups m false)).Yields v n u := by
  have hscalar : ∀ {m v}, scalar.Yields s m v ↔ arrayLiteral.Yields s m v := by
    intro m v
    rw [scalar, yields_kind_bind, hk]
  rw [literal, yields_isAt_bind, decide_eq_true hk, yields_bind]
  refine exists_congr fun m => exists_congr fun v => ?_
  rw [hscalar]
  refine and_congr_right fun hm => ?_
  obtain ⟨items, w, _, hfinish⟩ := (yields_arrayLiteral hk).mp hm
  obtain ⟨rfl, _⟩ := yields_finish.mp hfinish
  rw [yields_isAt_bind, Bool.true_and]
  by_cases hv : v.kind = .equal
  · rw [decide_eq_true hv, if_pos rfl, if_pos hv]
  · rw [decide_eq_false hv, if_neg Bool.false_ne_true, if_neg hv]

/-! ## The same entries in a pattern and in an array -/

/-- What one parse has read in a pattern the other reads in an array, and it becomes the
pattern. -/
def Rereads (F : Fork) (p : Bool → Parser Node) (n : Node) : Prop :=
  ∀ ⦃s t u : ParseState⦄, s.Inside F t → (p true).Yields s n u → F.left < u.stream.rest →
    u.kind = .comma ∨ u.kind = .rBracket →
    ∃ m v, (p false).Yields t m v ∧ m.asPattern = F.image n ∧ u.Inside F v

theorem isList_of_listPattern (h : listPattern.Yields s n u) : isList n = true := by
  obtain ⟨items, hn⟩ := listPattern_list h
  rw [isList, hn]

/-- An entry is finished behind its value. -/
theorem finish_rereads (o : Opened) (key : Option Node) {value w : Node} {v : ParseState}
    (hin : u.Inside F v) (hw : w.asPattern = F.image value) :
    ∃ m v', (finish o (.entry (key.map F.image) w false)).Yields v m v' ∧
      m.asPattern = F.image ⟨(u.finishNode o).1, .entry key value false⟩ ∧
        (u.finishNode o).2.Inside F v' := by
  obtain ⟨hin', hinfo⟩ := hin.finishNode o
  refine ⟨⟨(v.finishNode o).1, .entry (key.map F.image) w false⟩, (v.finishNode o).2,
    yields_finish.mpr ⟨rfl, rfl⟩, ?_, hin'⟩
  rw [Fork.image_mk, hinfo, Node.asPattern, Production.asPattern, hw]
  rfl

theorem entry_rereads (hn : n.isFilled = true)
    (hvalue : ∀ key value, n.production = .entry key value false → Rereads F entryPart value) :
    Rereads F entry n := by
  intro s t u hs hy hlt hu
  obtain ⟨key, value, hentry, hkey, _⟩ := Node.filled_entry hn
  have hrereads := hvalue key value hentry
  have hk : s.kind ≠ .ellipsis := fun hk =>
    Bool.false_ne_true ((entry_ellipsis hk hy).symm.trans hn)
  have hk' : t.kind ≠ .ellipsis := hs.kind ▸ hk
  obtain ⟨hopen, hs'⟩ := hs.openNode
  obtain ⟨first, m, hfirst, h⟩ := (yields_entry hk).mp hy
  have hgo := entryPart_onward true hs'.strict hs'.sound hfirst
  rcases h with ⟨hm, value', v, hv, hfinish⟩ | ⟨hm, hfinish⟩
  · obtain ⟨rfl, rfl⟩ := yields_finish.mp hfinish
    cases hentry
    -- The key is no pattern, so both parses read it in the same way.
    have hplain : (entryPart false).Yields s.openNode.2 first m :=
      (entryPart_cases hfirst).resolve_left fun ⟨hlist, _⟩ =>
        Bool.false_ne_true (hkey.symm.trans (isList_of_listPattern hlist))
    have hadvance : m.advance.stream.rest + 1 = m.stream.rest :=
      Stream.rest_advance hgo.sound (hm ▸ by decide : m.kind ≠ .eof)
    have hgo' : s.openNode.2.stream.GoesOn m.advance.stream := hgo.trans (.advance hgo.sound)
    have hle : v.stream.rest ≤ m.advance.stream.rest :=
      (entryPart_onward true (hgo'.strict hs'.strict) hgo'.sound hv).rest_le hgo'.sound
    have hlt : F.left < v.stream.rest := hlt
    obtain ⟨m', hm', hin⟩ := (entryPart_follows false).inside hs' hplain (by omega)
    obtain ⟨w, v', hw, hpattern, hin'⟩ := hrereads (hin.step (by omega)) hv hlt hu
    obtain ⟨e, x, hfinish', he, hx⟩ := finish_rereads s.openNode.1 (some first) hin' hpattern
    refine ⟨e, x, (yields_entry hk').mpr ⟨F.image first, m', hm', Or.inl ⟨?_, w, v', hw, ?_⟩⟩, he,
      hx⟩
    · rw [hin.kind]
      exact hm
    · rw [hopen]
      exact hfinish'
  · obtain ⟨rfl, rfl⟩ := yields_finish.mp hfinish
    cases hentry
    obtain ⟨w, m', hw, hpattern, hin⟩ := hrereads hs' hfirst hlt hu
    obtain ⟨e, x, hfinish', he, hx⟩ := finish_rereads s.openNode.1 none hin hpattern
    refine ⟨e, x, (yields_entry hk').mpr ⟨w, m', hw, Or.inr ⟨?_, ?_⟩⟩, he, hx⟩
    · rw [hin.kind]
      exact hm
    · rw [hopen]
      exact hfinish'

/-- The entries of a pattern take at least the bracket behind them. -/
theorem entries_lt (hs : s.tolerates = false) (hsound : s.stream.Sound)
    (hfilled : ∀ n ∈ ns, n.isFilled = true) (h : (entries .rBracket true).Yields s ns u) :
    u.stream.rest < s.stream.rest := by
  have hclose {m : ParseState} (hm : m.stream.Sound) (hk : m.kind = .rBracket) :
      m.advance.stream.rest + 1 = m.stream.rest :=
    Stream.rest_advance hm (hk ▸ by decide : m.kind ≠ .eof)
  induction ns generalizing s with
  | nil =>
    rcases entries_cases hs hsound hfilled h with ⟨hk, _, rfl⟩ | ⟨_, _, _, _, _, he, _⟩
    · have hadvance := hclose hsound hk
      omega
    · cases he
  | cons n ns ih =>
    rcases entries_cases hs hsound hfilled h with ⟨_, he, _⟩ | ⟨_, _, n', ms, m, he, hn, hm⟩
    · cases he
    obtain ⟨rfl, rfl⟩ := List.cons.inj he
    have hgo := entry_onward true hs hsound hn
    have hle := hgo.rest_le hsound
    rcases hm with ⟨hk, hms⟩ | ⟨hk, _, rfl⟩
    · have hadvance : m.advance.stream.rest + 1 = m.stream.rest :=
        Stream.rest_advance hgo.sound (hk ▸ by decide : m.kind ≠ .eof)
      have hgo' : s.stream.GoesOn m.advance.stream := hgo.trans (.advance hgo.sound)
      have hlt := ih (hgo'.strict hs) hgo'.sound
        (fun c hc => hfilled c (List.mem_cons_of_mem _ hc)) hms
      omega
    · have hadvance := hclose hgo.sound hk
      omega

/-- The entries of a pattern that do not end behind the fork start in front of it. -/
theorem inside_of_entries (hfilled : ∀ n ∈ ns, n.isFilled = true)
    (hs : s.Inside F t ∨ s.AtFork F t) (h : (entries .rBracket true).Yields s ns u)
    (hrest : F.left ≤ u.stream.rest) : s.Inside F t := by
  refine hs.resolve_right fun hat => ?_
  have hlt := entries_lt hat.stands.strict hat.sound hfilled h
  have hfork := hat.stream.rest
  omega

/-- The entries of a pattern in front of the fork are those of an array. -/
theorem entries_reread (hitems : ∀ n ∈ ns, n.isFilled = true ∧ Rereads F entry n)
    (hs : s.Inside F t ∨ s.AtFork F t) (h : (entries .rBracket true).Yields s ns u)
    (hrest : F.left ≤ u.stream.rest) :
    ∃ ms v, (entries .rBracket false).Yields t ms v ∧ ms.map Node.asPattern = ns.map F.image ∧
      (u.Inside F v ∨ u.AtFork F v) := by
  induction ns generalizing s t with
  | nil =>
    have hfilled : ∀ n ∈ ([] : List Node), n.isFilled = true := fun n hn => (hitems n hn).1
    have hs := inside_of_entries hfilled hs h hrest
    rcases entries_cases hs.strict hs.sound hfilled h with ⟨hk, _, rfl⟩ | ⟨_, _, _, _, _, he, _⟩
    · refine ⟨[], t.advance, ?_, rfl, hs.advance⟩
      exact (yields_entries_nil hs.tolerates (hs.kind.trans hk)).mpr ⟨rfl, rfl⟩
    · cases he
  | cons n ns ih =>
    have hfilled : ∀ c ∈ n :: ns, c.isFilled = true := fun c hc => (hitems c hc).1
    have hs := inside_of_entries hfilled hs h hrest
    rcases entries_cases hs.strict hs.sound hfilled h with ⟨_, he, _⟩ |
      ⟨hk, hne, n', ms, m, he, hn, hm⟩
    · cases he
    obtain ⟨rfl, rfl⟩ := List.cons.inj he
    have hgo := entry_onward true hs.strict hs.sound hn
    have hle : u.stream.rest ≤ m.advance.stream.rest := by
      rcases hm with ⟨_, hms⟩ | ⟨_, _, rfl⟩
      · have hgo' : s.stream.GoesOn m.advance.stream := hgo.trans (.advance hgo.sound)
        exact Nat.le_of_lt (entries_lt (hgo'.strict hs.strict) hgo'.sound
          (fun c hc => hfilled c (List.mem_cons_of_mem _ hc)) hms)
      · exact Nat.le_refl _
    have hmark : m.kind = .comma ∨ m.kind = .rBracket := hm.imp And.left And.left
    have hadvance : m.advance.stream.rest + 1 = m.stream.rest := by
      refine Stream.rest_advance hgo.sound (show m.kind ≠ .eof from ?_)
      rcases hmark with hk | hk <;> simp [hk]
    obtain ⟨w, m', hw, hpattern, hin⟩ :=
      (hitems n List.mem_cons_self).2 hs hn (by omega) hmark
    have hk' : t.kind ≠ .rBracket := hs.kind ▸ hk
    have hne' : t.kind ≠ .eof := hs.kind ▸ hne
    rcases hm with ⟨hcomma, hms⟩ | ⟨hclose, rfl, rfl⟩
    · obtain ⟨ws, v, hws, hmap, hv⟩ :=
        ih (fun c hc => hitems c (List.mem_cons_of_mem _ hc)) hin.advance hms
      refine ⟨w :: ws, v, (yields_entries_cons hk' hne' rfl).mpr
        ⟨w, m', hw, Or.inl ⟨hin.kind.trans hcomma, ws, hws, rfl⟩⟩, ?_, hv⟩
      rw [List.map_cons, List.map_cons, hpattern, hmap]
    · refine ⟨[w], m'.advance, (yields_entries_cons hk' hne' rfl).mpr
        ⟨w, m', hw, Or.inr ⟨?_, ?_, rfl⟩⟩, ?_, hin.advance⟩
      · rw [hin.kind, hclose]
        decide
      · exact (yields_require hin.tolerates).mpr ⟨hin.kind.trans hclose, rfl⟩
      · rw [List.map_singleton, List.map_singleton, hpattern]

/-- A short pattern is a short array behind the same bracket. -/
theorem listPattern_rereads (hk : s.kind = .lBracket) (hk' : t.kind = .lBracket)
    (hopen : t.openNode.1 = s.openNode.1)
    (hs : s.openNode.2.advance.Inside F t.openNode.2.advance ∨
      s.openNode.2.advance.AtFork F t.openNode.2.advance)
    (hn : n.isPlace = true) (hitems : ∀ c ∈ n.children, c.isFilled = true → Rereads F entry c)
    (h : listPattern.Yields s n u) (hrest : F.left ≤ u.stream.rest) :
    ∃ m v, arrayLiteral.Yields t m v ∧ m.asPattern = F.image n ∧
      (u.Inside F v ∨ u.AtFork F v) := by
  obtain ⟨items, w, hentries, hfinish⟩ := (yields_listPattern hk).mp h
  obtain ⟨rfl, rfl⟩ := yields_finish.mp hfinish
  have hfilled : ∀ c ∈ items, c.isFilled = true := Node.areFilled_iff.mp hn
  have hchild (c : Node) (hc : c ∈ items) : c.isFilled = true ∧ Rereads F entry c := by
    refine ⟨hfilled c hc, hitems c ?_ (hfilled c hc)⟩
    simpa [Node.children, Production.children, Production.fields, Field.children] using hc
  obtain ⟨ms, v, hms, hmap, hv⟩ := entries_reread hchild hs hentries hrest
  obtain ⟨hv', hinfo⟩ : ((w.finishNode s.openNode.1).2.Inside F (v.finishNode s.openNode.1).2 ∨
      (w.finishNode s.openNode.1).2.AtFork F (v.finishNode s.openNode.1).2) ∧
      (Echo.forked F).info () (w.finishNode s.openNode.1).1 = (v.finishNode s.openNode.1).1 := by
    rcases hv with hin | hat
    · exact (hin.finishNode _).imp_left Or.inl
    · exact (hat.finishNode _).imp_left Or.inr
  refine ⟨⟨(v.finishNode s.openNode.1).1, .array ms true⟩, _, (yields_arrayLiteral hk').mpr
    ⟨ms, v, hms, ?_⟩, ?_, hv'⟩
  · rw [hopen]
    exact yields_finish.mpr ⟨rfl, rfl⟩
  · rw [Fork.image_mk, hinfo, Node.asPattern, Production.asPattern, Node.allAsPattern_eq, hmap]
    rfl

/-- What is at a place of a pattern in front of the fork becomes that where it is read in an
array. -/
theorem rereads (n : Node) : (n.isPlace = true → Rereads F entryPart n) ∧
    (n.isFilled = true → Rereads F entry n) := by
  induction n using Node.induction with
  | step n ih =>
    refine ⟨fun hn s t u hs hy hlt hu => ?_, fun hn => entry_rereads hn fun key value he => ?_⟩
    · rcases entryPart_cases hy with ⟨hlist, _⟩ | hplain
      · have hk := listPattern_short hn hlist
        have hk' : t.kind = .lBracket := hs.kind.trans hk
        obtain ⟨hopen, hs'⟩ := hs.openNode
        obtain ⟨m, v, hm, hpattern, hv⟩ := listPattern_rereads hk hk' hopen hs'.advance hn
          (fun c hc => (ih c hc).2) hlist (Nat.le_of_lt hlt)
        have hin : u.Inside F v := hv.resolve_right fun hat => Nat.ne_of_gt hlt hat.stream.rest
        have hend : v.kind ∈ operandEnds := by
          rw [hin.kind]
          rcases hu with hu | hu <;> simp [hu, operandEnds]
        have hliteral : literal.Yields t m v := by
          refine (yields_literal hk').mpr ⟨m, v, hm, ?_⟩
          rw [if_neg fun hv => absurd (hv ▸ hend) (by decide)]
          exact lookups_ends hend
        refine ⟨m, v, ?_, hpattern, hin⟩
        rw [entryPart, yields_kind_bind, hk']
        exact expression_of_operand (operand_of_literal (hk' ▸ by decide) hliteral) hend
      · obtain ⟨v, hv, hin⟩ := (entryPart_follows false).inside hs hplain hlt
        refine ⟨F.image n, v, hv, ?_, hin⟩
        exact (Echo.image_asPattern n).symm.trans (congrArg F.image (Node.asPattern_of_isPlace hn))
    · obtain ⟨key', value', he', _, hplace⟩ := Node.filled_entry hn
      rw [he] at he'
      obtain ⟨rfl, rfl, _⟩ := Production.entry.inj he'
      refine (ih value ?_).1 hplace
      simp [Node.children, he, Production.children, Production.fields, Field.children]

end Grammar
end PhpSyntax
