/-
Tokens that are nodes of their own.

In strict mode such a token is in one place: it is a node, or it lies in a block that a node
keeps as it is written, or behind the end of the code.  A note answers for the tokens that
are in its place (`Note.holds`), and the notes of a passage answer once for each token on
the way and for no other one (`Passes.countP_holds`).  The notes of a program are those of
the passage through its text, so its leaves are the tokens that the grammar reads.
-/
import PhpSyntax.Proofs.Account.Log
import PhpSyntax.Proofs.Span.Nesting
import PhpSyntax.Proofs.Stream.Order

namespace PhpSyntax

/-! ## Places of tokens -/

/-- Whether a token of a text of `size` bytes is in the place that a note answers for. -/
def Note.holds (size : Nat) (t : Token) : Note → Bool
  | .bare start stop _ => start = t.start && stop = t.stop
  | .block text stop => stop ≤ t.start.offset + text.utf8ByteSize && t.stop.offset ≤ stop
  | .skipped stop => stop = t.stop.offset
  | .tail text => size < t.stop.offset + text.utf8ByteSize
  | .gate _ => false

abbrev Token.Within (t : Token) (p q : Position) : Prop :=
  p.offset ≤ t.start.offset ∧ t.start.offset < q.offset

theorem TokenKind.isTrivia_of_isLeaf {k : TokenKind} (h : k.isLeaf = true) :
    k.isTrivia = false := by
  cases k
  all_goals first | rfl | cases h

variable {x : Text} {s t : Stream} {u : Token}

/-- No token that is a node of its own starts where a mark does. -/
theorem Text.Marks.ne_start {p : Position} (h : x.Marks p) (hx : x.strict = true)
    (hu : u ∈ tokenize x.source) (hleaf : u.kind.isLeaf = true) : p ≠ u.start := by
  rintro rfl
  obtain ⟨m, hm, _, hmark, hstart⟩ := h hx
  rw [Token.eq_of_start hm hu hstart, hleaf] at hmark
  cases hmark

namespace Stream.Of

/-- What overlaps the current token is the current token. -/
theorem eq_current_of_overlap (hs : s.Of x) (hu : u ∈ tokenize x.source)
    (h : s.current.start.offset < u.stop.offset) (h' : u.start.offset < s.current.stop.offset) :
    s.current = u.forGrammar s.options := by
  rcases hs.tokens.current with e | ⟨c, hc, _, e⟩
  · have hle := (tokenize_contiguous x.source).stop_le u hu
    rw [← hs.tokens.stop] at hle
    rw [e] at h
    exact absurd h (Nat.not_lt.mpr hle)
  · rw [e, Token.forGrammar_start] at h
    rw [e, Token.forGrammar_stop] at h'
    rw [e, Token.eq_of_overlap hc hu h h']

/-- Of the tokens that the grammar sees only the current one starts on the way to the next
one. -/
theorem within_advance (hs : s.Of x) (hk : s.current.kind ≠ .eof) (hu : u ∈ tokenize x.source)
    (htrivia : u.kind.isTrivia = false) :
    u.Within s.current.start s.advance.current.start ↔ s.current = u.forGrammar s.options := by
  constructor
  · rintro ⟨hle, hlt⟩
    exact hs.tokens.eq_current hs.sound hu htrivia hk hle hlt
  · intro e
    have hstart : s.current.start = u.start := by rw [e, Token.forGrammar_start]
    have hfilled := hs.filled hk
    have hle := stop_le_advance hs.sound
    rw [hstart] at hfilled
    rw [Token.Within, hstart]
    omega

theorem not_current (hleaf : u.kind.isLeaf = true) (hm : s.current.kind.isLeaf = false) :
    s.current ≠ u.forGrammar s.options := by
  intro e
  rw [e, Token.forGrammar_isLeaf, hleaf] at hm
  cases hm

variable {size : Nat}

theorem holds_bare {l : Leaf} (hs : s.Of x) (hk : s.current.kind.isLeaf = true)
    (hu : u ∈ tokenize x.source) :
    (Note.bare s.current.start s.current.stop l).holds size u = true ↔ s.current = u := by
  rw [Note.holds, Bool.and_eq_true, decide_eq_true_eq, decide_eq_true_eq]
  constructor
  · rintro ⟨hstart, _⟩
    exact Token.eq_of_start (hs.leaf_mem hk) hu hstart
  · rintro rfl
    exact ⟨rfl, rfl⟩

theorem holds_skipped (hs : s.Of x) (hk : s.current.kind ≠ .eof) (hu : u ∈ tokenize x.source) :
    (Note.skipped s.current.stop.offset).holds size u = true ↔
      s.current = u.forGrammar s.options := by
  have hlt := hs.filled hk
  have hlt' := Token.start_lt_stop hu
  rw [Note.holds, decide_eq_true_eq]
  constructor
  · intro hstop
    exact hs.eq_current_of_overlap hu (by omega) (by omega)
  · intro e
    rw [e, Token.forGrammar_stop]

theorem holds_block (hs : s.Of x) (ht : t.Of x)
    (hle : s.current.start.offset ≤ t.prev.offset) :
    (Note.block (t.textBetween s.current.start.offset t.prev.offset) t.prev.offset).holds
        size u = true ↔
      s.current.start.offset ≤ u.start.offset ∧ u.stop.offset ≤ t.prev.offset := by
  have hstart : s.current.start.IsIn t.source := ht.source ▸ hs.tokens.begins.isIn
  have hprev : t.prev.IsIn t.source := ht.source ▸ ht.tokens.prev_isIn
  have hsize := size_textBetween hstart hprev hle
  rw [Note.holds, Bool.and_eq_true, decide_eq_true_eq, decide_eq_true_eq]
  omega

theorem holds_tail (ht : t.Of x) (hu : u ∈ tokenize x.source) :
    (Note.tail t.halt.1).holds (Position.origin.advance x.source).offset u = true ↔
      t.current.stop.offset ≤ u.start.offset := by
  have hsize := ht.sound.ahead.size_join
  have hlt := Token.start_lt_stop hu
  rw [ht.tokens.stop] at hsize
  rw [Note.holds, decide_eq_true_eq]
  show _ < u.stop.offset + (String.join (t.ahead.map Token.text)).utf8ByteSize ↔ _
  constructor
  · intro hholds
    have hahead : u ∈ t.ahead := by
      by_contra hahead
      have hstop := ht.tokens.stop_le ht.sound hu hahead
      omega
    exact ht.sound.ahead.le_start u hahead
  · intro hle
    omega

end Stream.Of

/-! ## The notes of a passage -/

theorem Note.countP_singleton (p : Note → Bool) (n : Note) :
    Multiset.countP (p · = true) {n} = if p n = true then 1 else 0 := by
  rw [← Multiset.cons_zero, Multiset.countP_cons, Multiset.countP_zero, Nat.zero_add]

namespace Passes

variable {e : Notes}

theorem start_le (h : Passes x s e t) (hs : s.Of x) :
    s.current.start.offset ≤ t.current.start.offset := by
  rcases h.leads.forward hs.sound hs.filled with rfl | ⟨_, hlt⟩
  · exact Nat.le_refl _
  · exact hlt.le

/-- A block answers for the tokens on the way, since they have been skipped in front of the
boundary. -/
theorem holds_quote {size : Nat} (h : Passes x s e t) (hs : s.Of x) (hx : x.strict = true)
    (hu : u ∈ tokenize x.source)
    (he : ∀ n ∈ e, ∃ k, n = .skipped k ∧ (x.strict = true → k ≤ t.prev.offset))
    (hle : s.current.start.offset ≤ t.prev.offset)
    (hskipped : u.Within s.current.start t.current.start → ∃ n ∈ e, n.holds size u = true) :
    (Note.block (t.textBetween s.current.start.offset t.prev.offset) t.prev.offset).holds
        size u = true ↔ u.Within s.current.start t.current.start := by
  have ht := h.of hs
  have hprev := ht.sound.prev_le
  have hlt := Token.start_lt_stop hu
  rw [hs.holds_block ht hle]
  refine ⟨fun hholds => by omega, fun hwithin => ⟨hwithin.1, ?_⟩⟩
  obtain ⟨n, hn, hholds⟩ := hskipped hwithin
  obtain ⟨k, rfl, hk⟩ := he n hn
  have hstop : k = u.stop.offset := of_decide_eq_true hholds
  exact hstop ▸ hk hx

/-- The end of the text behind the code answers for the tokens from the mark on that the code
ends with. -/
theorem holds_halt (h : Passes x s 0 t) (hs : s.Of x) (hx : x.strict = true)
    (hu : u ∈ tokenize x.source) (hleaf : u.kind.isLeaf = true)
    (hm : x.strict = true → t.current.kind = .semicolon)
    (hbehind : ¬ u.Within s.current.start t.current.start) :
    (Note.tail t.halt.1).holds (Position.origin.advance x.source).offset u = true ↔
      u.Within s.current.start t.halt.2.current.start := by
  have ht := h.of hs
  have hle := h.start_le hs
  have hcurrent := ht.sound.start_le
  have hlt := Token.start_lt_stop hu
  have hend := (tokenize_contiguous x.source).stop_le u hu
  have hstop : t.halt.2.current.start = Position.origin.advance x.source := ht.tokens.stop
  rw [ht.holds_tail hu, hstop]
  refine ⟨fun hholds => by omega, fun hwithin => ?_⟩
  by_contra hholds
  have hmark : t.current.kind.isLeaf = false := by
    rw [hm hx]
    rfl
  exact Stream.Of.not_current hleaf hmark (ht.eq_current_of_overlap hu (by omega) (by omega))

/-- The notes of a passage answer for the tokens on the way, and once for each that is a
node of its own. -/
theorem countP_holds (hx : x.strict = true) (hu : u ∈ tokenize x.source)
    (hleaf : u.kind.isLeaf = true) (h : Passes x s e t) (hs : s.Of x) :
    e.countP (·.holds (Position.origin.advance x.source).offset u = true) =
      if u.Within s.current.start t.current.start then 1 else 0 := by
  have htrivia := TokenKind.isTrivia_of_isLeaf hleaf
  have hnone {p q : Position} (h : ¬ u.Within p q) :
      (0 : Notes).countP (·.holds (Position.origin.advance x.source).offset u = true) =
        if u.Within p q then 1 else 0 := by
    rw [if_neg h, Multiset.countP_zero]
  have hone {n : Note} {p q : Position}
      (h : n.holds (Position.origin.advance x.source).offset u = true ↔ u.Within p q) :
      ({n} : Notes).countP (·.holds (Position.origin.advance x.source).offset u = true) =
        if u.Within p q then 1 else 0 :=
    (Note.countP_singleton _ n).trans (if_congr h rfl rfl)
  induction h with
  | refl => exact hnone (by omega)
  | @trans s t v e f h h' ih ih' =>
    have hle := h.start_le hs
    have hle' := h'.start_le (h.of hs)
    rw [Multiset.countP_add, ih hs, ih' (h.of hs)]
    by_cases hst : u.Within s.current.start t.current.start
    · rw [if_pos hst, if_neg (by omega), if_pos (by omega)]
    · rw [if_neg hst, Nat.zero_add]
      exact if_congr (by omega) rfl rfl
  | mark hk hm =>
    exact hnone fun hwithin =>
      Stream.Of.not_current hleaf (hm hx) ((hs.within_advance hk hu htrivia).mp hwithin)
  | leaf hl =>
    refine hone ((hs.holds_bare hl.isLeaf hu).trans ?_)
    rw [hs.within_advance (TokenKind.ne_eof_of_isLeaf hl.isLeaf) hu htrivia,
      Token.forGrammar_of_isLeaf _ hleaf]
  | free _ hp =>
    refine hone ?_
    rw [Note.holds, Bool.and_eq_true, decide_eq_true_eq, decide_eq_true_eq]
    have hstart := hp.ne_start hx hu hleaf
    exact ⟨fun h => absurd h.1 hstart, fun hwithin => by omega⟩
  | gate => exact hone ⟨nofun, fun hwithin => by omega⟩
  | skip hk => exact hone ((hs.holds_skipped hk hu).trans (hs.within_advance hk hu htrivia).symm)
  | @quote s t e h he hle ih =>
    refine hone (h.holds_quote hs hx hu he hle fun hwithin => ?_)
    have hcount := ih hs
    rw [if_pos hwithin] at hcount
    exact Multiset.countP_pos.mp (hcount ▸ Nat.one_pos)
  | halt h hk hm ih =>
    refine hone (h.holds_halt hs hx hu hleaf hm ?_)
    have hbehind := (ih hs).symm
    rw [Multiset.countP_zero, ite_eq_right_iff] at hbehind
    exact fun hwithin => absurd (hbehind hwithin) Nat.one_ne_zero

/-- What is noted of a node without children is what its token says, or it starts where a
mark does. -/
theorem bare_mem {p q : Position} {l : Leaf} (h : Passes x s e t) (hs : s.Of x)
    (hmem : .bare p q l ∈ e) :
    (∃ u ∈ tokenize x.source, l.Keeps u ∧ u.start = p ∧ u.stop = q) ∨
      (l.isLiteral = false ∧ x.Marks p) := by
  induction h with
  | refl | mark => exact absurd hmem (Multiset.notMem_zero _)
  | trans h _ ih ih' =>
    rcases Multiset.mem_add.mp hmem with hmem | hmem
    · exact ih hs hmem
    · exact ih' (h.of hs) hmem
  | leaf hl =>
    cases Multiset.mem_singleton.mp hmem
    exact Or.inl ⟨_, hs.leaf_mem hl.isLeaf, hl, rfl, rfl⟩
  | free hl hp =>
    cases Multiset.mem_singleton.mp hmem
    exact Or.inr ⟨hl, hp⟩
  | gate | skip | quote | halt => cases Multiset.mem_singleton.mp hmem

end Passes

/-! ## The leaves of a program -/

def Node.isAt (n : Node) (t : Token) : Bool :=
  n.children.isEmpty && n.span.start = t.start && n.span.stop = t.stop

/-- A token lies in the block that a node keeps as it is written, with which it ends. -/
def Node.Quotes (n : Node) (t : Token) : Prop :=
  ∃ text, n.production.block? = some text ∧
    n.span.stop.offset ≤ t.start.offset + text.utf8ByteSize ∧ t.stop.offset ≤ n.span.stop.offset

/-- A token is read as a part of the code: it lies in front of the end of the code and in no
block that is kept as it is written. -/
structure Program.Reads (p : Program) (t : Token) : Prop where
  code : ∀ after ∈ p.tails, t.stop.offset + after.utf8ByteSize ≤ p.span.stop.offset
  unquoted : ∀ n ∈ p.tree, ¬ n.Quotes t

theorem Production.children_of_isLiteral {p : Production Node} (h : p.leaf.isLiteral = true) :
    p.children = [] := by
  cases p with
  | «variable» name =>
    cases name with
    | named => rfl
    | dynamic => cases h
  | number | string | encapsed | nowdoc | inline => rfl
  | _ => cases h

namespace Node

variable {n : Node} {size : Nat}

theorem isAt_iff : n.isAt u = true ↔
    n.children = [] ∧ n.span.start = u.start ∧ n.span.stop = u.stop := by
  rw [isAt, Bool.and_eq_true, Bool.and_eq_true, decide_eq_true_eq, decide_eq_true_eq,
    List.isEmpty_iff, and_assoc]

theorem isBare_of_isAt (h : n.isAt u = true) (hlt : u.start.offset < u.stop.offset) :
    n.isBare = true := by
  obtain ⟨hchildren, hstart, hstop⟩ := isAt_iff.mp h
  rw [isBare, hchildren, hstart, hstop, decide_eq_true hlt, Bool.or_true]
  rfl

theorem bare_mem_own (h : n.isBare = true) :
    .bare n.span.start n.span.stop n.production.leaf ∈ n.own :=
  Multiset.mem_add.mpr (Or.inl (mem_bare.mpr ⟨h, rfl⟩))

/-- A node notes a token that is read where it is in the place of the token. -/
theorem countP_own (hlt : u.start.offset < u.stop.offset)
    (h : ∀ m ∈ n.production.extras n.span.stop.offset, m.holds size u = false) :
    n.own.countP (·.holds size u = true) = if n.isAt u = true then 1 else 0 := by
  have hextras : (n.production.extras n.span.stop.offset).countP (·.holds size u = true) = 0 := by
    refine Multiset.countP_eq_zero.mpr fun m hm htrue => ?_
    rw [h m hm] at htrue
    cases htrue
  rw [own, Multiset.countP_add, hextras, Nat.add_zero, bare]
  by_cases hbare : n.isBare = true
  · rw [if_pos hbare, Note.countP_singleton]
    have hchildren : n.children = [] := by
      rw [isBare, Bool.and_eq_true] at hbare
      exact List.isEmpty_iff.mp hbare.1
    refine if_congr ?_ rfl rfl
    rw [isAt_iff, Note.holds, Bool.and_eq_true, decide_eq_true_eq, decide_eq_true_eq]
    exact (and_iff_right hchildren).symm
  · rw [if_neg hbare, if_neg fun hat => hbare (isBare_of_isAt hat hlt), Multiset.countP_zero]

theorem countP_bind {ns : List Node}
    (h : ∀ n ∈ ns, n.own.countP (·.holds size u = true) = if n.isAt u = true then 1 else 0) :
    (Multiset.bind ns own).countP (·.holds size u = true) = ns.countP (·.isAt u) := by
  induction ns with
  | nil => rw [Multiset.coe_nil, Multiset.zero_bind, Multiset.countP_zero, List.countP_nil]
  | cons n ns ih =>
    obtain ⟨hn, hns⟩ := List.forall_mem_cons.mp h
    rw [← Multiset.cons_coe, Multiset.cons_bind, Multiset.countP_add, hn, ih hns, List.countP_cons,
      Nat.add_comm]

end Node

namespace Program

variable {p : Program}

theorem tail_mem_notes {text : String} : .tail text ∈ p.notes ↔ text ∈ p.tails := by
  rw [← Multiset.mem_coe, ← filterMap_notes, Multiset.mem_filterMap]
  constructor
  · exact fun h => ⟨_, h, rfl⟩
  · rintro ⟨n, hn, htail⟩
    cases n with
    | tail => exact Option.some.inj htail ▸ hn
    | _ => cases htail

theorem mem_notes_of_own {n : Node} {m : Note} (hn : n ∈ p.tree) (hm : m ∈ n.own) :
    m ∈ p.notes :=
  Multiset.mem_add.mpr (Or.inl (Multiset.mem_bind.mpr ⟨n, hn, hm⟩))

theorem bare_mem_notes {n : Node} (hn : n ∈ p.tree) (h : n.isBare = true) :
    .bare n.span.start n.span.stop n.production.leaf ∈ p.notes :=
  mem_notes_of_own hn (Node.bare_mem_own h)

theorem not_holds_tail {text : String} (h : p.Reads u) (htext : text ∈ p.tails) :
    (Note.tail text).holds p.span.stop.offset u = false :=
  decide_eq_false (Nat.not_lt.mpr (h.code text htext))

/-- Of what a node notes only the node itself is in the place of a token that is read. -/
theorem not_holds_extras {n : Node} (h : p.Reads u) (hn : n ∈ p.tree) {m : Note}
    (hm : m ∈ n.production.extras n.span.stop.offset) :
    m.holds p.span.stop.offset u = false := by
  have hnotes : m ∈ p.notes := mem_notes_of_own hn (Multiset.mem_add.mpr (Or.inr hm))
  rcases Production.mem_extras.mp hm with ⟨g, _, rfl⟩ | ⟨text, htext, rfl⟩ | htail
  · rfl
  · rw [Bool.eq_false_iff]
    intro hholds
    rw [Note.holds, Bool.and_eq_true, decide_eq_true_eq, decide_eq_true_eq] at hholds
    exact h.unquoted n hn ⟨text, htext, hholds⟩
  · obtain ⟨_, _, text, _, rfl⟩ := mem_tailsOf.mp htail
    exact not_holds_tail h (tail_mem_notes.mp hnotes)

/-- The notes of a program answer for a token that is read as often as its tree has a node
in the place of the token. -/
theorem countP_notes (h : p.Reads u) (hlt : u.start.offset < u.stop.offset) :
    p.notes.countP (·.holds p.span.stop.offset u = true) = p.tree.countP (·.isAt u) := by
  have htails : (tailsOf p.children).countP (·.holds p.span.stop.offset u = true) = 0 := by
    refine Multiset.countP_eq_zero.mpr fun m hm htrue => ?_
    obtain ⟨_, _, text, _, rfl⟩ := mem_tailsOf.mp hm
    have hnotes : .tail text ∈ p.notes := Multiset.mem_add.mpr (Or.inr hm)
    rw [not_holds_tail h (tail_mem_notes.mp hnotes)] at htrue
    cases htrue
  rw [notes, Multiset.countP_add, htails, Nat.add_zero]
  exact Node.countP_bind fun n hn => Node.countP_own hlt fun m hm => not_holds_extras h hn hm

/-- A token that only one note answers for is read if a node does. -/
theorem reads_of_countP {n : Node}
    (h : p.notes.countP (·.holds p.span.stop.offset u = true) = 1) (hn : n ∈ p.tree)
    (hbare : n.isBare = true) (hat : n.isAt u = true) : p.Reads u := by
  obtain ⟨_, hstart, hstop⟩ := Node.isAt_iff.mp hat
  have hholds : (Note.bare n.span.start n.span.stop n.production.leaf).holds
      p.span.stop.offset u = true := by
    rw [Note.holds, decide_eq_true hstart, decide_eq_true hstop]
    rfl
  have honly : ∀ m ∈ p.notes, m.holds p.span.stop.offset u = true →
      m = .bare n.span.start n.span.stop n.production.leaf := by
    intro m hm hm'
    rw [Multiset.countP_eq_card_filter, Multiset.card_eq_one] at h
    obtain ⟨a, ha⟩ := h
    have hmem (k : Note) (hk : k ∈ p.notes) (hk' : k.holds p.span.stop.offset u = true) : k = a :=
      Multiset.mem_singleton.mp (ha ▸ Multiset.mem_filter.mpr ⟨hk, hk'⟩)
    rw [hmem m hm hm', hmem _ (bare_mem_notes hn hbare) hholds]
  constructor
  · intro after hafter
    by_contra hbehind
    have hm := honly (.tail after) (tail_mem_notes.mpr hafter)
      (decide_eq_true (Nat.lt_of_not_le hbehind))
    cases hm
  · rintro m hm ⟨text, htext, hquoted⟩
    have hblock : Note.block text m.span.stop.offset ∈ m.production.extras m.span.stop.offset :=
      Production.mem_extras.mpr (Or.inr (Or.inl ⟨text, htext, rfl⟩))
    have hm' := honly _ (mem_notes_of_own hm (Multiset.mem_add.mpr (Or.inr hblock))) (by
      rw [Note.holds, decide_eq_true hquoted.1, decide_eq_true hquoted.2]
      rfl)
    cases hm'

end Program

/-! ## Strict programs -/

section

variable {source : String} {fileName : Option String} {o : Options} {p : Program}

open ParseState in
/-- Each token that is a node of its own is noted once. -/
theorem parse_countP (ho : o.suppressErrors = false) (h : parse source fileName o = .ok p)
    (hu : u ∈ tokenize source) (hleaf : u.kind.isLeaf = true) :
    p.notes.countP (·.holds p.span.stop.offset u = true) = 1 := by
  obtain ⟨s, children, hp, hk, hpass⟩ := parse_passes h
  have hx := Options.reads_strict source ho
  have hof := hpass.of (first_of source fileName o)
  have hspan : p.span.stop = Position.origin.advance source := by
    rw [hp, completed_span source fileName o hof.sound hk children]
    exact hof.tokens.stop
  have hcount := hpass.countP_holds hx hu hleaf (first_of source fileName o)
  have hstart : (first source fileName o).stream.current.start.offset ≤ u.start.offset :=
    Stream.advance_start_le (Stream.ofSource_contiguous source o.effective) hu
      (TokenKind.isTrivia_of_isLeaf hleaf)
  have hend : s.stream.current.start = Position.origin.advance source := by
    rw [(hof.sound.atEnd hk).1]
    exact hof.tokens.stop
  have hlt := Token.start_lt_stop hu
  have hle := (tokenize_contiguous source).stop_le u hu
  rw [if_pos ⟨hstart, by rw [hend]; omega⟩] at hcount
  rw [hspan]
  exact hcount

open ParseState in
theorem parse_bare (h : parse source fileName o = .ok p) {start stop : Position} {l : Leaf}
    (hm : .bare start stop l ∈ p.notes) :
    (∃ t ∈ tokenize source, l.Keeps t ∧ t.start = start ∧ t.stop = stop) ∨
      (l.isLiteral = false ∧ (o.reads source).Marks start) := by
  obtain ⟨_, _, _, _, hpass⟩ := parse_passes h
  exact hpass.bare_mem (first_of source fileName o) hm

/-- In strict mode each token that is a node of its own and is read has one node without
children in its place, which records the token as it should, and all that records such a
token is in the place of one that is read. -/
theorem parse_leaves (ho : o.suppressErrors = false) (h : parse source fileName o = .ok p) :
    (∀ t ∈ tokenize source, t.kind.isLeaf = true → p.Reads t →
      ∃ n, p.tree.filter (·.isAt t) = [n] ∧ n.production.leaf.Keeps t) ∧
    (∀ n ∈ p.tree, n.production.leaf.isLiteral = true →
      ∃ t ∈ tokenize source, t.kind.isLeaf = true ∧ p.Reads t ∧ n.isAt t = true ∧
        n.production.leaf.Keeps t) := by
  have hx := Options.reads_strict source ho
  constructor
  · intro t ht hleaf hreads
    have hlt := Token.start_lt_stop ht
    have hcount := Program.countP_notes hreads hlt
    rw [parse_countP ho h ht hleaf, List.countP_eq_length_filter] at hcount
    obtain ⟨n, hn⟩ := List.length_eq_one_iff.mp hcount.symm
    obtain ⟨htree, hat⟩ := List.mem_filter.mp (hn ▸ List.mem_singleton_self n)
    obtain ⟨_, hstart, hstop⟩ := Node.isAt_iff.mp hat
    refine ⟨n, hn, ?_⟩
    have hbare := Program.bare_mem_notes htree (Node.isBare_of_isAt hat hlt)
    rcases parse_bare h hbare with ⟨u, hu, hkeeps, hstart', _⟩ | ⟨_, hmarks⟩
    · rwa [← Token.eq_of_start hu ht (hstart'.trans hstart)]
    · exact absurd hstart (hmarks.ne_start hx ht hleaf)
  · intro n hn hliteral
    have hchildren : n.children = [] := Production.children_of_isLiteral hliteral
    have hbare : n.isBare = true := by
      rw [Node.isBare, hchildren, hliteral]
      rfl
    rcases parse_bare h (Program.bare_mem_notes hn hbare) with
      ⟨t, ht, hkeeps, hstart, hstop⟩ | ⟨hfree, _⟩
    · have hat : n.isAt t = true := Node.isAt_iff.mpr ⟨hchildren, hstart.symm, hstop.symm⟩
      exact ⟨t, ht, hkeeps.isLeaf,
        Program.reads_of_countP (parse_countP ho h ht hkeeps.isLeaf) hn hbare hat, hat, hkeeps⟩
    · rw [hliteral] at hfree
      cases hfree

end

/-- A text with such tokens in the code, in a block and behind the end of the code. -/
theorem parse_leaves_halted :
    ∃ p, parse "<?php class A { use T { $z } } $x = 1; __halt_compiler(); $y" none {} = .ok p ∧
      ((∀ t ∈ tokenize "<?php class A { use T { $z } } $x = 1; __halt_compiler(); $y",
          t.kind.isLeaf = true → p.Reads t →
          ∃ n, p.tree.filter (·.isAt t) = [n] ∧ n.production.leaf.Keeps t) ∧
        (∀ n ∈ p.tree, n.production.leaf.isLiteral = true →
          ∃ t ∈ tokenize "<?php class A { use T { $z } } $x = 1; __halt_compiler(); $y",
            t.kind.isLeaf = true ∧ p.Reads t ∧ n.isAt t = true ∧ n.production.leaf.Keeps t)) ∧
      p.tree.countP (·.production.leaf.isLiteral) = 2 := by
  have hrun : ((parse "<?php class A { use T { $z } } $x = 1; __halt_compiler(); $y" none
      {}).toOption.any fun p => p.tree.countP (·.production.leaf.isLiteral) = 2) = true := by
    rw [parse_eq, statementsFrom_eq]
    decide +kernel
  obtain ⟨p, hp, hcount⟩ := parse_of_any hrun
  exact ⟨p, hp, parse_leaves rfl hp, of_decide_eq_true hcount⟩

end PhpSyntax
