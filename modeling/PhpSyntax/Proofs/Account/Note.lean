/-
What a tree owes to its text.

A node with children is accounted for by its children, and one without children by the
token that it stands for.  `Node.notes` is what a tree has to answer for: the nodes without
children and what they record, the blocks and the tails of text that nodes keep as they are
written, and the constructs that belong to a version of the language.  The notes of a node
are its own and those of its children (`Node.notes_eq`), in any order.
-/
import Mathlib.Data.Multiset.Bind
import PhpSyntax.Options
import PhpSyntax.Proofs.Node.MapInfo
import PhpSyntax.Lexeme.Word
import PhpSyntax.Token.Category

namespace PhpSyntax

/-! ## Kinds of tokens -/

namespace TokenKind

def isLeaf : TokenKind → Bool
  | .variable | .lNumber | .dNumber | .constantString | .encapsedString | .heredoc
  | .shellCommand | .inlineHtml => true
  | _ => false

/-- Whether a token of this kind is consumed without a node of its own. -/
def isMark (k : TokenKind) : Bool := !k.isLeaf && k ≠ .eof

theorem isLeaf_of_isMark {k : TokenKind} (h : k.isMark = true) : k.isLeaf = false := by
  rw [isMark, Bool.and_eq_true, Bool.not_eq_true'] at h
  exact h.1

theorem ne_eof_of_isMark {k : TokenKind} (h : k.isMark = true) : k ≠ .eof := by
  rw [isMark, Bool.and_eq_true, decide_eq_true_eq] at h
  exact h.2

theorem ne_eof_of_isLeaf {k : TokenKind} (h : k.isLeaf = true) : k ≠ .eof := by
  rintro rfl
  cases h

def unmarked : List TokenKind :=
  [.variable, .lNumber, .dNumber, .constantString, .encapsedString, .heredoc, .shellCommand,
   .inlineHtml, .eof]

theorem mem_unmarked {k : TokenKind} (h : k.isMark = false) : k ∈ unmarked := by
  cases k
  all_goals first | decide | cases h

theorem isMark_of_some {α : Type} {f : TokenKind → Option α} {k : TokenKind} {a : α}
    (hf : ∀ j ∈ unmarked, (f j).isNone = true) (h : f k = some a) : k.isMark = true := by
  by_contra hk
  have hnone := hf k (mem_unmarked (Bool.eq_false_iff.mpr hk))
  rw [h] at hnone
  cases hnone

end TokenKind

theorem TokenSet.isMark {c : TokenSet} {k : TokenKind} (h : c.contains k = true)
    (hc : ∀ j ∈ TokenKind.unmarked, c.contains j = false) : k.isMark = true := by
  by_contra hk
  have hnot := hc k (TokenKind.mem_unmarked (Bool.eq_false_iff.mpr hk))
  rw [h] at hnot
  cases hnot

/-! ## Notes -/

inductive Leaf where
  | number (value : String)
  | string (raw : String)
  | encapsed (raw : String)
  | nowdoc (raw : String)
  | inline (raw : String)
  | «variable» (name : String)
  | identifier (name : String)
  | other
deriving DecidableEq

/-- Whether only a token of its own can be recorded so. -/
def Leaf.isLiteral : Leaf → Bool
  | identifier _ | other => false
  | _ => true

def Leaf.Keeps : Leaf → Token → Prop
  | number value, t => (t.kind = .lNumber ∨ t.kind = .dNumber) ∧ value = t.text
  | string raw, t => t.kind = .constantString ∧ raw = t.text
  | encapsed raw, t =>
    (t.kind = .encapsedString ∨ t.kind = .heredoc ∨ t.kind = .shellCommand) ∧ raw = t.text
  | nowdoc raw, t => t.kind = .heredoc ∧ raw = t.text
  | inline raw, t => t.kind = .inlineHtml ∧ raw = t.text
  | «variable» name, t | identifier name, t => t.kind = .variable ∧ "$" ++ name = t.text
  | other, _ => False

theorem Leaf.Keeps.isLeaf {l : Leaf} {t : Token} (h : l.Keeps t) : t.kind.isLeaf = true := by
  cases l with
  | number value =>
    obtain ⟨hk | hk, _⟩ := h
    · rw [hk]
      rfl
    · rw [hk]
      rfl
  | encapsed raw =>
    obtain ⟨hk | hk | hk, _⟩ := h
    all_goals
      rw [hk]
      rfl
  | other => exact h.elim
  | _ =>
    rw [h.1]
    rfl

/-- A version of the language that some syntax belongs to. -/
inductive Gate where
  | php7
  | php74
deriving DecidableEq

namespace Gate

def isOpen (o : Options) : Gate → Bool
  | php7 => o.php7
  | php74 => o.php74

def when (g : Gate) (c : Bool) : List Gate := if c then [g] else []

end Gate

/-- One thing that a tree answers for. -/
inductive Note where
  /-- A node without children between two points. -/
  | bare (start stop : Position) (leaf : Leaf)
  /-- A block that is kept as it is written, up to an offset. -/
  | block (text : String) (stop : Nat)
  /-- A token inside of a block, up to an offset. -/
  | skipped (stop : Nat)
  /-- The text behind the end of the code. -/
  | tail (text : String)
  /-- A construct of a version of the language. -/
  | gate (g : Gate)

abbrev Notes := Multiset Note

/-! ## Productions -/

namespace Production

def leaf {α : Type} : Production α → Leaf
  | .number value => .number value
  | .string _ raw _ => .string raw
  | .encapsed raw _ => .encapsed raw
  | .nowdoc raw _ _ => .nowdoc raw
  | .inline raw => .inline raw
  | .variable (.named word) => .variable word
  | .identifier word => .identifier word
  | _ => .other

@[simp] def block? {α : Type} : Production α → Option String
  | .traitUse _ adaptations => adaptations
  | _ => none

@[simp] def scope {α : Type} : Production α → List α
  | .namespace _ children _ => children
  | .declare _ children mode => if mode = .short then [] else children
  | _ => []

end Production

/-- Whether a word is reserved.  The tag that opens code with an echo stands for the
keyword. -/
def isReservedWord (word : String) : Bool :=
  word = "<?=" || (Lexeme.keyword? word.toList).any fun k => k ∈ TokenKind.reservedWords

def Node.isReserved (n : Node) : Bool :=
  match n.production with
  | .identifier word => isReservedWord word
  | _ => false

@[simp] def Production.gates : Production Node → List Gate
  | .coalesce .. => [.php7]
  | .bin op .. => Gate.php7.when (op = .spaceship)
  | .function _ _ _ type .. | .closure _ _ _ type .. | .arrowFunc _ _ type .. =>
    Gate.php7.when type.isSome
  | .method ident _ _ type .. =>
    Gate.php7.when ident.isReserved ++ Gate.php7.when type.isSome
  | .useGroup base .. => Gate.php7.when base.isSome
  | .assign op .. => Gate.php74.when (op = .coalesce)
  | .entry _ _ unpack => Gate.php74.when unpack
  | .propertyStatement _ _ type _ => Gate.php74.when type.isSome
  | _ => []

def Node.after? (n : Node) : Option String :=
  match n.production with
  | .haltCompiler after => some after
  | _ => none

def tailsOf (ns : List Node) : Notes := (ns.filterMap Node.after?).map Note.tail

namespace Gate

def due (g : Gate) (c : Bool) : Notes := if c then {.gate g} else 0

def notesOf (gs : List Gate) : Notes := gs.map Note.gate

end Gate

/-! ## Nodes -/

/-- What a production answers for beside its children, if its node ends at `stop`. -/
@[simp] def Production.extras (p : Production Node) (stop : Nat) : Notes :=
  Gate.notesOf p.gates + (p.block?.map (Note.block · stop)).toList + tailsOf p.scope

namespace Node

/-- Whether a node is to be found in the text without its children. -/
def isBare (n : Node) : Bool :=
  n.children.isEmpty &&
    (n.production.leaf.isLiteral || n.span.start.offset < n.span.stop.offset)

def bare (n : Node) : Notes :=
  if n.isBare then {.bare n.span.start n.span.stop n.production.leaf} else 0

/-- What a node answers for beside its children. -/
def own (n : Node) : Notes := n.bare + n.production.extras n.span.stop.offset

def notes (n : Node) : Notes := Multiset.bind n.walk own

end Node

theorem Node.mem_bare {n : Node} {m : Note} :
    m ∈ n.bare ↔ n.isBare = true ∧ m = .bare n.span.start n.span.stop n.production.leaf := by
  rw [bare]
  split
  · next h => simp only [h, true_and, Multiset.mem_singleton]
  · next h => simp only [h, false_and, Multiset.notMem_zero, Bool.false_eq_true]

theorem mem_tailsOf {ns : List Node} {m : Note} :
    m ∈ tailsOf ns ↔ ∃ n ∈ ns, ∃ text, n.after? = some text ∧ m = .tail text := by
  simp only [tailsOf, Multiset.mem_coe, List.mem_map, List.mem_filterMap]
  constructor
  · rintro ⟨text, ⟨n, hn, hafter⟩, rfl⟩
    exact ⟨n, hn, text, hafter, rfl⟩
  · rintro ⟨n, hn, text, hafter, rfl⟩
    exact ⟨text, ⟨n, hn, hafter⟩, rfl⟩

/-- What a production answers for beside its children, note by note. -/
theorem Production.mem_extras {p : Production Node} {stop : Nat} {m : Note} :
    m ∈ p.extras stop ↔ (∃ g ∈ p.gates, m = .gate g) ∨
      (∃ text, p.block? = some text ∧ m = .block text stop) ∨ m ∈ tailsOf p.scope := by
  have hgates : m ∈ Gate.notesOf p.gates ↔ ∃ g ∈ p.gates, m = .gate g := by
    rw [Gate.notesOf, Multiset.mem_coe, List.mem_map]
    exact exists_congr fun g => and_congr_right fun _ => eq_comm
  have hblock : m ∈ ((p.block?.map (Note.block · stop)).toList : Notes) ↔
      ∃ text, p.block? = some text ∧ m = .block text stop := by
    rw [Multiset.mem_coe, Option.mem_toList, Option.map_eq_some_iff]
    exact exists_congr fun text => and_congr_right fun _ => eq_comm
  rw [extras, Multiset.mem_add, Multiset.mem_add, hgates, hblock, or_assoc]

def notesOf (ns : List Node) : Notes := Multiset.bind (Node.walkFrom ns) Node.own

/-! ## Sums of notes -/

@[simp] theorem notesOf_nil : notesOf [] = 0 := by
  rw [notesOf, Node.walkFrom_nil, Multiset.coe_nil, Multiset.zero_bind]

@[simp] theorem notesOf_append (ms ns : List Node) :
    notesOf (ms ++ ns) = notesOf ms + notesOf ns := by
  rw [notesOf, Node.walkFrom_append, ← Multiset.coe_add, Multiset.add_bind]
  rfl

@[simp] theorem notesOf_cons (n : Node) (ns : List Node) :
    notesOf (n :: ns) = n.notes + notesOf ns := notesOf_append [n] ns

/-- The notes of trees are the same where those of each tree are. -/
theorem notesOf_map {f : Node → Node} {ns : List Node} (h : ∀ n ∈ ns, (f n).notes = n.notes) :
    notesOf (ns.map f) = notesOf ns := by
  induction ns with
  | nil => rfl
  | cons n ns ih =>
    obtain ⟨hn, hns⟩ := List.forall_mem_cons.mp h
    rw [List.map_cons, notesOf_cons, notesOf_cons, hn, ih hns]

@[simp] theorem tailsOf_nil : tailsOf [] = 0 := rfl

theorem tailsOf_append (ms ns : List Node) : tailsOf (ms ++ ns) = tailsOf ms + tailsOf ns := by
  rw [tailsOf, List.filterMap_append, List.map_append, ← Multiset.coe_add]
  rfl

theorem tailsOf_cons (n : Node) (ns : List Node) :
    tailsOf (n :: ns) = tailsOf [n] + tailsOf ns := tailsOf_append [n] ns

namespace Gate

@[simp] theorem due_false (g : Gate) : g.due false = 0 := rfl

@[simp] theorem due_true (g : Gate) : g.due true = {.gate g} := rfl

@[simp] theorem notesOf_nil : notesOf [] = 0 := rfl

@[simp] theorem notesOf_singleton (g : Gate) : notesOf [g] = {.gate g} := rfl

@[simp] theorem notesOf_append (gs hs : List Gate) :
    notesOf (gs ++ hs) = notesOf gs + notesOf hs := by
  rw [notesOf, List.map_append, ← Multiset.coe_add]
  rfl

@[simp] theorem notesOf_when (g : Gate) (c : Bool) : notesOf (g.when c) = g.due c := by
  cases c <;> rfl

end Gate

/-! ## Productions and their children -/

@[simp] def Field.notes : Field Node → Notes
  | .node n => n.notes
  | .optional n => notesOf n.toList
  | .nodes ns => notesOf ns
  | .variableName (.dynamic n) => n.notes
  | _ => 0

attribute [simp] Production.fields

/-- What a production and its children answer for, field by field. -/
@[simp] def Production.due (p : Production Node) (stop : Nat) : Notes :=
  p.extras stop + p.fields.foldr (fun f e => f.2.notes + e) 0

theorem Field.notes_eq (f : Field Node) : f.notes = notesOf f.children := by
  unfold notes children
  split
  · simp
  · rfl
  · rfl
  · simp
  · split <;> simp_all

theorem Production.notesOf_fields (p : Production Node) :
    p.fields.foldr (fun f e => f.2.notes + e) 0 = notesOf p.children := by
  have hfields (fs : List (String × Field Node)) :
      fs.foldr (fun f e => f.2.notes + e) 0 = notesOf (fs.flatMap fun f => f.2.children) := by
    induction fs with
    | nil => simp
    | cons f fs ih =>
      rw [List.foldr_cons, ih, List.flatMap_cons, notesOf_append, Field.notes_eq]
  cases p with
  | parameter ident type default isRef isVariadic nullable =>
    simp only [fields, children, List.foldr_cons, List.foldr_nil, Field.notes, notesOf_append,
      notesOf_cons, add_zero]
    exact add_left_comm _ _ _
  | propertyStatement properties modifiers type nullable =>
    simp only [fields, children, List.foldr_cons, List.foldr_nil, Field.notes, notesOf_append,
      add_zero, zero_add]
    exact add_comm _ _
  | _ => exact hfields _

/-- The notes of a node are its own and those of its children. -/
theorem Node.notes_eq (n : Node) :
    n.notes = n.bare + n.production.due n.span.stop.offset := by
  have hbelow : notesOf n.children = Multiset.bind (n.children.flatMap walk) own := by
    rw [notesOf, walkFrom_eq]
  rw [Production.due, Production.notesOf_fields, show n.production.children = n.children from rfl,
    hbelow, notes, walk_eq, ← Multiset.cons_coe, Multiset.cons_bind, own, add_assoc]

/-! ## Trees whose nodes get other identities or comments -/

namespace Node

variable {g : NodeInfo → NodeInfo}

theorem isReserved_mapInfo (n : Node) : (mapInfo g n).isReserved = n.isReserved := by
  rw [isReserved, isReserved, production_mapInfo]
  cases n.production <;> rfl

theorem after?_mapInfo (n : Node) : (mapInfo g n).after? = n.after? := by
  rw [after?, after?, production_mapInfo]
  cases n.production <;> rfl

theorem leaf_mapInfo (p : Production Node) : (p.map (mapInfo g)).leaf = p.leaf := by
  cases p with
  | «variable» ident => cases ident <;> rfl
  | _ => rfl

theorem gates_mapInfo (p : Production Node) : (p.map (mapInfo g)).gates = p.gates := by
  cases p <;> simp [Production.map, isReserved_mapInfo]

theorem block?_mapInfo (p : Production Node) : (p.map (mapInfo g)).block? = p.block? := by
  cases p <;> rfl

theorem scope_mapInfo (p : Production Node) :
    (p.map (mapInfo g)).scope = p.scope.map (mapInfo g) := by
  cases p with
  | declare directives children mode => cases mode <;> rfl
  | _ => rfl

theorem tailsOf_map (ns : List Node) : tailsOf (ns.map (mapInfo g)) = tailsOf ns := by
  rw [tailsOf, tailsOf, List.filterMap_map]
  exact congrArg _ (congrArg _ (List.filterMap_congr fun n _ => after?_mapInfo n))

theorem own_mapInfo (hg : ∀ info, (g info).span = info.span) (n : Node) :
    (mapInfo g n).own = n.own := by
  rw [own, own, bare, bare, isBare, isBare, span_mapInfo hg, children_mapInfo, List.isEmpty_map,
    production_mapInfo, leaf_mapInfo, Production.extras, Production.extras, gates_mapInfo,
    block?_mapInfo, scope_mapInfo, tailsOf_map]

end Node

theorem notesOf_mapInfo {g : NodeInfo → NodeInfo} (hg : ∀ info, (g info).span = info.span)
    (ns : List Node) : notesOf (ns.map (Node.mapInfo g)) = notesOf ns := by
  rw [notesOf, Node.walkFrom_map_mapInfo, ← Multiset.map_coe, Multiset.bind_map]
  exact Multiset.bind_congr fun n _ => Node.own_mapInfo hg n

end PhpSyntax
