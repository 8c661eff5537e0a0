/-
Trees in which everything stands where it may.

`Production.Formed` is what the rules see to where they finish a node: its children fill
their slots, and what stands to the left of an operator does not end in an assignment,
which would have taken the operator in.  In strict mode some things are ruled out besides,
by where the node stands (`Scope`).  A conditional, a loop, an array, a list, a class, an
interface, a trait or the use of traits is what one of its rules yields somewhere in the text
(`Production.makers`), and a name is what the rule for names yields or a keyword.  A tree is
well formed if all of its nodes are formed.
-/
import PhpSyntax.Grammar.Branch
import PhpSyntax.Grammar.ClassLike
import PhpSyntax.Grammar.Loop
import PhpSyntax.Proofs.Progress.Yields
import PhpSyntax.Proofs.Stream.OnTokens
import PhpSyntax.Proofs.Typing.Slot

namespace PhpSyntax

/-! ## Assignments at the right end -/

/-- What stands at the right end of an operation, where an operator that follows would
belong to it. -/
def Production.tail? {α : Type} : Production α → Option α
  | .bin _ _ right => some right
  | .ternary _ _ falseExpr => some falseExpr
  | .coalesce _ ifnull => some ifnull
  | .unary _ what | .cast _ _ what | .silent what | .clone what | .print what => some what
  | .include target _ _ => some target
  | .yield _ value => value
  | .yieldFrom value => some value
  | .arrowFunc _ _ _ _ body _ => some body
  | _ => none

/-- Whether a node is a value that is assigned: neither a reference nor missing. -/
def Node.isAssigned (n : Node) : Bool :=
  match n.production with
  | .byRef .. | .error .. => false
  | _ => true

inductive Node.EndsInAssignment : Node → Prop
  | assign {info : NodeInfo} {op : AssignOp} {left right : Node} (h : right.isAssigned = true) :
    EndsInAssignment ⟨info, .assign op left right⟩
  | tail {n m : Node} (h : n.production.tail? = some m) (hm : EndsInAssignment m) :
    EndsInAssignment n

theorem Node.not_endsInAssignment {info : NodeInfo} {p : Production Node}
    (hassign : ∀ op left right, p = .assign op left right → right.isAssigned = false)
    (htail : ∀ m, p.tail? = some m → ¬m.EndsInAssignment) :
    ¬(Node.mk info p).EndsInAssignment := by
  intro h
  cases h with
  | assign h =>
    rw [hassign _ _ _ rfl] at h
    cases h
  | tail h hm => exact htail _ h hm

theorem Node.isAssigned_mapInfo (g : NodeInfo → NodeInfo) (n : Node) :
    (mapInfo g n).isAssigned = n.isAssigned := by
  rw [mapInfo_eq]
  obtain ⟨info, p⟩ := n
  cases p <;> rfl

theorem Production.tail?_map {α β : Type} (f : α → β) (p : Production α) :
    (p.map f).tail? = p.tail?.map f := by
  cases p <;> rfl

theorem Node.EndsInAssignment.of_mapInfo {g : NodeInfo → NodeInfo} {n : Node}
    (h : (mapInfo g n).EndsInAssignment) : n.EndsInAssignment := by
  generalize hm : mapInfo g n = m at h
  induction h generalizing n with
  | @assign info op left right hright =>
    obtain ⟨info', p⟩ := n
    rw [mapInfo_eq] at hm
    cases p with
    | assign op' left' right' =>
      cases hm
      rw [isAssigned_mapInfo] at hright
      exact .assign hright
    | _ => cases hm
  | @tail n' m' htail _ ih =>
    subst hm
    rw [mapInfo_eq, Production.tail?_map] at htail
    obtain ⟨c, hc, rfl⟩ := Option.map_eq_some_iff.mp htail
    exact .tail hc (ih rfl)

/-! ## Scopes -/

/-- Where a rule is asked for: the text, the options and the mode of the parse, how many
namespace declarations are around, and where the text ends. -/
structure Scope where
  source : String
  options : Options
  strict : Bool
  depth : Nat
  stop : Nat

def Scope.deeper (c : Scope) : Scope := { c with depth := c.depth + 1 }

/-- A node that `p` yields from a state at a token of one of the kinds `ks`. -/
def Node.Yielded (c : Scope) (ks : List TokenKind) (p : Parser Node) (n : Node) : Prop :=
  ∃ s t, s.tolerates = !c.strict ∧ s.stream.options = c.options ∧ s.stream.Sound ∧
    s.stream.OnTokens c.source ∧ s.kind ∈ ks ∧ p.Yields s n t

open Grammar in
/-- The rules that make a production of which more is asked than what stands in it, each
with the tokens that it is asked for at.  A short array may be read as a list. -/
def Production.makers {α : Type} : Production α → List (List TokenKind × Parser Node)
  | .if .. => [([.kwIf, .kwElseIf], ifStatement), ([.kwElseIf], shortElseIf)]
  | .do .. => [([.kwDo], doStatement)]
  | .for .. => [([.kwFor], forStatement)]
  | .foreach .. => [([.kwForeach], foreachStatement)]
  | .array .. => [([.kwArray, .lBracket], arrayLiteral)]
  | .list .. =>
    [([.kwList, .lBracket], listPattern),
      ([.kwArray, .lBracket], do return (← arrayLiteral).asPattern)]
  | .class .. =>
    [([.kwAbstract, .kwFinal, .kwClass], classDeclaration),
      ([.kwClass], do return (← anonymousClass).1)]
  | .interface .. => [([.kwInterface], interfaceDeclaration)]
  | .trait .. => [([.kwTrait], traitDeclaration)]
  | .traitUse .. => [([.kwUse], Grammar.traitUse)]
  | _ => []

/-- One of the rules that make a production made it, with the span `span`. -/
def Production.Made (c : Scope) (span : Span) (p : Production Node) : Prop :=
  ∃ m ∈ p.makers, ∃ n : Node, n.Yielded c m.1 m.2 ∧ n.production = p ∧ n.span = span

/-! ## Names -/

def TokenKind.nameKeywords : List TokenKind := [.kwStatic, .kwArray, .kwCallable]

def Production.isName {α : Type} : Production α → Bool
  | .name .. => true
  | _ => false

def Node.Named (c : Scope) (n : Node) : Prop :=
  ∃ s t, s.stream.options = c.options ∧ s.tolerates = !c.strict ∧ s.stream.Sound ∧
    (s.kind ≠ .eof → s.stream.OnTokens c.source) ∧ Grammar.name.Yields s n t

def Span.IsKeyword (c : Scope) (span : Span) : Prop :=
  ∃ s : Stream, s.options = c.options ∧ s.Sound ∧ s.OnTokens c.source ∧
    s.current.kind ∈ TokenKind.nameKeywords ∧ span.start = s.current.start ∧
      span.stop = s.current.stop

/-! ## Lists of statements -/

def Production.statements {α : Type} : Production α → List α
  | .block children | .namespace _ children _ | .case _ children | .declare _ children _ =>
    children
  | _ => []

def Production.isListed {α : Type} : Production α → Bool
  | .block _ | .namespace .. | .case .. | .declare .. => true
  | _ => false

theorem Production.statements_of_not_isListed {α : Type} {p : Production α}
    (h : p.isListed = false) : p.statements = [] := by
  cases p with
  | block | «namespace» | case | «declare» => cases h
  | _ => rfl

def Rule.isStatementList : Rule .nodes → Bool
  | .statements _ | .topStatements _ | .namespaceStatements => true
  | _ => false

/-- What one of the rules for lists of statements yields, wherever it is asked for.  Where
that is the end of the text, nothing is known of the tokens. -/
def Listed (c : Scope) (ns : List Node) : Prop :=
  ∃ (r : Rule .nodes) (s t : ParseState), r.isStatementList = true ∧ s.tolerates = !c.strict ∧
    s.stream.Sound ∧ (s.kind ≠ .eof → s.stream.OnTokens c.source) ∧ r.body.Yields s ns t

/-- What the rules see to where they finish a node with the span `span`. -/
structure Production.Formed (c : Scope) (span : Span) (p : Production Node) : Prop where
  places : ∀ e ∈ p.places, e.1.Suits e.2
  operand : ∀ op left right, p.infix? = some (op, left, right) → ¬left.EndsInAssignment
  flags : c.strict = true → p.isContradictory = false
  outermost : c.strict = true → p.isNamespace = true →
    c.depth = 0 ∧ ∀ m ∈ Node.walkFrom p.children, m.production.isNamespace = false
  hollow : c.strict = true → p.isHollow = true → span.start.offset < c.stop
  made : p.makers ≠ [] → p.Made c span
  listed : Slot.areCases p.statements = true ∨ Listed c p.statements
  named : p.isName = true →
    (∃ n : Node, n.Named c ∧ n.production = p ∧ n.span = span) ∨ span.IsKeyword c

/-- A production of which no more is asked than that its places are filled, its statements
listed, and that a rule makes it. -/
def Production.isRegular (p : Production Node) : Bool :=
  p.infix?.isNone && !p.isContradictory && !p.isNamespace && !p.isHollow && !p.isName

/-- A production of which no more is asked than that its places are filled, and its
statements listed. -/
def Production.isSimple (p : Production Node) : Bool := p.isRegular && p.makers.isEmpty

/-- A production of which no more is asked than that its places are filled. -/
def Production.isOrdinary (p : Production Node) : Bool := p.isSimple && !p.isListed

/-- A production of which no more is asked than that its places are filled, and that a rule
makes it. -/
def Production.isCrafted (p : Production Node) : Bool := p.isRegular && !p.isListed

theorem Production.isTraitUse_of_isOrdinary {p : Production Node} (h : p.isOrdinary = true) :
    p.isTraitUse = false := by
  cases p with
  | traitUse => cases h
  | _ => rfl

theorem Production.isTraitUse_of_tail? {p : Production Node} {right : Node}
    (h : p.tail? = some right) : p.isTraitUse = false := by
  cases p with
  | traitUse => cases h
  | _ => rfl

theorem Production.Formed.regular {c : Scope} {span : Span} {p : Production Node}
    (hp : p.isRegular = true) (h : ∀ e ∈ p.places, e.1.Suits e.2)
    (hlisted : Slot.areCases p.statements = true ∨ Listed c p.statements)
    (hmade : p.makers ≠ [] → p.Made c span) : p.Formed c span := by
  simp only [isRegular, Bool.and_eq_true, Bool.not_eq_true', Option.isNone_iff_eq_none] at hp
  obtain ⟨⟨⟨⟨hop, hflags⟩, hnamespace⟩, hhollow⟩, hname⟩ := hp
  refine ⟨h, fun op left right e => ?_, fun _ => hflags, fun _ e => ?_, fun _ e => ?_, hmade,
    hlisted, fun e => ?_⟩
  · rw [hop] at e
    cases e
  · rw [hnamespace] at e
    cases e
  · rw [hhollow] at e
    cases e
  · rw [hname] at e
    cases e

theorem Production.Formed.simple {c : Scope} {span : Span} {p : Production Node}
    (hp : p.isSimple = true) (h : ∀ e ∈ p.places, e.1.Suits e.2)
    (hlisted : Slot.areCases p.statements = true ∨ Listed c p.statements) : p.Formed c span := by
  rw [isSimple, Bool.and_eq_true, List.isEmpty_iff] at hp
  exact .regular hp.1 h hlisted fun hne => absurd hp.2 hne

theorem Production.Formed.crafted {c : Scope} {span : Span} {p : Production Node}
    (hp : p.isCrafted = true) (h : ∀ e ∈ p.places, e.1.Suits e.2)
    (hmade : p.Made c span) : p.Formed c span := by
  rw [isCrafted, Bool.and_eq_true, Bool.not_eq_true'] at hp
  refine .regular hp.1 h (Or.inl ?_) fun _ => hmade
  rw [statements_of_not_isListed hp.2]
  rfl

/-- A name is formed where it is known where it comes from. -/
theorem Production.Formed.name {c : Scope} {span : Span} {word : String} {r : NameResolution}
    (h : (∃ n : Node, n.Named c ∧ n.production = .name word r ∧ n.span = span) ∨
      span.IsKeyword c) : (Production.name word r : Production Node).Formed c span :=
  ⟨fun _ he => absurd he List.not_mem_nil, nofun, fun _ => rfl, nofun, nofun,
    fun hne => absurd rfl hne, Or.inl rfl, fun _ => h⟩

theorem Production.Formed.ordinary {c : Scope} {span : Span} {p : Production Node}
    (hp : p.isOrdinary = true) (h : ∀ e ∈ p.places, e.1.Suits e.2) :
    p.Formed c span := by
  rw [isOrdinary, Bool.and_eq_true, Bool.not_eq_true'] at hp
  refine .simple hp.1 h (Or.inl ?_)
  rw [statements_of_not_isListed hp.2]
  rfl

/-- In strict mode nothing below a namespace is one, so it may stand outside as well. -/
theorem Production.Formed.outer {c : Scope} {span : Span} {p : Production Node}
    (h : p.Formed c.deeper span) : p.Formed c span where
  places := h.places
  operand := h.operand
  flags := h.flags
  outermost := fun hs hp => absurd (h.outermost hs hp).1 (Nat.succ_ne_zero _)
  hollow := h.hollow
  made := h.made
  listed := h.listed
  named := h.named

namespace Node

def WellFormed (c : Scope) (n : Node) : Prop :=
  ∀ m ∈ n.walk, m.production.Formed c m.span

structure Fills (c : Scope) (k : Slot) (n : Node) : Prop where
  wellFormed : n.WellFormed c
  suits : k.Suits n

variable {c : Scope} {k : Slot} {n : Node}

theorem wellFormed_iff :
    n.WellFormed c ↔
      n.production.Formed c n.span ∧ ∀ m ∈ n.children, m.WellFormed c := by
  simp only [WellFormed, walk_eq n, List.forall_mem_cons, List.forall_mem_flatMap]

theorem WellFormed.fills (h : n.WellFormed c) (hn : n.production.isTraitUse = false) :
    n.Fills c .any := ⟨h, Slot.suits_of_admits rfl hn⟩

theorem Fills.any (h : n.Fills c k) (hk : k ≠ .member) : n.Fills c .any :=
  h.wellFormed.fills (h.suits.other hk)

/-- A node is formed by what fills its places. -/
theorem wellFormed_mk {info : NodeInfo} {p : Production Node}
    (hplaces : ∀ e ∈ p.places, e.2.Fills c e.1)
    (hformed : (∀ e ∈ p.places, e.1.Suits e.2) → p.Formed c info.span) :
    (Node.mk info p).WellFormed c := by
  refine wellFormed_iff.mpr ⟨hformed fun e he => (hplaces e he).suits, fun m hm => ?_⟩
  obtain ⟨k, hk⟩ := Production.exists_mem_places hm
  exact (hplaces _ hk).wellFormed

/-- A node with the same production and the same span. -/
theorem WellFormed.withInfo (h : n.WellFormed c) (info : NodeInfo) (hspan : info.span = n.span) :
    (Node.mk info n.production).WellFormed c := by
  obtain ⟨hn, hbelow⟩ := wellFormed_iff.mp h
  refine wellFormed_iff.mpr ⟨?_, hbelow⟩
  show n.production.Formed c info.span
  rw [hspan]
  exact hn

theorem WellFormed.handTo (h : n.WellFormed c) (o : Opened) : (o.handTo n).WellFormed c :=
  h.withInfo (o.handTo n).toNodeInfo rfl

theorem WellFormed.outer (h : n.WellFormed c.deeper) : n.WellFormed c := fun m hm => (h m hm).outer

/-- In strict mode no namespace stands inside another one. -/
theorem WellFormed.isNamespace (h : n.WellFormed c.deeper) (hs : c.strict = true) :
    ∀ m ∈ n.walk, m.production.isNamespace = false := by
  intro m hm
  by_contra hne
  have hp : m.production.isNamespace = true := by simpa using hne
  exact absurd ((h m hm).outermost hs hp).1 (Nat.succ_ne_zero _)

/-! ## Nodes that are changed behind their rule -/

theorem wellFormed_leaf {info : NodeInfo} {p : Production Node} (hp : p.isOrdinary = true)
    (hchildren : p.children = []) : (Node.mk info p).WellFormed c := by
  have hplaces : p.places = [] := by
    have hlength := congrArg List.length p.places_children
    rw [hchildren, List.length_map] at hlength
    exact List.eq_nil_of_length_eq_zero hlength
  refine wellFormed_mk (fun e he => ?_) (.ordinary hp)
  rw [hplaces] at he
  cases he

theorem WellFormed.literalConstant (h : n.WellFormed c) :
    (Grammar.literalConstant n).WellFormed c := by
  unfold Grammar.literalConstant
  split
  · split
    · exact wellFormed_leaf rfl rfl
    · exact wellFormed_leaf rfl rfl
    · exact wellFormed_leaf rfl rfl
    · exact h
  · exact h

theorem isTraitUse_asPattern (n : Node) :
    n.asPattern.production.isTraitUse = n.production.isTraitUse := by
  obtain ⟨info, p⟩ := n
  cases p with
  | array items shortform => cases shortform <;> rfl
  | _ => rfl

/-- What fills a place of an array literal still does where the literal is read as a list. -/
theorem suits_asPattern (h : Slot.Suits .entry n) : Slot.Suits .entry n.asPattern := by
  have haccepted := h.accepted
  obtain ⟨info, p⟩ := n
  cases p with
  | entry | error => exact ⟨rfl, nofun⟩
  | _ => cases haccepted

/-- What makes a short array makes the list that it is read as. -/
theorem made_asPattern {span : Span} {items : List Node}
    (h : (Production.array items true).Made c span) :
    (Production.list (items.map asPattern) true).Made c span := by
  obtain ⟨m, hm, n, ⟨s, t, hmode, hoptions, hsound, htokens, hkind, hyields⟩, hp, hspan⟩ := h
  rw [List.mem_singleton.mp hm] at hkind hyields
  refine ⟨_, List.mem_cons_of_mem _ List.mem_cons_self, n.asPattern,
    ⟨s, t, hmode, hoptions, hsound, htokens, hkind, ?_⟩, ?_, ?_⟩
  · exact Parser.yields_bind.mpr ⟨n, t, hyields, Parser.yields_pure.mpr ⟨rfl, rfl⟩⟩
  · obtain ⟨info, p⟩ := n
    cases hp
    exact congrArg (Production.list · true) (allAsPattern_eq items)
  · cases n
    exact hspan

theorem WellFormed.asPattern (h : n.WellFormed c) : n.asPattern.WellFormed c := by
  induction n using Node.induction with
  | step n ih =>
    obtain ⟨info, p⟩ := n
    obtain ⟨hp, hbelow⟩ := wellFormed_iff.mp h
    cases p with
    | array items shortform =>
      cases shortform with
      | false => exact h
      | true =>
        have hitem (m : Node) (hm : m ∈ items) : m ∈ (Node.mk info (.array items true)).children := by
          simpa [children, Production.children, Production.fields, Field.children] using hm
        rw [Node.asPattern, Production.asPattern, allAsPattern_eq]
        have hmade := made_asPattern (hp.made (List.cons_ne_nil _ _))
        refine wellFormed_mk (fun e he => ?_) fun h => .crafted rfl h hmade
        simp only [Production.places, List.map_map, List.mem_map, Function.comp_apply] at he
        obtain ⟨m, hm, rfl⟩ := he
        refine ⟨ih m (hitem m hm) (hbelow m (hitem m hm)), Slot.Suits.element ?_⟩
        exact suits_asPattern (hp.places (.entry, m) (List.mem_map_of_mem hm))
    | entry key value unpack =>
      have hvalue : value ∈ (Node.mk info (.entry key value unpack)).children := by
        simp [children, Production.children, Production.fields, Field.children]
      have hkey (m : Node) (hm : m ∈ key) :
          m ∈ (Node.mk info (.entry key value unpack)).children := by
        simp [children, Production.children, Production.fields, Field.children,
          Option.mem_def.mp hm]
      have hother (m : Node) (hm : m ∈ (Node.mk info (.entry key value unpack)).children) :
          m.production.isTraitUse = false :=
        (hp.places (.any, m) (List.mem_map_of_mem hm)).other (by simp)
      rw [Node.asPattern, Production.asPattern]
      refine wellFormed_mk (fun e he => ?_) (.ordinary rfl)
      simp only [Production.places, Production.children, Production.fields, Field.children,
        List.flatMap_cons, List.flatMap_nil, List.append_nil, List.map_append, List.mem_append,
        List.mem_map, Option.mem_toList, List.mem_singleton] at he
      rcases he with ⟨m, hm, rfl⟩ | ⟨m, rfl, rfl⟩
      · exact (hbelow m (hkey m hm)).fills (hother m (hkey m hm))
      · refine (ih value hvalue (hbelow value hvalue)).fills ?_
        rw [isTraitUse_asPattern]
        exact hother value hvalue
    | _ => exact h

end Node

end PhpSyntax
