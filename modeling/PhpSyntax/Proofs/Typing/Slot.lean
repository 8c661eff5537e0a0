/-
What may stand where in a tree.

The type of nodes lets any production stand below any other.  A `Slot` says what a place
of a production is for, and `Production.places` lists the children of a production, each
with the slot that it fills.  An error may stand anywhere, and the use of traits only where a
member may.
-/
import PhpSyntax.Grammar.Literal
import PhpSyntax.Proofs.Grammar.Literal
import PhpSyntax.Proofs.Node.MapInfo
import PhpSyntax.Proofs.Precedence.Table

namespace PhpSyntax

/-- What a place of a production is for. -/
inductive Slot where
  /-- Anything that the grammar does not tell apart by its production. -/
  | any
  | block
  /-- The body of a choice. -/
  | cases
  | handler
  | name
  /-- A member of a class, interface or trait. -/
  | member
  | parameter
  | importItem
  | staticVariable
  | directive
  /-- An element of an array literal. -/
  | entry
  /-- An element of a destructuring list, which may be skipped. -/
  | element
  /-- The key of a loop over a collection, which is no destructuring list. -/
  | key
deriving DecidableEq, Repr

namespace Production

variable {α : Type}

def isCase : Production α → Bool
  | .case .. => true
  | _ => false

def isNoop : Production α → Bool
  | .noop => true
  | _ => false

def isNamespace : Production α → Bool
  | .namespace .. => true
  | _ => false

def isContradictory : Production α → Bool
  | .class _ _ _ _ isAbstract isFinal _ => isAbstract && isFinal
  | _ => false

def isTraitUse : Production α → Bool
  | .traitUse .. => true
  | _ => false

theorem isTraitUse_map {β : Type} (f : α → β) (p : Production α) :
    (p.map f).isTraitUse = p.isTraitUse := by
  cases p <;> rfl

def members : Production α → List α
  | .class _ _ _ body _ _ _ | .interface _ _ body | .trait _ body => body
  | _ => []

theorem members_map {β : Type} (f : α → β) (p : Production α) :
    (p.map f).members = p.members.map f := by
  cases p <;> rfl

/-- The children of a production in order, each with the slot that it fills. -/
def places : Production α → List (Slot × α)
  | .switch test body _ => [(.any, test), (.cases, body)]
  | .try body catches always =>
    (.block, body) :: (catches.map (Slot.handler, ·) ++ always.toList.map (Slot.block, ·))
  | .catch types var body => types.map (Slot.name, ·) ++ [(.any, var), (.block, body)]
  | .function ident arguments _ returnType _ body =>
    (.any, ident) :: (arguments.map (Slot.parameter, ·) ++ returnType.toList.map (Slot.name, ·) ++
      [(.block, body)])
  | .method ident arguments _ returnType _ body _ =>
    (.any, ident) :: (arguments.map (Slot.parameter, ·) ++ returnType.toList.map (Slot.name, ·) ++
      body.toList.map (Slot.block, ·))
  | .closure arguments uses _ returnType _ body _ =>
    arguments.map (Slot.parameter, ·) ++ uses.map (Slot.any, ·) ++
      returnType.toList.map (Slot.name, ·) ++ [(.block, body)]
  | .arrowFunc arguments _ returnType _ body _ =>
    arguments.map (Slot.parameter, ·) ++ returnType.toList.map (Slot.name, ·) ++ [(.any, body)]
  | .parameter ident typeHint default _ _ _ =>
    typeHint.toList.map (Slot.name, ·) ++ (.any, ident) :: default.toList.map (Slot.any, ·)
  | .class ident parent implements body _ _ _ =>
    ident.toList.map (Slot.any, ·) ++ parent.toList.map (Slot.name, ·) ++
      implements.map (Slot.name, ·) ++ body.map (Slot.member, ·)
  | .interface ident parent body =>
    (.any, ident) :: (parent.map (Slot.name, ·) ++ body.map (Slot.member, ·))
  | .trait ident body => (.any, ident) :: body.map (Slot.member, ·)
  | .propertyStatement properties _ typeHint _ =>
    typeHint.toList.map (Slot.name, ·) ++ properties.map (Slot.any, ·)
  | .traitUse traits _ => traits.map (Slot.name, ·)
  | .namespace ident children _ => ident.toList.map (Slot.name, ·) ++ children.map (Slot.any, ·)
  | .useGroup base _ items => base.toList.map (Slot.any, ·) ++ items.map (Slot.importItem, ·)
  | .useItem ident localName _ => (.name, ident) :: localName.toList.map (Slot.any, ·)
  | .static vars => vars.map (Slot.staticVariable, ·)
  | .declare directives children _ =>
    directives.map (Slot.directive, ·) ++ children.map (Slot.any, ·)
  | .array items _ => items.map (Slot.entry, ·)
  | .list items _ => items.map (Slot.element, ·)
  | .foreach source key value body _ =>
    (.any, source) :: (key.toList.map (Slot.key, ·) ++ [(.any, value), (.any, body)])
  | p => p.children.map (Slot.any, ·)

/-- The places of a production are where its children stand. -/
theorem places_children (p : Production α) : p.places.map Prod.snd = p.children := by
  have hsnd (k : Slot) (ns : List α) : (ns.map (k, ·)).map Prod.snd = ns := by
    rw [List.map_map]
    exact List.map_id ns
  cases p <;> simp [places, children, fields, Field.children, hsnd]

theorem mem_children_of_mem_places {p : Production α} {e : Slot × α} (h : e ∈ p.places) :
    e.2 ∈ p.children :=
  p.places_children ▸ List.mem_map_of_mem h

theorem exists_mem_places {p : Production α} {a : α} (h : a ∈ p.children) :
    ∃ k, (k, a) ∈ p.places := by
  rw [← p.places_children] at h
  obtain ⟨⟨k, _⟩, he, rfl⟩ := List.mem_map.mp h
  exact ⟨k, he⟩

/-- Only members stand where a member may. -/
theorem mem_members_of_mem_places {p : Production α} {a : α} (h : (Slot.member, a) ∈ p.places) :
    a ∈ p.members := by
  cases p with
  | «class» | interface | trait => simpa [places, members] using h
  | _ => simp [places] at h

theorem places_map {β : Type} (f : α → β) (p : Production α) :
    (p.map f).places = p.places.map fun e => (e.1, f e.2) := by
  cases p with
  | «variable» v => cases v <;> rfl
  | _ =>
    simp [places, map, children, fields, Field.children, Option.toList_map, Function.comp_def]

end Production

namespace Slot

/-- Whether nothing but cases stands in a list, or a single node that is nothing. -/
def areCases (ns : List Node) : Bool :=
  ns.all (·.production.isCase) || ns.length = 1 && ns.all (·.production.isNoop)

/-- Whether a production is meant to fill a slot. -/
def admits : Slot → Production Node → Bool
  | .any, _ => true
  | .block, .block _ => true
  | .cases, .block children => areCases children
  | .handler, .catch .. => true
  | .name, .name .. => true
  | .member, .classConstant .. | .member, .propertyStatement .. => true
  | .member, .method .. | .member, .traitUse .. => true
  | .parameter, .parameter .. => true
  | .importItem, .useItem .. => true
  | .staticVariable, .staticVariable .. => true
  | .directive, .declareDirective .. => true
  | .entry, .entry .. => true
  | .element, .entry .. | .element, .noop => true
  | .key, .list .. => false
  | .key, _ => true
  | _, _ => false

/-- Whether a node may fill a slot: its production is meant to, or it is an error. -/
def accepts (k : Slot) (n : Node) : Bool := n.isError || k.admits n.production

theorem accepts_of_admits {k : Slot} {n : Node} (h : k.admits n.production = true) :
    k.accepts n = true := by
  rw [accepts, h, Bool.or_true]

structure Suits (k : Slot) (n : Node) : Prop where
  accepted : k.accepts n = true
  housed : n.production.isTraitUse = true → k = .member

variable {k : Slot} {n : Node}

theorem suits_of_admits (h : k.admits n.production = true)
    (hn : n.production.isTraitUse = false) : k.Suits n :=
  ⟨accepts_of_admits h, fun e => absurd (hn.symm.trans e) Bool.false_ne_true⟩

theorem Suits.other (h : k.Suits n) (hk : k ≠ .member) : n.production.isTraitUse = false :=
  Bool.eq_false_iff.mpr fun e => hk (h.housed e)

/-- What fills the place of a name has nothing below it, and is no namespace. -/
theorem walk_of_accepts_name {n : Node} (h : accepts .name n = true) :
    ∀ m ∈ n.walk, m.production.isNamespace = false := by
  obtain ⟨info, p⟩ := n
  rw [Node.walk_eq]
  cases p with
  | name | error => simp [Node.children, Production.children, Production.fields,
      Field.children, Production.isNamespace]
  | _ => cases h

/-- An element of an array literal may as well be one of a list. -/
theorem Suits.element (h : Suits .entry n) : Suits .element n := by
  have haccepted := h.accepted
  obtain ⟨info, p⟩ := n
  cases p with
  | entry | error => exact ⟨rfl, nofun⟩
  | _ => cases haccepted

theorem areCases_map {f : Node → Node} (hf : ∀ n, (f n).production.isCase = n.production.isCase)
    (hf' : ∀ n, (f n).production.isNoop = n.production.isNoop) (ns : List Node) :
    areCases (ns.map f) = areCases ns := by
  simp only [areCases, List.all_map, List.length_map, Function.comp_def, hf, hf']

theorem accepts_mapInfo (g : NodeInfo → NodeInfo) (k : Slot) (n : Node) :
    k.accepts (Node.mapInfo g n) = k.accepts n := by
  have hcase (n : Node) : (Node.mapInfo g n).production.isCase = n.production.isCase := by
    rw [Node.mapInfo_eq]
    cases n.production <;> rfl
  have hnoop (n : Node) : (Node.mapInfo g n).production.isNoop = n.production.isNoop := by
    rw [Node.mapInfo_eq]
    cases n.production <;> rfl
  rw [accepts, accepts, Node.isError_mapInfo, Node.mapInfo_eq]
  obtain ⟨info, p⟩ := n
  cases p with
  | block children => cases k <;> simp [Production.map, admits, areCases_map hcase hnoop]
  | _ => cases k <;> rfl

end Slot
end PhpSyntax
