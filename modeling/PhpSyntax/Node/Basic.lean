/-
Nodes of the syntax tree.

A node is a production together with an identity, a span and the comments
attached to it.  `Node.fold` computes a value for a node from the values of its
children; it is the one recursion over trees from which the others are made, and
`fold_eq` states it in terms of `Production.map`.
-/
import PhpSyntax.Comment
import PhpSyntax.Span
import PhpSyntax.Node.Production

namespace PhpSyntax

/-- What a node has beside its production.  Identities are given in the order in
which nodes are finished, so a child has a smaller one than its parent. -/
structure NodeInfo where
  id : Nat
  span : Span
  leading : List Comment
  trailing : List Comment
deriving DecidableEq, Repr, Inhabited

structure Node extends NodeInfo where
  production : Production Node

namespace Node

instance : Inhabited Node := ⟨⟨default, .noop⟩⟩

def children (n : Node) : List Node := n.production.children

def name (n : Node) : String := n.production.tag

def isError (n : Node) : Bool :=
  match n.production with
  | .error .. => true
  | _ => false

/-! ## Recursion over trees -/

section Fold

variable {β : Type} (f : NodeInfo → Production β → β)

mutual

/-- The value of a node, given how the value of a production follows from those
of its children. -/
def fold : Node → β
  | ⟨info, p⟩ => f info (foldProduction p)

def foldProduction : Production Node → Production β
  | .echo expressions shortform => .echo (foldList expressions) shortform
  | .inline raw => .inline raw
  | .block children => .block (foldList children)
  | .expressionStatement expression => .expressionStatement (fold expression)
  | .if test body alternate shortform =>
    .if (fold test) (fold body) (foldOption alternate) shortform
  | .while test body shortform => .while (fold test) (fold body) shortform
  | .do test body => .do (fold test) (fold body)
  | .for init test increment body shortform =>
    .for (foldList init) (foldList test) (foldList increment) (fold body) shortform
  | .foreach source key value body shortform =>
    .foreach (fold source) (foldOption key) (fold value) (fold body) shortform
  | .switch test body shortform => .switch (fold test) (fold body) shortform
  | .case test body => .case (foldOption test) (foldList body)
  | .break level => .break (foldOption level)
  | .continue level => .continue (foldOption level)
  | .return expression => .return (foldOption expression)
  | .global items => .global (foldList items)
  | .static vars => .static (foldList vars)
  | .staticVariable var default => .staticVariable (fold var) (foldOption default)
  | .unset vars => .unset (foldList vars)
  | .function ident arguments isRef returnType nullable body =>
    .function (fold ident) (foldList arguments) isRef (foldOption returnType) nullable
      (fold body)
  | .parameter ident typeHint default isRef isVariadic nullable =>
    .parameter (fold ident) (foldOption typeHint) (foldOption default) isRef isVariadic nullable
  | .class ident parent implements body isAbstract isFinal isAnonymous =>
    .class (foldOption ident) (foldOption parent) (foldList implements) (foldList body)
      isAbstract isFinal isAnonymous
  | .interface ident parent body => .interface (fold ident) (foldList parent) (foldList body)
  | .trait ident body => .trait (fold ident) (foldList body)
  | .propertyStatement properties modifiers typeHint nullable =>
    .propertyStatement (foldList properties) modifiers (foldOption typeHint) nullable
  | .property ident value => .property (fold ident) (foldOption value)
  | .classConstant constants modifiers => .classConstant (foldList constants) modifiers
  | .constantStatement constants => .constantStatement (foldList constants)
  | .constant ident value => .constant (fold ident) (fold value)
  | .method ident arguments isRef returnType nullable body modifiers =>
    .method (fold ident) (foldList arguments) isRef (foldOption returnType) nullable
      (foldOption body) modifiers
  | .traitUse traits adaptations => .traitUse (foldList traits) adaptations
  | .namespace ident children withBraces =>
    .namespace (foldOption ident) (foldList children) withBraces
  | .useGroup base kind items => .useGroup (foldOption base) kind (foldList items)
  | .useItem ident localName kind => .useItem (fold ident) (foldOption localName) kind
  | .try body catches always => .try (fold body) (foldList catches) (foldOption always)
  | .catch types var body => .catch (foldList types) (fold var) (fold body)
  | .throw what => .throw (fold what)
  | .goto mark => .goto (fold mark)
  | .label ident => .label (fold ident)
  | .declare directives children mode => .declare (foldList directives) (foldList children) mode
  | .declareDirective key value => .declareDirective (fold key) (fold value)
  | .haltCompiler after => .haltCompiler after
  | .noop => .noop
  | .variable ident => .variable (foldVariableName ident)
  | .bin op left right => .bin op (fold left) (fold right)
  | .unary op what => .unary op (fold what)
  | .assign op left right => .assign op (fold left) (fold right)
  | .ternary test trueExpr falseExpr =>
    .ternary (fold test) (foldOption trueExpr) (fold falseExpr)
  | .coalesce test ifnull => .coalesce (fold test) (fold ifnull)
  | .pre op what => .pre op (fold what)
  | .post op what => .post op (fold what)
  | .cast kind raw what => .cast kind raw (fold what)
  | .silent expr => .silent (fold expr)
  | .isset vars => .isset (foldList vars)
  | .empty expression => .empty (fold expression)
  | .include target once require => .include (fold target) once require
  | .eval source => .eval (fold source)
  | .exit status useDie => .exit (foldOption status) useDie
  | .print expression => .print (fold expression)
  | .clone what => .clone (fold what)
  | .new what arguments => .new (fold what) (foldList arguments)
  | .call what arguments => .call (fold what) (foldList arguments)
  | .propertyLookup what offset => .propertyLookup (fold what) (fold offset)
  | .staticLookup what offset => .staticLookup (fold what) (fold offset)
  | .offsetLookup what offset => .offsetLookup (fold what) (foldOption offset)
  | .closure arguments uses isRef returnType nullable body isStatic =>
    .closure (foldList arguments) (foldList uses) isRef (foldOption returnType) nullable
      (fold body) isStatic
  | .arrowFunc arguments isRef returnType nullable body isStatic =>
    .arrowFunc (foldList arguments) isRef (foldOption returnType) nullable (fold body) isStatic
  | .array items shortform => .array (foldList items) shortform
  | .entry key value unpack => .entry (foldOption key) (fold value) unpack
  | .list items shortform => .list (foldList items) shortform
  | .byRef what => .byRef (fold what)
  | .variadic what => .variadic (fold what)
  | .name ident resolution => .name ident resolution
  | .identifier ident => .identifier ident
  | .string value raw isDoubleQuote => .string value raw isDoubleQuote
  | .encapsed raw kind => .encapsed raw kind
  | .nowdoc raw mark value => .nowdoc raw mark value
  | .number value => .number value
  | .boolean value raw => .boolean value raw
  | .null raw => .null raw
  | .magicConstant value => .magicConstant value
  | .yield key value => .yield (foldOption key) (foldOption value)
  | .yieldFrom value => .yieldFrom (fold value)
  | .parenthesis inner => .parenthesis (fold inner)
  | .error message token line expected => .error message token line expected

def foldList : List Node → List β
  | [] => []
  | n :: ns => fold n :: foldList ns

def foldOption : Option Node → Option β
  | none => none
  | some n => some (fold n)

def foldVariableName : VariableName Node → VariableName β
  | .named name => .named name
  | .dynamic n => .dynamic (fold n)

end

theorem foldList_eq (ns : List Node) : foldList f ns = ns.map (fold f) := by
  induction ns with
  | nil => simp [foldList]
  | cons n ns ih => simp [foldList, ih]

theorem foldOption_eq (n : Option Node) : foldOption f n = n.map (fold f) := by
  cases n <;> simp [foldOption]

theorem foldVariableName_eq (v : VariableName Node) :
    foldVariableName f v = v.map (fold f) := by
  cases v <;> simp [foldVariableName, VariableName.map]

theorem foldProduction_eq (p : Production Node) : foldProduction f p = p.map (fold f) := by
  cases p <;>
    simp only [foldProduction, Production.map, foldList_eq, foldOption_eq, foldVariableName_eq]

/-- The value of a node follows from the values of its children. -/
theorem fold_eq (n : Node) : fold f n = f n.toNodeInfo (n.production.map (fold f)) := by
  obtain ⟨info, p⟩ := n
  simp only [fold, foldProduction_eq]

end Fold

end Node
end PhpSyntax
