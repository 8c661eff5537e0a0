/-
The productions of the grammar.

A node of the syntax tree is an instance of one production, with the fields that
the production has.  `Production α` is the production of a node whose children
are of type `α`: the tree itself takes nodes for `α`, and other views of a tree
take other types.  `Production.fields` lists the fields with their names in order,
and all that is generic over productions is defined by that list.
-/
import PhpSyntax.Operator.Basic
import PhpSyntax.Node.Attribute

namespace PhpSyntax

/-- The name of a variable: written down, or computed by an expression. -/
inductive VariableName (α : Type) where
  | named (name : String)
  | dynamic (expr : α)
deriving Repr, Inhabited

/-- What a node is, with children of type `α`. -/
inductive Production (α : Type) where
  /-- `echo`, or a tag that opens with an echo in its short form. -/
  | echo (expressions : List α) (shortform : Bool)
  /-- HTML outside of tags. -/
  | inline (raw : String)
  /-- Statements in braces or between the marks of a short form. -/
  | block (children : List α)
  /-- An expression and the end of a statement. -/
  | expressionStatement (expression : α)
  /-- A conditional; an `elseif` is a conditional in the place of the alternate. -/
  | «if» (test body : α) (alternate : Option α) (shortform : Bool)
  /-- A loop that tests first. -/
  | while (test body : α) (shortform : Bool)
  /-- A loop that tests last. -/
  | «do» (test body : α)
  /-- A counted loop. -/
  | «for» (init test increment : List α) (body : α) (shortform : Bool)
  /-- A loop over a collection. -/
  | foreach (source : α) (key : Option α) (value body : α) (shortform : Bool)
  /-- A choice between cases. -/
  | switch (test body : α) (shortform : Bool)
  /-- One case of a choice; the default has no test. -/
  | case (test : Option α) (body : List α)
  | break (level : Option α)
  | continue (level : Option α)
  | «return» (expression : Option α)
  | «global» (items : List α)
  | static (vars : List α)
  | staticVariable (var : α) (default : Option α)
  | unset (vars : List α)
  | function (name : α) (arguments : List α) (byRef : Bool) (returnType : Option α)
      (nullable : Bool) (body : α)
  | parameter (name : α) (typeHint default : Option α) (byRef variadic nullable : Bool)
  /-- A class, declared or anonymous. -/
  | «class» (name parent : Option α) (implements body : List α)
      (isAbstract isFinal isAnonymous : Bool)
  | interface (name : α) (parent body : List α)
  | trait (name : α) (body : List α)
  /-- A list of properties with common modifiers. -/
  | propertyStatement (properties : List α) (modifiers : Modifiers) (typeHint : Option α)
      (nullable : Bool)
  | property (name : α) (value : Option α)
  | classConstant (constants : List α) (modifiers : Modifiers)
  | constantStatement (constants : List α)
  | constant (name value : α)
  /-- A method; an abstract one has no body. -/
  | method (name : α) (arguments : List α) (byRef : Bool) (returnType : Option α)
      (nullable : Bool) (body : Option α) (modifiers : Modifiers)
  /-- The use of traits in a class, with the adaptation block as it is written. -/
  | traitUse (traits : List α) (adaptations : Option String)
  /-- A namespace declaration with what belongs to the namespace. -/
  | «namespace» (name : Option α) (children : List α) (withBraces : Bool)
  /-- An import statement, grouped under a common start or not. -/
  | useGroup (base : Option α) (kind : UseKind) (items : List α)
  | useItem (name : α) (localName : Option α) (kind : UseKind)
  | «try» (body : α) (catches : List α) (always : Option α)
  | «catch» (types : List α) (var body : α)
  | throw (what : α)
  | goto (label : α)
  /-- The target of a `goto`. -/
  | label (name : α)
  /-- A declare statement with the statements it covers. -/
  | declare (directives children : List α) (mode : DeclareMode)
  | declareDirective (key value : α)
  /-- The end of the code, with the text behind it. -/
  | haltCompiler (after : String)
  /-- Nothing, or a slot that is skipped. -/
  | noop
  | «variable» (name : VariableName α)
  | bin (op : BinaryOp) (left right : α)
  | unary (op : UnaryOp) (what : α)
  | assign (op : AssignOp) (left right : α)
  /-- The conditional operator; the short form has no middle. -/
  | ternary (test : α) (trueExpr : Option α) (falseExpr : α)
  /-- The null coalescing operator. -/
  | coalesce (test ifnull : α)
  /-- An update whose value is the new one. -/
  | pre (op : UpdateOp) (what : α)
  /-- An update whose value is the old one. -/
  | post (op : UpdateOp) (what : α)
  | cast (kind : CastType) (raw : String) (what : α)
  /-- An expression with errors silenced. -/
  | silent (expr : α)
  | isset (vars : List α)
  | empty (expression : α)
  /-- `include` and `require`, in both forms. -/
  | «include» (target : α) (once require : Bool)
  | eval (source : α)
  /-- `exit` or `die`. -/
  | exit (status : Option α) (useDie : Bool)
  | print (expression : α)
  | clone (what : α)
  | new (what : α) (arguments : List α)
  | call (what : α) (arguments : List α)
  /-- A member of an object. -/
  | propertyLookup (what offset : α)
  /-- A member of a class. -/
  | staticLookup (what offset : α)
  /-- An element of an array or string. -/
  | offsetLookup (what : α) (offset : Option α)
  /-- An anonymous function. -/
  | closure (arguments uses : List α) (byRef : Bool) (returnType : Option α) (nullable : Bool)
      (body : α) (isStatic : Bool)
  /-- An anonymous function that consists of an expression. -/
  | arrowFunc (arguments : List α) (byRef : Bool) (returnType : Option α) (nullable : Bool)
      (body : α) (isStatic : Bool)
  | array (items : List α) (shortform : Bool)
  /-- An element of an array literal or of a destructuring list. -/
  | entry (key : Option α) (value : α) (unpack : Bool)
  /-- A destructuring list. -/
  | list (items : List α) (shortform : Bool)
  | byRef (what : α)
  /-- An unpacked argument. -/
  | variadic (what : α)
  /-- A name that may be qualified. -/
  | name (name : String) (resolution : NameResolution)
  | identifier (name : String)
  /-- A string without variables in it. -/
  | string (value raw : String) (isDoubleQuote : Bool)
  /-- A literal that is kept as it is written. -/
  | encapsed (raw : String) (kind : EncapsedKind)
  /-- A nowdoc with its body dedented. -/
  | nowdoc (raw label value : String)
  /-- A number as it is written. -/
  | number (value : String)
  | boolean (value : Bool) (raw : String)
  | null (raw : String)
  /-- A constant whose value depends on where it stands. -/
  | magicConstant (value : String)
  | yield (key value : Option α)
  | yieldFrom (value : α)
  /-- An expression in parentheses. -/
  | parenthesis (inner : α)
  /-- A placeholder for something that could not be read. -/
  | error (message token : String) (line : Nat) (expected : Option String)
deriving Repr, Inhabited

inductive Field (α : Type) where
  | node (n : α)
  | optional (n : Option α)
  | nodes (ns : List α)
  | variableName (v : VariableName α)
  | text (s : String)
  | optionalText (s : Option String)
  | flag (b : Bool)
  | number (n : Nat)
  | choice (label : String)
  | modifiers (m : Modifiers)
deriving Repr, Inhabited

namespace Production

def title {α : Type} : Production α → String
  | .echo .. => "Echo"
  | .inline .. => "Inline"
  | .block .. => "Block"
  | .expressionStatement .. => "ExpressionStatement"
  | .if .. => "If"
  | .while .. => "While"
  | .do .. => "Do"
  | .for .. => "For"
  | .foreach .. => "Foreach"
  | .switch .. => "Switch"
  | .case .. => "Case"
  | .break .. => "Break"
  | .continue .. => "Continue"
  | .return .. => "Return"
  | .global .. => "Global"
  | .static .. => "Static"
  | .staticVariable .. => "StaticVariable"
  | .unset .. => "Unset"
  | .function .. => "Function"
  | .parameter .. => "Parameter"
  | .class .. => "Class"
  | .interface .. => "Interface"
  | .trait .. => "Trait"
  | .propertyStatement .. => "PropertyStatement"
  | .property .. => "Property"
  | .classConstant .. => "ClassConstant"
  | .constantStatement .. => "ConstantStatement"
  | .constant .. => "Constant"
  | .method .. => "Method"
  | .traitUse .. => "TraitUse"
  | .namespace .. => "Namespace"
  | .useGroup .. => "UseGroup"
  | .useItem .. => "UseItem"
  | .try .. => "Try"
  | .catch .. => "Catch"
  | .throw .. => "Throw"
  | .goto .. => "Goto"
  | .label .. => "Label"
  | .declare .. => "Declare"
  | .declareDirective .. => "DeclareDirective"
  | .haltCompiler .. => "HaltCompiler"
  | .noop => "Noop"
  | .variable .. => "Variable"
  | .bin .. => "Bin"
  | .unary .. => "Unary"
  | .assign .. => "Assign"
  | .ternary .. => "Ternary"
  | .coalesce .. => "Coalesce"
  | .pre .. => "Pre"
  | .post .. => "Post"
  | .cast .. => "Cast"
  | .silent .. => "Silent"
  | .isset .. => "Isset"
  | .empty .. => "Empty"
  | .include .. => "Include"
  | .eval .. => "Eval"
  | .exit .. => "Exit"
  | .print .. => "Print"
  | .clone .. => "Clone"
  | .new .. => "New"
  | .call .. => "Call"
  | .propertyLookup .. => "PropertyLookup"
  | .staticLookup .. => "StaticLookup"
  | .offsetLookup .. => "OffsetLookup"
  | .closure .. => "Closure"
  | .arrowFunc .. => "ArrowFunc"
  | .array .. => "Array"
  | .entry .. => "Entry"
  | .list .. => "List"
  | .byRef .. => "ByRef"
  | .variadic .. => "Variadic"
  | .name .. => "Name"
  | .identifier .. => "Identifier"
  | .string .. => "String"
  | .encapsed .. => "Encapsed"
  | .nowdoc .. => "Nowdoc"
  | .number .. => "Number"
  | .boolean .. => "Boolean"
  | .null .. => "Null"
  | .magicConstant .. => "MagicConstant"
  | .yield .. => "Yield"
  | .yieldFrom .. => "YieldFrom"
  | .parenthesis .. => "Parenthesis"
  | .error .. => "Error"

/-- The name of a production: its title in small letters, apart from four that
have a name of their own. -/
def tag {α : Type} : Production α → String
  | .ternary .. => "retif"
  | .haltCompiler .. => "halt"
  | .null .. => "nullkeyword"
  | .magicConstant .. => "magic"
  | p => p.title.toLower

def fields {α : Type} : Production α → List (String × Field α)
  | .echo expressions shortform =>
    [("expressions", .nodes expressions), ("shortform", .flag shortform)]
  | .inline raw => [("raw", .text raw)]
  | .block children => [("children", .nodes children)]
  | .expressionStatement expression => [("expression", .node expression)]
  | .if test body alternate shortform =>
    [("test", .node test), ("body", .node body), ("alternate", .optional alternate),
      ("shortform", .flag shortform)]
  | .while test body shortform =>
    [("test", .node test), ("body", .node body), ("shortform", .flag shortform)]
  | .do test body => [("test", .node test), ("body", .node body)]
  | .for init test increment body shortform =>
    [("init", .nodes init), ("test", .nodes test), ("increment", .nodes increment),
      ("body", .node body), ("shortform", .flag shortform)]
  | .foreach source key value body shortform =>
    [("source", .node source), ("key", .optional key), ("value", .node value),
      ("body", .node body), ("shortform", .flag shortform)]
  | .switch test body shortform =>
    [("test", .node test), ("body", .node body), ("shortform", .flag shortform)]
  | .case test body => [("test", .optional test), ("body", .nodes body)]
  | .break level => [("level", .optional level)]
  | .continue level => [("level", .optional level)]
  | .return expression => [("expression", .optional expression)]
  | .global items => [("items", .nodes items)]
  | .static vars => [("variables", .nodes vars)]
  | .staticVariable var default => [("variable", .node var), ("default", .optional default)]
  | .unset vars => [("variables", .nodes vars)]
  | .function ident arguments isRef returnType nullable body =>
    [("name", .node ident), ("arguments", .nodes arguments), ("by_ref", .flag isRef),
      ("return_type", .optional returnType), ("nullable", .flag nullable), ("body", .node body)]
  | .parameter ident typeHint default isRef isVariadic nullable =>
    [("name", .node ident), ("type_hint", .optional typeHint), ("default", .optional default),
      ("by_ref", .flag isRef), ("variadic", .flag isVariadic), ("nullable", .flag nullable)]
  | .class ident parent implements body isAbstract isFinal isAnonymous =>
    [("name", .optional ident), ("extends", .optional parent),
      ("implements", .nodes implements), ("body", .nodes body),
      ("is_abstract", .flag isAbstract), ("is_final", .flag isFinal),
      ("is_anonymous", .flag isAnonymous)]
  | .interface ident parent body =>
    [("name", .node ident), ("extends", .nodes parent), ("body", .nodes body)]
  | .trait ident body => [("name", .node ident), ("body", .nodes body)]
  | .propertyStatement properties modifiers typeHint nullable =>
    [("properties", .nodes properties), ("modifiers", .modifiers modifiers),
      ("type_hint", .optional typeHint), ("nullable", .flag nullable)]
  | .property ident value => [("name", .node ident), ("value", .optional value)]
  | .classConstant constants modifiers =>
    [("constants", .nodes constants), ("modifiers", .modifiers modifiers)]
  | .constantStatement constants => [("constants", .nodes constants)]
  | .constant ident value => [("name", .node ident), ("value", .node value)]
  | .method ident arguments isRef returnType nullable body modifiers =>
    [("name", .node ident), ("arguments", .nodes arguments), ("by_ref", .flag isRef),
      ("return_type", .optional returnType), ("nullable", .flag nullable),
      ("body", .optional body), ("modifiers", .modifiers modifiers)]
  | .traitUse traits adaptations =>
    [("traits", .nodes traits), ("adaptations", .optionalText adaptations)]
  | .namespace ident children withBraces =>
    [("name", .optional ident), ("children", .nodes children),
      ("with_braces", .flag withBraces)]
  | .useGroup base kind items =>
    [("prefix", .optional base), ("kind", .choice kind.label), ("items", .nodes items)]
  | .useItem ident localName kind =>
    [("name", .node ident), ("alias", .optional localName), ("kind", .choice kind.label)]
  | .try body catches always =>
    [("body", .node body), ("catches", .nodes catches), ("always", .optional always)]
  | .catch types var body =>
    [("types", .nodes types), ("variable", .node var), ("body", .node body)]
  | .throw what => [("what", .node what)]
  | .goto mark => [("label", .node mark)]
  | .label ident => [("name", .node ident)]
  | .declare directives children mode =>
    [("directives", .nodes directives), ("children", .nodes children),
      ("mode", .choice mode.label)]
  | .declareDirective key value => [("key", .node key), ("value", .node value)]
  | .haltCompiler after => [("after", .text after)]
  | .noop => []
  | .variable ident => [("name", .variableName ident)]
  | .bin op left right => [("op", .choice op.label), ("left", .node left), ("right", .node right)]
  | .unary op what => [("op", .choice op.label), ("what", .node what)]
  | .assign op left right =>
    [("op", .choice op.label), ("left", .node left), ("right", .node right)]
  | .ternary test trueExpr falseExpr =>
    [("test", .node test), ("true_expr", .optional trueExpr), ("false_expr", .node falseExpr)]
  | .coalesce test ifnull => [("test", .node test), ("ifnull", .node ifnull)]
  | .pre op what => [("op", .choice op.label), ("what", .node what)]
  | .post op what => [("op", .choice op.label), ("what", .node what)]
  | .cast kind raw what =>
    [("kind", .choice kind.label), ("raw", .text raw), ("what", .node what)]
  | .silent expr => [("expr", .node expr)]
  | .isset vars => [("variables", .nodes vars)]
  | .empty expression => [("expression", .node expression)]
  | .include target once require =>
    [("target", .node target), ("once", .flag once), ("require", .flag require)]
  | .eval source => [("source", .node source)]
  | .exit status useDie => [("status", .optional status), ("use_die", .flag useDie)]
  | .print expression => [("expression", .node expression)]
  | .clone what => [("what", .node what)]
  | .new what arguments => [("what", .node what), ("arguments", .nodes arguments)]
  | .call what arguments => [("what", .node what), ("arguments", .nodes arguments)]
  | .propertyLookup what offset => [("what", .node what), ("offset", .node offset)]
  | .staticLookup what offset => [("what", .node what), ("offset", .node offset)]
  | .offsetLookup what offset => [("what", .node what), ("offset", .optional offset)]
  | .closure arguments uses isRef returnType nullable body isStatic =>
    [("arguments", .nodes arguments), ("uses", .nodes uses), ("by_ref", .flag isRef),
      ("return_type", .optional returnType), ("nullable", .flag nullable), ("body", .node body),
      ("is_static", .flag isStatic)]
  | .arrowFunc arguments isRef returnType nullable body isStatic =>
    [("arguments", .nodes arguments), ("by_ref", .flag isRef),
      ("return_type", .optional returnType), ("nullable", .flag nullable), ("body", .node body),
      ("is_static", .flag isStatic)]
  | .array items shortform => [("items", .nodes items), ("shortform", .flag shortform)]
  | .entry key value unpack =>
    [("key", .optional key), ("value", .node value), ("unpack", .flag unpack)]
  | .list items shortform => [("items", .nodes items), ("shortform", .flag shortform)]
  | .byRef what => [("what", .node what)]
  | .variadic what => [("what", .node what)]
  | .name ident resolution => [("name", .text ident), ("resolution", .choice resolution.label)]
  | .identifier ident => [("name", .text ident)]
  | .string value raw isDoubleQuote =>
    [("value", .text value), ("raw", .text raw), ("is_double_quote", .flag isDoubleQuote)]
  | .encapsed raw kind => [("raw", .text raw), ("kind", .choice kind.label)]
  | .nowdoc raw mark value => [("raw", .text raw), ("label", .text mark), ("value", .text value)]
  | .number value => [("value", .text value)]
  | .boolean value raw => [("value", .flag value), ("raw", .text raw)]
  | .null raw => [("raw", .text raw)]
  | .magicConstant value => [("value", .text value)]
  | .yield key value => [("key", .optional key), ("value", .optional value)]
  | .yieldFrom value => [("value", .node value)]
  | .parenthesis inner => [("inner", .node inner)]
  | .error message token line expected =>
    [("message", .text message), ("token", .optionalText (some token)), ("line", .number line),
      ("expected", .optionalText expected)]

end Production

def Field.children {α : Type} : Field α → List α
  | .node n => [n]
  | .optional n => n.toList
  | .nodes ns => ns
  | .variableName (.dynamic n) => [n]
  | _ => []

/-- The children of a node in the order of the source text.  That is the order of
the fields, but for two productions whose type comes first in the text. -/
def Production.children {α : Type} : Production α → List α
  | .parameter ident typeHint default _ _ _ => typeHint.toList ++ ident :: default.toList
  | .propertyStatement properties _ typeHint _ => typeHint.toList ++ properties
  | p => p.fields.flatMap fun f => f.2.children

def VariableName.map {α β : Type} (f : α → β) : VariableName α → VariableName β
  | .named name => .named name
  | .dynamic n => .dynamic (f n)

def Production.map {α β : Type} (f : α → β) : Production α → Production β
  | .echo expressions shortform => .echo (expressions.map f) shortform
  | .inline raw => .inline raw
  | .block children => .block (children.map f)
  | .expressionStatement expression => .expressionStatement (f expression)
  | .if test body alternate shortform => .if (f test) (f body) (alternate.map f) shortform
  | .while test body shortform => .while (f test) (f body) shortform
  | .do test body => .do (f test) (f body)
  | .for init test increment body shortform =>
    .for (init.map f) (test.map f) (increment.map f) (f body) shortform
  | .foreach source key value body shortform =>
    .foreach (f source) (key.map f) (f value) (f body) shortform
  | .switch test body shortform => .switch (f test) (f body) shortform
  | .case test body => .case (test.map f) (body.map f)
  | .break level => .break (level.map f)
  | .continue level => .continue (level.map f)
  | .return expression => .return (expression.map f)
  | .global items => .global (items.map f)
  | .static vars => .static (vars.map f)
  | .staticVariable var default => .staticVariable (f var) (default.map f)
  | .unset vars => .unset (vars.map f)
  | .function ident arguments isRef returnType nullable body =>
    .function (f ident) (arguments.map f) isRef (returnType.map f) nullable (f body)
  | .parameter ident typeHint default isRef isVariadic nullable =>
    .parameter (f ident) (typeHint.map f) (default.map f) isRef isVariadic nullable
  | .class ident parent implements body isAbstract isFinal isAnonymous =>
    .class (ident.map f) (parent.map f) (implements.map f) (body.map f) isAbstract isFinal
      isAnonymous
  | .interface ident parent body => .interface (f ident) (parent.map f) (body.map f)
  | .trait ident body => .trait (f ident) (body.map f)
  | .propertyStatement properties modifiers typeHint nullable =>
    .propertyStatement (properties.map f) modifiers (typeHint.map f) nullable
  | .property ident value => .property (f ident) (value.map f)
  | .classConstant constants modifiers => .classConstant (constants.map f) modifiers
  | .constantStatement constants => .constantStatement (constants.map f)
  | .constant ident value => .constant (f ident) (f value)
  | .method ident arguments isRef returnType nullable body modifiers =>
    .method (f ident) (arguments.map f) isRef (returnType.map f) nullable (body.map f) modifiers
  | .traitUse traits adaptations => .traitUse (traits.map f) adaptations
  | .namespace ident children withBraces => .namespace (ident.map f) (children.map f) withBraces
  | .useGroup base kind items => .useGroup (base.map f) kind (items.map f)
  | .useItem ident localName kind => .useItem (f ident) (localName.map f) kind
  | .try body catches always => .try (f body) (catches.map f) (always.map f)
  | .catch types var body => .catch (types.map f) (f var) (f body)
  | .throw what => .throw (f what)
  | .goto mark => .goto (f mark)
  | .label ident => .label (f ident)
  | .declare directives children mode => .declare (directives.map f) (children.map f) mode
  | .declareDirective key value => .declareDirective (f key) (f value)
  | .haltCompiler after => .haltCompiler after
  | .noop => .noop
  | .variable ident => .variable (ident.map f)
  | .bin op left right => .bin op (f left) (f right)
  | .unary op what => .unary op (f what)
  | .assign op left right => .assign op (f left) (f right)
  | .ternary test trueExpr falseExpr => .ternary (f test) (trueExpr.map f) (f falseExpr)
  | .coalesce test ifnull => .coalesce (f test) (f ifnull)
  | .pre op what => .pre op (f what)
  | .post op what => .post op (f what)
  | .cast kind raw what => .cast kind raw (f what)
  | .silent expr => .silent (f expr)
  | .isset vars => .isset (vars.map f)
  | .empty expression => .empty (f expression)
  | .include target once require => .include (f target) once require
  | .eval source => .eval (f source)
  | .exit status useDie => .exit (status.map f) useDie
  | .print expression => .print (f expression)
  | .clone what => .clone (f what)
  | .new what arguments => .new (f what) (arguments.map f)
  | .call what arguments => .call (f what) (arguments.map f)
  | .propertyLookup what offset => .propertyLookup (f what) (f offset)
  | .staticLookup what offset => .staticLookup (f what) (f offset)
  | .offsetLookup what offset => .offsetLookup (f what) (offset.map f)
  | .closure arguments uses isRef returnType nullable body isStatic =>
    .closure (arguments.map f) (uses.map f) isRef (returnType.map f) nullable (f body) isStatic
  | .arrowFunc arguments isRef returnType nullable body isStatic =>
    .arrowFunc (arguments.map f) isRef (returnType.map f) nullable (f body) isStatic
  | .array items shortform => .array (items.map f) shortform
  | .entry key value unpack => .entry (key.map f) (f value) unpack
  | .list items shortform => .list (items.map f) shortform
  | .byRef what => .byRef (f what)
  | .variadic what => .variadic (f what)
  | .name ident resolution => .name ident resolution
  | .identifier ident => .identifier ident
  | .string value raw isDoubleQuote => .string value raw isDoubleQuote
  | .encapsed raw kind => .encapsed raw kind
  | .nowdoc raw mark value => .nowdoc raw mark value
  | .number value => .number value
  | .boolean value raw => .boolean value raw
  | .null raw => .null raw
  | .magicConstant value => .magicConstant value
  | .yield key value => .yield (key.map f) (value.map f)
  | .yieldFrom value => .yieldFrom (f value)
  | .parenthesis inner => .parenthesis (f inner)
  | .error message token line expected => .error message token line expected

/-- The same production with every child changed by `f`, which is also told the number of
the child in the order of the text. -/
def Production.mapIdx {α β : Type} (f : Nat → α → β) : Production α → Production β
  | .echo expressions shortform => .echo (expressions.mapIdx f) shortform
  | .inline raw => .inline raw
  | .block children => .block (children.mapIdx f)
  | .expressionStatement expression => .expressionStatement (f 0 expression)
  | .if test body alternate shortform => .if (f 0 test) (f 1 body) (alternate.map (f 2)) shortform
  | .while test body shortform => .while (f 0 test) (f 1 body) shortform
  | .do test body => .do (f 0 test) (f 1 body)
  | .for init test increment body shortform =>
    .for (init.mapIdx f) (test.mapIdx fun i => f (init.length + i))
      (increment.mapIdx fun i => f (init.length + test.length + i))
      (f (init.length + test.length + increment.length) body) shortform
  | .foreach source key value body shortform =>
    .foreach (f 0 source) (key.map (f 1)) (f (key.toList.length + 1) value)
      (f (key.toList.length + 2) body) shortform
  | .switch test body shortform => .switch (f 0 test) (f 1 body) shortform
  | .case test body => .case (test.map (f 0)) (body.mapIdx fun i => f (test.toList.length + i))
  | .break level => .break (level.map (f 0))
  | .continue level => .continue (level.map (f 0))
  | .return expression => .return (expression.map (f 0))
  | .global items => .global (items.mapIdx f)
  | .static vars => .static (vars.mapIdx f)
  | .staticVariable var default => .staticVariable (f 0 var) (default.map (f 1))
  | .unset vars => .unset (vars.mapIdx f)
  | .function ident arguments isRef returnType nullable body =>
    .function (f 0 ident) (arguments.mapIdx fun i => f (1 + i)) isRef
      (returnType.map (f (arguments.length + 1))) nullable
      (f (arguments.length + returnType.toList.length + 1) body)
  | .parameter ident typeHint default isRef isVariadic nullable =>
    .parameter (f typeHint.toList.length ident) (typeHint.map (f 0))
      (default.map (f (typeHint.toList.length + 1))) isRef isVariadic nullable
  | .class ident parent implements body isAbstract isFinal isAnonymous =>
    .class (ident.map (f 0)) (parent.map (f ident.toList.length))
      (implements.mapIdx fun i => f (ident.toList.length + parent.toList.length + i))
      (body.mapIdx fun i => f (ident.toList.length + parent.toList.length + implements.length + i))
      isAbstract isFinal isAnonymous
  | .interface ident parent body =>
    .interface (f 0 ident) (parent.mapIdx fun i => f (1 + i))
      (body.mapIdx fun i => f (parent.length + 1 + i))
  | .trait ident body => .trait (f 0 ident) (body.mapIdx fun i => f (1 + i))
  | .propertyStatement properties modifiers typeHint nullable =>
    .propertyStatement (properties.mapIdx fun i => f (typeHint.toList.length + i)) modifiers
      (typeHint.map (f 0)) nullable
  | .property ident value => .property (f 0 ident) (value.map (f 1))
  | .classConstant constants modifiers => .classConstant (constants.mapIdx f) modifiers
  | .constantStatement constants => .constantStatement (constants.mapIdx f)
  | .constant ident value => .constant (f 0 ident) (f 1 value)
  | .method ident arguments isRef returnType nullable body modifiers =>
    .method (f 0 ident) (arguments.mapIdx fun i => f (1 + i)) isRef
      (returnType.map (f (arguments.length + 1))) nullable
      (body.map (f (arguments.length + returnType.toList.length + 1))) modifiers
  | .traitUse traits adaptations => .traitUse (traits.mapIdx f) adaptations
  | .namespace ident children withBraces =>
    .namespace (ident.map (f 0)) (children.mapIdx fun i => f (ident.toList.length + i)) withBraces
  | .useGroup base kind items =>
    .useGroup (base.map (f 0)) kind (items.mapIdx fun i => f (base.toList.length + i))
  | .useItem ident localName kind => .useItem (f 0 ident) (localName.map (f 1)) kind
  | .try body catches always =>
    .try (f 0 body) (catches.mapIdx fun i => f (1 + i)) (always.map (f (catches.length + 1)))
  | .catch types var body =>
    .catch (types.mapIdx f) (f types.length var) (f (types.length + 1) body)
  | .throw what => .throw (f 0 what)
  | .goto mark => .goto (f 0 mark)
  | .label ident => .label (f 0 ident)
  | .declare directives children mode =>
    .declare (directives.mapIdx f) (children.mapIdx fun i => f (directives.length + i)) mode
  | .declareDirective key value => .declareDirective (f 0 key) (f 1 value)
  | .haltCompiler after => .haltCompiler after
  | .noop => .noop
  | .variable ident => .variable (ident.map (f 0))
  | .bin op left right => .bin op (f 0 left) (f 1 right)
  | .unary op what => .unary op (f 0 what)
  | .assign op left right => .assign op (f 0 left) (f 1 right)
  | .ternary test trueExpr falseExpr =>
    .ternary (f 0 test) (trueExpr.map (f 1)) (f (trueExpr.toList.length + 1) falseExpr)
  | .coalesce test ifnull => .coalesce (f 0 test) (f 1 ifnull)
  | .pre op what => .pre op (f 0 what)
  | .post op what => .post op (f 0 what)
  | .cast kind raw what => .cast kind raw (f 0 what)
  | .silent expr => .silent (f 0 expr)
  | .isset vars => .isset (vars.mapIdx f)
  | .empty expression => .empty (f 0 expression)
  | .include target once require => .include (f 0 target) once require
  | .eval source => .eval (f 0 source)
  | .exit status useDie => .exit (status.map (f 0)) useDie
  | .print expression => .print (f 0 expression)
  | .clone what => .clone (f 0 what)
  | .new what arguments => .new (f 0 what) (arguments.mapIdx fun i => f (1 + i))
  | .call what arguments => .call (f 0 what) (arguments.mapIdx fun i => f (1 + i))
  | .propertyLookup what offset => .propertyLookup (f 0 what) (f 1 offset)
  | .staticLookup what offset => .staticLookup (f 0 what) (f 1 offset)
  | .offsetLookup what offset => .offsetLookup (f 0 what) (offset.map (f 1))
  | .closure arguments uses isRef returnType nullable body isStatic =>
    .closure (arguments.mapIdx f) (uses.mapIdx fun i => f (arguments.length + i)) isRef
      (returnType.map (f (arguments.length + uses.length))) nullable
      (f (arguments.length + uses.length + returnType.toList.length) body) isStatic
  | .arrowFunc arguments isRef returnType nullable body isStatic =>
    .arrowFunc (arguments.mapIdx f) isRef (returnType.map (f arguments.length)) nullable
      (f (arguments.length + returnType.toList.length) body) isStatic
  | .array items shortform => .array (items.mapIdx f) shortform
  | .entry key value unpack => .entry (key.map (f 0)) (f key.toList.length value) unpack
  | .list items shortform => .list (items.mapIdx f) shortform
  | .byRef what => .byRef (f 0 what)
  | .variadic what => .variadic (f 0 what)
  | .name ident resolution => .name ident resolution
  | .identifier ident => .identifier ident
  | .string value raw isDoubleQuote => .string value raw isDoubleQuote
  | .encapsed raw kind => .encapsed raw kind
  | .nowdoc raw mark value => .nowdoc raw mark value
  | .number value => .number value
  | .boolean value raw => .boolean value raw
  | .null raw => .null raw
  | .magicConstant value => .magicConstant value
  | .yield key value => .yield (key.map (f 0)) (value.map (f key.toList.length))
  | .yieldFrom value => .yieldFrom (f 0 value)
  | .parenthesis inner => .parenthesis (f 0 inner)
  | .error message token line expected => .error message token line expected

def Production.withChildren {α : Type} (cs : List α) (p : Production α) : Production α :=
  p.mapIdx fun i c => cs.getD i c

end PhpSyntax
