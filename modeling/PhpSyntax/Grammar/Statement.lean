import PhpSyntax.Grammar.Branch
import PhpSyntax.Grammar.ClassLike
import PhpSyntax.Grammar.Loop

namespace PhpSyntax.Grammar
open PhpSyntax.Parser

def expressionStatement : Parser Node := do
  let o ← openNode
  let n ← expression
  endStatement
  finish o (.expressionStatement n)

def withOptionalExpression (p : Option Node → Production Node) : Parser Node := do
  let o ← openNode
  advance
  let n ← optionally (!(← isIn .statementEnd)) expression
  endStatement
  finish o (p n)

def withItems (item : Rule .node) (p : List Node → Production Node) : Parser Node := do
  let o ← openNode
  advance
  let ns ← separated .comma item
  endStatement
  finish o (p ns)

def staticVariable : Parser Node := do
  let o ← openNode
  let target ← call .simpleVariable
  let default ← initialValue
  finish o (.staticVariable target default)

def echoStatement : Parser Node := do
  let shortform := "<?=".toList.isPrefixOf (← text).toList
  withItems (.expression 0) (.echo · shortform)

def inlineHtml : Parser Node := do
  let o ← openNode
  let raw ← text
  advance
  finish o (.inline raw)

def unsetStatement : Parser Node := do
  let o ← openNode
  advance
  let vs ← if ← expect .lParen then delimited .rParen (.variable false) else pure []
  endStatement
  finish o (.unset vs)

def throwStatement : Parser Node := do
  let o ← openNode
  advance
  let n ← expression
  endStatement
  finish o (.throw n)

def gotoStatement : Parser Node := do
  let o ← openNode
  advance
  let n ← identifier
  endStatement
  finish o (.goto n)

def label : Parser Node := do
  let o ← openNode
  let n ← identifier
  require .colon
  finish o (.label n)

def emptyStatement : Parser Node := do
  let o ← openNode
  advance
  finish o .noop

end PhpSyntax.Grammar
