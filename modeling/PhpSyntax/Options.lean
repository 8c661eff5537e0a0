namespace PhpSyntax

structure Options where
  /-- Record errors in the tree and go on, instead of stopping at the first. -/
  suppressErrors : Bool := false
  /-- Collect the comments and attach them to nodes. -/
  extractDoc : Bool := false
  /-- Keep a log of all tokens. -/
  extractTokens : Bool := false
  /-- Accept the syntax of PHP 7: null coalescing, the spaceship operator, return
  types, grouped imports. -/
  php7 : Bool := true
  /-- Accept the syntax of PHP 7.4: arrow functions, coalescing assignment, typed
  properties, unpacking in arrays. -/
  php74 : Bool := true
  /-- Trace the parse, and check behind it that no node was left open. -/
  debug : Bool := false
deriving DecidableEq, Repr, Inhabited

namespace Options

def tolerant : Options := { suppressErrors := true }

/-- The options that a parse goes by: without PHP 7 there is no PHP 7.4. -/
def effective (o : Options) : Options := { o with php74 := o.php74 && o.php7 }

end Options
end PhpSyntax
