import PhpSyntax.Node.Walk

namespace PhpSyntax

/-- A parsed source text.  It has an identity, a span and comments as nodes have.
The errors are also in the tree, where something was missing; an error that
nothing took the place of is only among the errors. -/
structure Program extends NodeInfo where
  children : List Node
  /-- The error nodes in the order in which they were recorded. -/
  errors : List Node
  /-- All comments in the order of the text, if they were asked for. -/
  comments : Option (List Comment)
  /-- All tokens in the order of the text, if they were asked for. -/
  tokens : Option (List LogEntry)

namespace Program

instance : Inhabited Program := ⟨⟨default, [], [], none, none⟩⟩

def name : String := "program"

def tree (p : Program) : List Node := Node.walkFrom p.children

/-- What stands at the top: the children of the program, then the errors. -/
def top (p : Program) : List Node := p.children ++ p.errors

def walk (p : Program) : List Node := p.top.flatMap Node.walk

theorem walk_eq (p : Program) : p.walk = Node.walkFrom p.top := (Node.walkFrom_eq p.top).symm

def walkMut {σ : Type} (f : Node → StateM σ Node) (p : Program) (s : σ) : Option (Program × σ) :=
  (pushAll (Place.roots p.children).reverse [] |>.walkMutFrom f p.children s).map
    fun r => ({ p with children := r.1 }, r.2)

end Program
end PhpSyntax
