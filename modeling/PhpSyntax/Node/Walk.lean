/-
Walking over trees and changing them.

`Node.walk` lists the nodes of a tree, parents before children and children in
the order of the source text.  It keeps a stack of the nodes still to be visited,
so the depth of the tree does not matter to it; `walk_eq` says that the order is
that of the recursion over children.

`List.walkMutFrom` visits nodes in the same way and changes them where they stand.
What lies on its stack are places in the trees, and the children that come next
are those that a node has after it was changed.
-/
import PhpSyntax.Node.Size

namespace PhpSyntax

def pushAll {α : Type} (items stack : List α) : List α :=
  items.foldl (fun stack item => item :: stack) stack

/-- What is pushed in reverse comes off in order. -/
@[simp] theorem pushAll_reverse {α : Type} (items stack : List α) :
    pushAll items.reverse stack = items ++ stack := by
  rw [pushAll, List.foldl_reverse]
  exact List.foldr_cons_eq_append'

namespace Node

/-! ## Listing nodes -/

/-- Visit the nodes of a stack and all below them, the one on top first. -/
def walkFrom : List Node → List Node
  | [] => []
  | n :: pending => n :: walkFrom (pushAll n.children.reverse pending)
termination_by pending => totalSize pending
decreasing_by
  rw [pushAll_reverse, totalSize_append, totalSize_cons, size_eq n]
  omega

def walk (n : Node) : List Node := walkFrom [n]

@[simp] theorem walkFrom_nil : walkFrom [] = [] := by rw [walkFrom]

theorem walkFrom_cons (n : Node) (ns : List Node) :
    walkFrom (n :: ns) = n :: walkFrom (n.children ++ ns) := by
  rw [walkFrom, pushAll_reverse]

/-- What is visited below the first nodes comes before the other nodes. -/
theorem walkFrom_append (ms ns : List Node) :
    walkFrom (ms ++ ns) = walkFrom ms ++ walkFrom ns := by
  match ms with
  | [] => simp
  | m :: ms =>
    rw [List.cons_append, walkFrom_cons, walkFrom_cons, ← List.append_assoc,
      walkFrom_append (m.children ++ ms) ns, List.cons_append]
termination_by totalSize ms
decreasing_by
  rw [totalSize_append, totalSize_cons, size_eq m]
  omega

/-- The nodes of several trees are those of each in turn. -/
theorem walkFrom_eq (ns : List Node) : walkFrom ns = ns.flatMap walk := by
  induction ns with
  | nil => simp
  | cons n ns ih =>
    rw [← List.singleton_append, walkFrom_append, ih]
    rfl

/-- A node is visited before the trees below it, and these in order. -/
theorem walk_eq (n : Node) : n.walk = n :: n.children.flatMap walk := by
  rw [walk, walkFrom_cons, List.append_nil, walkFrom_eq]

/-! ## Changing nodes -/

def mapChildren (f : Node → Node) (n : Node) : Node :=
  { n with production := n.production.map f }

def mapInfo (g : NodeInfo → NodeInfo) : Node → Node := fold fun info p => ⟨g info, p⟩

def withChildren (n : Node) (cs : List Node) : Node :=
  { n with production := n.production.withChildren cs }

/-- The node at the end of a way down, which says at every node which child comes next. -/
def at? : (path : List Nat) → Node → Option Node
  | [], n => some n
  | i :: path, n => n.children[i]?.bind (at? path)

def put (m : Node) : (path : List Nat) → Node → Node
  | [], _ => m
  | i :: path, n => n.withChildren (n.children.modify i (put m path))

end Node

/-- A place in a list of trees: one of the trees and a way down in it. -/
structure Place where
  tree : Nat
  path : List Nat
deriving DecidableEq, Repr

namespace Place

def node? (ns : List Node) (π : Place) : Option Node := ns[π.tree]?.bind (Node.at? π.path)

def put (ns : List Node) (π : Place) (m : Node) : List Node :=
  ns.modify π.tree (Node.put m π.path)

def roots (ns : List Node) : List Place := (List.range ns.length).map fun i => ⟨i, []⟩

def child (π : Place) (i : Nat) : Place := ⟨π.tree, π.path ++ [i]⟩

def below (π : Place) (n : Node) : List Place := (List.range n.children.length).map π.child

end Place

end PhpSyntax

open PhpSyntax in
/-- Change the nodes at the places on a stack and all below them, the one on top first.
The function that changes a node may remember something from one node to the next.
Nothing comes out if it goes on adding children forever. -/
def List.walkMutFrom {σ : Type} (f : Node → StateM σ Node) (pending : List Place)
    (ns : List Node) (s : σ) : Option (List Node × σ) :=
  match pending with
  | [] => some (ns, s)
  | π :: pending =>
    match π.node? ns with
    | none => none
    | some n =>
      let changed := (f n).run s
      pushAll (π.below changed.1).reverse pending
        |>.walkMutFrom f (π.put ns changed.1) changed.2
partial_fixpoint
