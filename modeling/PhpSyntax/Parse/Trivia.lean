/-
The attachment of comments to nodes.

Comments are read in the order of the text, each once.  Opening a node reads all
that are unread: they lead the node.  Finishing a node hands the unread ones up
to the boundary to the node that was finished before it, which they trail.  That
node is part of the tree by then, so its comments are kept aside under its
identity until the tree is done.
-/
import PhpSyntax.Program

namespace PhpSyntax

structure Trivia where
  /-- How many comments have been read. -/
  read : Nat
  /-- The node that was finished last. -/
  lastFinished : Option Nat
  /-- Comments kept aside, each with the node that it trails. -/
  deferred : Array (Nat × Comment)
deriving Inhabited

namespace Trivia

def start : Trivia := ⟨0, none, #[]⟩

def unread (t : Trivia) (queue : Array Comment) : List Comment :=
  (queue.extract t.read queue.size).toList

def lead (t : Trivia) (queue : Array Comment) : List Comment × Trivia :=
  (t.unread queue, { t with read := queue.size })

/-- Read the comments up to `boundary` for the node finished before the one that
is finished now, which is `id`.  If there is none, a node finished at the end of
the input takes all comments itself. -/
def trail (t : Trivia) (queue : Array Comment) (id : Nat) (boundary : Position)
    (atEnd : Bool) : List Comment × Trivia :=
  let unread := t.unread queue
  match t.lastFinished with
  | some last =>
    let own := unread.takeWhile (·.offset ≤ boundary.offset)
    ([], { read := t.read + own.length
           lastFinished := some id
           deferred := t.deferred ++ own.map fun c => (last, c) })
  | none =>
    if atEnd then (unread, { t with read := queue.size, lastFinished := some id })
    else ([], { t with lastFinished := some id })

def deferredFor (t : Trivia) (id : Nat) : List Comment :=
  t.deferred.toList.filterMap fun e => if e.1 = id then some e.2 else none

/-- Put the comments kept aside behind those that the nodes have.  A comment whose
node is not in the tree goes to the program. -/
def settle (t : Trivia) (p : Program) : Program :=
  if t.deferred.isEmpty then p
  else
    let ids := p.tree.map (·.id)
    let orphans := t.deferred.toList.filter fun e => !ids.contains e.1
    { p with
      children := p.children.map <| Node.mapInfo fun info =>
        { info with trailing := info.trailing ++ t.deferredFor info.id }
      trailing := p.trailing ++ orphans.map (·.2) }

end Trivia
end PhpSyntax
