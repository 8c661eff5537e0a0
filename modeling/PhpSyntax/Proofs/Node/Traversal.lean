/-
Traversals with a stack, and recursion over children.

The traversals keep a stack of what is still to be visited.  `Node.preorder` lists the nodes
of a tree by recursion over children, and `Node.rewrite` changes them by recursion: first a
node, and then the children that it has after that.  Both ways come to the same
(`walk_eq_preorder`, `walkMutFrom_roots`), also where a change is never done, because it adds
children without end.

Where every node keeps its children, the change ends, and the function was used on every
node once (`rewriteAll_keeping`).  What a node is apart from its children is its `shell`; the
shells of the nodes in order make the tree (`eq_of_shells`).
-/
import Mathlib.Data.List.Nodup
import PhpSyntax.Program
import PhpSyntax.Proofs.Node.Places

namespace PhpSyntax
namespace Node

/-! ## Listing nodes -/

def preorder (n : Node) : List Node :=
  n :: n.children.attach.flatMap fun c => preorder c.1
termination_by n.size
decreasing_by exact size_lt_of_mem_children c.2

theorem preorder_eq (n : Node) : n.preorder = n :: n.children.flatMap preorder := by
  rw [preorder]
  congr 1
  simp [List.flatMap_def]

theorem walk_eq_preorder (n : Node) : n.walk = n.preorder := by
  induction n using Node.induction with
  | step n ih =>
    rw [walk_eq, preorder_eq]
    congr 1
    exact List.flatMap_congr ih

def paths (n : Node) : List (List Nat) :=
  [] :: n.children.attach.zipIdx.flatMap fun c => (paths c.1.1).map (c.2 :: ·)
termination_by n.size
decreasing_by exact size_lt_of_mem_children c.1.2

theorem paths_eq (n : Node) :
    n.paths = [] :: n.children.zipIdx.flatMap fun c => c.1.paths.map (c.2 :: ·) := by
  rw [paths]
  congr 1
  conv => rhs; rw [← List.attach_map_subtype_val n.children, List.zipIdx_map, List.flatMap_map]
  rfl

/-- Every way down leads to a node that is visited. -/
theorem mem_paths (n : Node) (path : List Nat) : path ∈ n.paths ↔ (n.at? path).isSome := by
  induction n using Node.induction generalizing path with
  | step n ih =>
    rw [paths_eq, List.mem_cons, List.mem_flatMap]
    cases path with
    | nil => simp [at?]
    | cons i path =>
      constructor
      · rintro (h | ⟨⟨c, j⟩, hc, hpath⟩)
        · cases h
        obtain ⟨below, hbelow, heq⟩ := List.mem_map.mp hpath
        obtain ⟨hi, hpath⟩ := List.cons.inj heq
        have hchild : n.children[j]? = some c := List.mem_zipIdx_iff_getElem?.mp hc
        rw [at?, ← hi, ← hpath, hchild]
        exact (ih c (List.mem_of_getElem? hchild) below).mp hbelow
      · intro h
        rw [at?] at h
        obtain ⟨c, hchild⟩ := Option.isSome_iff_exists.mp (Option.isSome_of_isSome_bind h)
        rw [hchild] at h
        have hbelow := (ih c (List.mem_of_getElem? hchild) path).mpr h
        exact Or.inr ⟨(c, i), List.mem_zipIdx_iff_getElem?.mpr hchild,
          List.mem_map.mpr ⟨path, hbelow, rfl⟩⟩

theorem paths_nodup (n : Node) : n.paths.Nodup := by
  induction n using Node.induction with
  | step n ih =>
    rw [paths_eq, List.nodup_cons, List.nodup_flatMap]
    refine ⟨?notBelow, ?each, ?apart⟩
    case notBelow =>
      intro h
      obtain ⟨c, _, hpath⟩ := List.mem_flatMap.mp h
      obtain ⟨below, _, heq⟩ := List.mem_map.mp hpath
      cases heq
    case each =>
      rintro ⟨c, i⟩ hc
      have hchild : n.children[i]? = some c := List.mem_zipIdx_iff_getElem?.mp hc
      exact (ih c (List.mem_of_getElem? hchild)).map List.cons_injective
    case apart =>
      have hnumbers : (n.children.zipIdx.map Prod.snd).Nodup := by
        rw [List.zipIdx_map_snd]
        exact List.nodup_range'
      refine (List.pairwise_map.mp hnumbers).imp ?_
      intro c d hne path hc hd
      obtain ⟨_, _, rfl⟩ := List.mem_map.mp hc
      obtain ⟨_, _, heq⟩ := List.mem_map.mp hd
      exact hne (List.cons.inj heq).1.symm

/-- The nodes that are visited are those at the ends of the ways down. -/
theorem map_at?_paths (n : Node) : n.paths.map n.at? = n.walk.map some := by
  induction n using Node.induction with
  | step n ih =>
    rw [paths_eq, walk_eq, List.map_cons, List.map_cons, List.map_flatMap, List.map_flatMap]
    congr 1
    conv => rhs; rw [← List.zipIdx_map_fst 0 n.children, List.flatMap_map]
    apply List.flatMap_congr
    rintro ⟨c, i⟩ hc
    have hchild : n.children[i]? = some c := List.mem_zipIdx_iff_getElem?.mp hc
    rw [List.map_map, ← ih c (List.mem_of_getElem? hchild)]
    apply List.map_congr_left
    intro path _
    show n.at? (i :: path) = c.at? path
    rw [at?, hchild, Option.bind_some]

end Node
end PhpSyntax

/-! ## Changing nodes -/

section

open PhpSyntax

variable {σ : Type} (f : Node → StateM σ Node)

mutual

/-- The tree `n` with every node changed by `f`, by recursion over the children that a node
has after it was changed. -/
def PhpSyntax.Node.rewrite (n : Node) (s : σ) : Option (Node × σ) := do
  let changed := (f n).run s
  let below ← changed.1.children |>.rewriteAll changed.2
  return (changed.1.withChildren below.1, below.2)
partial_fixpoint

def List.rewriteAll (ns : List Node) (s : σ) : Option (List Node × σ) :=
  match ns with
  | [] => some ([], s)
  | n :: ns => do
    let first ← n |>.rewrite s
    let rest ← ns |>.rewriteAll first.2
    return (first.1 :: rest.1, rest.2)
partial_fixpoint

end

end

namespace PhpSyntax
namespace Node

open List (rewriteAll walkMutFrom)

section Rewrite

variable {σ : Type} (f : Node → StateM σ Node)

/-- The nodes at the places `pending` changed with all below them, one after the other. -/
def rewriteAt : (pending : List Place) → (ns : List Node) → (s : σ) → Option (List Node × σ)
  | [], ns, s => some (ns, s)
  | π :: pending, ns, s => do
    let n ← π.node? ns
    let changed ← rewrite f n s
    rewriteAt pending (π.put ns changed.1) changed.2

theorem rewriteAll_append (ms ns : List Node) (s : σ) :
    rewriteAll f (ms ++ ns) s = (do
      let first ← rewriteAll f ms s
      let rest ← rewriteAll f ns first.2
      return (first.1 ++ rest.1, rest.2)) := by
  induction ms generalizing s with
  | nil =>
    rw [List.nil_append, rewriteAll, Option.bind_eq_bind, Option.bind_some]
    cases rewriteAll f ns s with
    | none => rfl
    | some rest => rfl
  | cons m ms ih => simp [rewriteAll, ih, Option.bind_assoc]

/-- There are as many trees as before. -/
theorem rewriteAll_length {ns : List Node} {s : σ} {r : List Node × σ}
    (h : rewriteAll f ns s = some r) : r.1.length = ns.length := by
  induction ns generalizing s r with
  | nil =>
    rw [rewriteAll] at h
    cases h
    rfl
  | cons n ns ih =>
    simp only [rewriteAll, Option.bind_eq_bind, Option.bind_eq_some_iff] at h
    obtain ⟨first, _, rest, hrest, heq⟩ := h
    cases heq
    rw [List.length_cons, List.length_cons, ih hrest]

theorem rewriteAt_append (before behind : List Place) (ns : List Node) (s : σ) :
    rewriteAt f (before ++ behind) ns s =
      (rewriteAt f before ns s).bind fun r => rewriteAt f behind r.1 r.2 := by
  induction before generalizing ns s with
  | nil => rfl
  | cons π before ih => simp [rewriteAt, ih, Option.bind_assoc]

/-- In slots that follow each other the trees are changed as they are by themselves. -/
theorem rewriteAt_slots {count : Nat} {place : Nat → Place} {fill : List Node → List Node}
    (h : Slots count place fill) (done rest : List Node) (s : σ)
    (hcount : done.length + rest.length = count) :
    rewriteAt f ((List.range' done.length rest.length).map place) (fill (done ++ rest)) s =
      (rewriteAll f rest s).map fun r => (fill (done ++ r.1), r.2) := by
  induction rest generalizing done s with
  | nil => simp [rewriteAt, rewriteAll]
  | cons c rest ih =>
    have hlength : (done ++ c :: rest).length = count := by simpa using hcount
    have hnode : (place done.length).node? (fill (done ++ c :: rest)) = some c := by
      rw [h.node? _ _ hlength]
      simp
    rw [List.length_cons, List.range'_succ, List.map_cons, rewriteAt, hnode, rewriteAll]
    cases hfirst : rewrite f c s with
    | none => simp [hfirst]
    | some first =>
      have hput : (place done.length).put (fill (done ++ c :: rest)) first.1 =
          fill ((done ++ [first.1]) ++ rest) := by
        rw [h.put _ _ _ hlength]
        simp
      have hrest := ih (done ++ [first.1]) first.2 (by simp at hcount ⊢; omega)
      rw [List.length_append, List.length_singleton] at hrest
      simp only [Option.bind_eq_bind, Option.bind_some, hfirst, hput, hrest]
      cases rewriteAll f rest first.2 with
      | none => simp
      | some r => simp

/-- To change a node with all below it is to change the node, and then the children that it
has after that. -/
theorem rewriteAt_cons {π : Place} {ns : List Node} {n : Node} (h : π.node? ns = some n)
    (pending : List Place) (s : σ) :
    rewriteAt f (π :: pending) ns s =
      rewriteAt f (π.below ((f n).run s).1 ++ pending) (π.put ns ((f n).run s).1)
        ((f n).run s).2 := by
  generalize hchanged : (f n).run s = changed
  have hbelow := rewriteAt_slots f (Slots.below h changed.1) [] changed.1.children changed.2
    (Nat.zero_add _)
  rw [List.nil_append, withChildren_children, List.length_nil, ← List.range_eq_range'] at hbelow
  rw [rewriteAt_append, Place.below, hbelow, rewriteAt, h, Option.bind_eq_bind, Option.bind_some,
    rewrite, hchanged]
  cases rewriteAll f changed.1.children changed.2 with
  | none => rfl
  | some below => rfl

/-- What comes out with the stack comes out by recursion. -/
theorem rewriteAt_of_walkMutFrom (pending : List Place) (ns : List Node) (s : σ)
    (r : List Node × σ) (h : walkMutFrom f pending ns s = some r) :
    rewriteAt f pending ns s = some r := by
  refine List.walkMutFrom.partial_correctness f (fun pending ns s r => rewriteAt f pending ns s = some r)
    ?_ pending ns s r h
  intro walk ih pending ns s r h
  cases pending with
  | nil => exact h
  | cons π pending =>
    cases hnode : π.node? ns with
    | none =>
      simp only [hnode] at h
      cases h
    | some n =>
      simp only [hnode, pushAll_reverse] at h
      rw [rewriteAt_cons f hnode]
      exact ih _ _ _ _ h

/-- What comes out by recursion comes out with the stack, before what is below on the stack. -/
theorem walkMutFrom_of_rewrite :
    (∀ (n : Node) (s : σ) (r : Node × σ), rewrite f n s = some r →
      ∀ (π : Place) (pending : List Place) (ns : List Node), π.node? ns = some n →
        walkMutFrom f (π :: pending) ns s = walkMutFrom f pending (π.put ns r.1) r.2) ∧
    (∀ (cs : List Node) (s : σ) (r : List Node × σ), rewriteAll f cs s = some r →
      ∀ {count : Nat} {place : Nat → Place} {fill : List Node → List Node},
        Slots count place fill → ∀ (done : List Node) (pending : List Place),
        done.length + cs.length = count →
        walkMutFrom f ((List.range' done.length cs.length).map place ++ pending)
          (fill (done ++ cs)) s = walkMutFrom f pending (fill (done ++ r.1)) r.2) := by
  apply rewrite.mutual_partial_correctness
  case _ =>
    intro all ih n s r h π pending ns hnode
    simp only [Option.bind_eq_bind, Option.bind_eq_some_iff] at h
    obtain ⟨below, hbelow, heq⟩ := h
    cases heq
    have hwalk := ih _ _ _ hbelow (Slots.below hnode ((f n).run s).1) [] pending (Nat.zero_add _)
    rw [List.nil_append, withChildren_children, List.length_nil, ← List.range_eq_range'] at hwalk
    rw [walkMutFrom, hnode]
    simp only [pushAll_reverse, Place.below, hwalk]
    rfl
  case _ =>
    intro one all ihOne ihAll cs s r h count place fill hslots done pending hcount
    cases cs with
    | nil =>
      cases h
      rfl
    | cons c cs =>
      simp only [Option.bind_eq_bind, Option.bind_eq_some_iff] at h
      obtain ⟨first, hfirst, rest, hrest, heq⟩ := h
      cases heq
      have hlength : (done ++ c :: cs).length = count := by simpa using hcount
      have hnode : (place done.length).node? (fill (done ++ c :: cs)) = some c := by
        rw [hslots.node? _ _ hlength]
        simp
      have hput : (place done.length).put (fill (done ++ c :: cs)) first.1 =
          fill ((done ++ [first.1]) ++ cs) := by
        rw [hslots.put _ _ _ hlength]
        simp
      have hwalk := ihAll _ _ _ hrest hslots (done ++ [first.1]) pending
        (by simp at hcount ⊢; omega)
      rw [List.length_append, List.length_singleton] at hwalk
      rw [List.length_cons, List.range'_succ, List.map_cons, List.cons_append,
        ihOne _ _ _ hfirst _ _ _ hnode, hput, hwalk]
      simp

/-- With the stack as by recursion, the nodes at the places on the stack are changed one after
the other. -/
theorem walkMutFrom_eq_rewriteAt (pending : List Place) (ns : List Node) (s : σ) :
    walkMutFrom f pending ns s = rewriteAt f pending ns s := by
  have hback : ∀ r, rewriteAt f pending ns s = some r → walkMutFrom f pending ns s = some r := by
    intro r h
    induction pending generalizing ns s with
    | nil => rwa [walkMutFrom]
    | cons π pending ih =>
      simp only [rewriteAt, Option.bind_eq_bind, Option.bind_eq_some_iff] at h
      obtain ⟨n, hnode, changed, hchanged, hrest⟩ := h
      rw [(walkMutFrom_of_rewrite f).1 _ _ _ hchanged _ _ _ hnode]
      exact ih _ _ hrest
  apply Option.ext
  intro r
  exact ⟨rewriteAt_of_walkMutFrom f pending ns s r, hback r⟩

/-- The traversal with a stack changes whole trees as the recursion does. -/
theorem walkMutFrom_roots (ns : List Node) (s : σ) :
    walkMutFrom f (Place.roots ns) ns s = rewriteAll f ns s := by
  have hslots := rewriteAt_slots f (Slots.roots ns.length) [] ns s (Nat.zero_add _)
  rw [List.nil_append, List.length_nil, ← List.range_eq_range'] at hslots
  rw [walkMutFrom_eq_rewriteAt, Place.roots]
  refine hslots.trans ?_
  cases rewriteAll f ns s with
  | none => rfl
  | some r => rfl

end Rewrite

/-! ## Changes that keep the children -/

def shell (n : Node) : NodeInfo × Production Unit :=
  (n.toNodeInfo, n.production.map fun _ => ())

theorem shell_withChildren (n : Node) (cs : List Node) : (n.withChildren cs).shell = n.shell :=
  congrArg (Prod.mk n.toNodeInfo) (Production.map_withChildren_const () cs n.production)

theorem length_children_of_shell {m n : Node} (h : m.shell = n.shell) :
    m.children.length = n.children.length := by
  have hlength : ∀ k : Node, k.children.length = k.shell.2.children.length := by
    intro k
    rw [shell, Production.children_map, List.length_map, children]
  rw [hlength m, hlength n, h]

/-- A node is its shell with its children. -/
theorem eq_of_shell {m n : Node} (h : m.shell = n.shell) (hc : m.children = n.children) :
    m = n := by
  have hmade : ∀ k : Node,
      k.production = k.shell.2.mapIdx fun i _ => k.children.getD i default := by
    intro k
    rw [shell, Production.mapIdx_map]
    have hown := Production.withChildren_children k.production
    refine hown.symm.trans (Production.mapIdx_congr ?_)
    intro i c hchild
    rw [children, List.getD_eq_getElem?_getD, List.getD_eq_getElem?_getD, hchild]
    rfl
  have hproduction : m.production = n.production := by rw [hmade m, hmade n, h, hc]
  have hinfo : m.toNodeInfo = n.toNodeInfo := congrArg Prod.fst h
  cases m
  cases n
  cases hproduction
  cases hinfo
  rfl

/-- Trees are the shells of their nodes in order. -/
theorem eq_of_shells {ms ns : List Node}
    (h : (walkFrom ms).map shell = (walkFrom ns).map shell) : ms = ns := by
  match ms, ns with
  | [], [] => rfl
  | [], n :: ns => simp [walkFrom_cons] at h
  | m :: ms, [] => simp [walkFrom_cons] at h
  | m :: ms, n :: ns =>
    rw [walkFrom_cons, walkFrom_cons, List.map_cons, List.map_cons, List.cons.injEq] at h
    have hbelow := eq_of_shells h.2
    obtain ⟨hchildren, hrest⟩ := List.append_inj hbelow (length_children_of_shell h.1)
    rw [eq_of_shell h.1 hchildren, hrest]
termination_by totalSize ms
decreasing_by
  rw [totalSize_append, totalSize_cons, size_eq m]
  omega

theorem run_mapM_cons {σ : Type} (f : Node → StateM σ Node) (n : Node) (ns : List Node) (s : σ) :
    ((n :: ns).mapM f).run s =
      (((f n).run s).1 :: ((ns.mapM f).run ((f n).run s).2).1,
        ((ns.mapM f).run ((f n).run s).2).2) := by
  rw [List.mapM_cons]
  rfl

/-- Where every node keeps its children, all nodes are changed once, in the order in which
they are listed. -/
theorem rewriteAll_keeping {σ : Type} {f : Node → StateM σ Node}
    (hf : ∀ n s, ((f n).run s).1.children = n.children) (ns : List Node) (s : σ) :
    ∃ ms, rewriteAll f ns s = some (ms, (((walkFrom ns).mapM f).run s).2) ∧
      (walkFrom ms).map shell = (((walkFrom ns).mapM f).run s).1.map shell := by
  match ns with
  | [] =>
    rw [walkFrom_nil, List.mapM_nil, rewriteAll]
    exact ⟨[], rfl, by rw [walkFrom_nil]; rfl⟩
  | n :: ns =>
    generalize hchanged : (f n).run s = changed
    have hchildren : changed.1.children = n.children := by rw [← hchanged, hf]
    obtain ⟨ms, hms, hshells⟩ := rewriteAll_keeping hf (n.children ++ ns) changed.2
    have hrun := run_mapM_cons f n (walkFrom (n.children ++ ns)) s
    rw [← walkFrom_cons, hchanged] at hrun
    rw [rewriteAll_append] at hms
    simp only [Option.bind_eq_bind, Option.bind_eq_some_iff] at hms
    obtain ⟨below, hbelow, rest, hrest, heq⟩ := hms
    have hlength : below.1.length = changed.1.children.length := by
      rw [rewriteAll_length f hbelow, hchildren]
    obtain ⟨hms, hstate⟩ := Prod.mk.inj (Option.some.inj heq)
    refine ⟨changed.1.withChildren below.1 :: rest.1, ?_, ?_⟩
    · rw [rewriteAll, rewrite, hchanged, hchildren, hbelow, hrun, ← hstate]
      simp only [Option.bind_eq_bind, Option.bind_some, pure]
      rw [hrest]
      rfl
    · rw [walkFrom_cons, children_withChildren hlength, hms, List.map_cons, shell_withChildren,
        hshells, hrun, List.map_cons]
termination_by totalSize ns
decreasing_by
  rw [totalSize_append, totalSize_cons, size_eq n]
  omega

def looking {σ : Type} (look : Node → σ → σ) (n : Node) : StateM σ Node := do
  modify (look n)
  return n

theorem run_mapM_looking {σ : Type} (look : Node → σ → σ) (ns : List Node) (s : σ) :
    (ns.mapM (looking look)).run s = (ns, ns.foldl (fun s n => look n s) s) := by
  induction ns generalizing s with
  | nil => rfl
  | cons n ns ih =>
    have hrun : (looking look n).run s = (n, look n s) := rfl
    rw [run_mapM_cons, hrun, ih, List.foldl_cons]

def number (n : Node) : StateM Nat Node := do
  let next ← get
  set (next + 1)
  return { n with id := next }

end Node

namespace Program

open Node
open List (rewriteAll)

/-- The program with every node of the tree changed by `f`, by recursion. -/
def rewrite {σ : Type} (f : Node → StateM σ Node) (p : Program) (s : σ) :
    Option (Program × σ) :=
  (rewriteAll f p.children s).map fun r => ({ p with children := r.1 }, r.2)

theorem walkMut_eq_rewrite {σ : Type} (f : Node → StateM σ Node) (p : Program) (s : σ) :
    p.walkMut f s = p.rewrite f s := by
  rw [walkMut, rewrite, pushAll_reverse, List.append_nil, walkMutFrom_roots]

theorem tree_eq_preorder (p : Program) : p.tree = p.children.flatMap preorder := by
  rw [tree, walkFrom_eq]
  exact List.flatMap_congr fun n _ => walk_eq_preorder n

theorem walkMut_keeping {σ : Type} {f : Node → StateM σ Node}
    (hf : ∀ n s, ((f n).run s).1.children = n.children) (p : Program) (s : σ) :
    ∃ ns, p.walkMut f s = some ({ p with children := ns }, ((p.tree.mapM f).run s).2) ∧
      (walkFrom ns).map shell = ((p.tree.mapM f).run s).1.map shell := by
  obtain ⟨ns, hns, hshells⟩ := rewriteAll_keeping hf p.children s
  refine ⟨ns, ?_, hshells⟩
  rw [walkMut_eq_rewrite, rewrite, hns]
  rfl

/-- A function that changes nothing sees the nodes of the tree in order. -/
theorem walkMut_looking {σ : Type} (look : Node → σ → σ) (p : Program) (s : σ) :
    p.walkMut (looking look) s = some (p, p.tree.foldl (fun s n => look n s) s) := by
  obtain ⟨ns, hns, hshells⟩ := walkMut_keeping (f := looking look) (fun _ _ => rfl) p s
  rw [run_mapM_looking] at hns hshells
  have hsame : ns = p.children := eq_of_shells hshells
  rw [hns, hsame]

/-- The traversals with a stack are the recursive ones.  A walk over a tree lists its nodes by
recursion over children, and every way down in the tree leads to one of them, once.  A walk
over a program does so for each tree at the top and then for each error.  A walk that changes
nodes does what the recursion does, which goes on with the children that a node has after it
was changed.  If nothing is changed, it sees the nodes of the tree in the same order and leaves
the program as it is; and if every node keeps its children, the shells of the nodes that come
out are those of the nodes changed one after the other, each of them once. -/
theorem traversals_recursive :
    (∀ n : Node, n.walk = n.preorder ∧ n.paths.map n.at? = n.walk.map some ∧ n.paths.Nodup ∧
      ∀ path, path ∈ n.paths ↔ (n.at? path).isSome) ∧
    (∀ p : Program, p.walk = p.children.flatMap preorder ++ p.errors.flatMap preorder) ∧
    ∀ (σ : Type) (p : Program) (s : σ),
      (∀ f : Node → StateM σ Node, p.walkMut f s = p.rewrite f s) ∧
      (∀ look : Node → σ → σ, p.walkMut (looking look) s =
        some (p, (p.children.flatMap preorder).foldl (fun s n => look n s) s)) ∧
      ∀ f : Node → StateM σ Node, (∀ n s, ((f n).run s).1.children = n.children) →
        ∃ ns, p.walkMut f s = some ({ p with children := ns },
            (((p.children.flatMap preorder).mapM f).run s).2) ∧
          (ns.flatMap preorder).map shell =
            (((p.children.flatMap preorder).mapM f).run s).1.map shell := by
  refine ⟨?nodes, ?program, ?changes⟩
  case nodes =>
    intro n
    exact ⟨walk_eq_preorder n, map_at?_paths n, paths_nodup n, mem_paths n⟩
  case program =>
    intro p
    rw [walk, top, List.flatMap_append]
    congr 1 <;> exact List.flatMap_congr fun n _ => walk_eq_preorder n
  case changes =>
    intro σ p s
    rw [← tree_eq_preorder]
    refine ⟨fun f => walkMut_eq_rewrite f p s, fun look => walkMut_looking look p s, ?_⟩
    intro f hf
    obtain ⟨ns, hns, hshells⟩ := walkMut_keeping hf p s
    refine ⟨ns, hns, ?_⟩
    rw [← hshells, walkFrom_eq]
    exact congrArg (List.map shell) (List.flatMap_congr fun n _ => (walk_eq_preorder n).symm)

/-- A statement and its expression get the numbers from 7 on. -/
theorem traversals_numbering :
    let null : Node := ⟨default, .null "null"⟩
    let p : Program := ⟨default, [⟨default, .expressionStatement null⟩], [], none, none⟩
    (∀ n s, ((number n).run s).1.children = n.children) ∧
      ∃ ns, p.walkMut number 7 = some ({ p with children := ns }, 9) ∧
        (ns.flatMap preorder).map (·.id) = [7, 8] := by
  intro null p
  have hkeep : ∀ n s, ((number n).run s).1.children = n.children := fun _ _ => rfl
  obtain ⟨ns, hns, hshells⟩ := (traversals_recursive.2.2 Nat p 7).2.2 number hkeep
  have hnull : null.preorder = [null] := preorder_eq null
  have hnodes : p.children.flatMap preorder = [⟨default, .expressionStatement null⟩, null] := by
    show [_].flatMap preorder = _
    rw [List.flatMap_singleton, preorder_eq]
    show _ :: [null].flatMap preorder = _
    rw [List.flatMap_singleton, hnull]
  rw [hnodes] at hns hshells
  have hids := congrArg (List.map fun shell => shell.1.id) hshells
  rw [List.map_map] at hids
  exact ⟨hkeep, ns, hns, hids⟩

end Program
end PhpSyntax
