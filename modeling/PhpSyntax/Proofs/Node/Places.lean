/-
Places in a tree.

A way down in a tree says at every node which child comes next, and a place is one of
several trees with a way down in it.  A node that is put in at a place is what stands
there afterwards, and the children of the node at a place are what stands at the places
below it (`Slots.below`).  The ways down in a tree are listed in the order in which the
nodes are visited (`paths`), each of them once.
-/
import Mathlib.Data.List.Basic
import PhpSyntax.Node.Walk

namespace PhpSyntax

/-! ## Children by number -/

namespace Production

theorem children_mapIdx {α β : Type} (f : Nat → α → β) (p : Production α) :
    (p.mapIdx f).children = p.children.mapIdx f := by
  have onOption : ∀ (o : Option α) (g : Nat → α → β),
      o.toList.mapIdx g = (o.map (g 0)).toList := by
    intro o g
    cases o <;> rfl
  have next : ∀ k, 2 + k = 1 + (1 + k) := by omega
  cases p with
  | «variable» v => cases v <;> rfl
  | _ =>
    simp [Production.mapIdx, Production.children, Production.fields, Field.children,
      List.mapIdx_append, List.mapIdx_cons, onOption, next, Nat.add_comm, Nat.add_left_comm,
      Nat.add_assoc]

theorem map_mapIdx {α β γ : Type} (f : Nat → α → β) (g : β → γ) (p : Production α) :
    (p.mapIdx f).map g = p.mapIdx fun i a => g (f i a) := by
  have onList : ∀ (l : List α) (f : Nat → α → β),
      (l.mapIdx f).map g = l.mapIdx fun i a => g (f i a) := by
    intro l f
    simp [List.mapIdx_eq_zipIdx_map]
  cases p with
  | «variable» v => cases v <;> rfl
  | _ => simp [Production.mapIdx, Production.map, Function.comp_def, onList]

theorem mapIdx_mapIdx {α β γ : Type} (f : Nat → α → β) (g : Nat → β → γ) (p : Production α) :
    (p.mapIdx f).mapIdx g = p.mapIdx fun i a => g i (f i a) := by
  cases p with
  | «variable» v => cases v <;> rfl
  | _ => simp [Production.mapIdx, Function.comp_def, Option.length_toList]

theorem mapIdx_id {α : Type} (p : Production α) : (p.mapIdx fun _ a => a) = p := by
  have onList : ∀ l : List α, (l.mapIdx fun _ a => a) = l := by
    intro l
    simp [List.mapIdx_eq_zipIdx_map]
  cases p with
  | «variable» v => cases v <;> rfl
  | _ => simp [Production.mapIdx, onList]

/-- Each child is changed by what the function does at its number. -/
theorem mapIdx_congr {α β : Type} {f g : Nat → α → β} {p : Production α}
    (h : ∀ i a, p.children[i]? = some a → f i a = g i a) : p.mapIdx f = p.mapIdx g := by
  -- With each child goes its number, so that this is a case of `map_congr`.
  have hpairs : ∀ f : Nat → α → β, p.mapIdx f = (p.mapIdx Prod.mk).map fun x => f x.1 x.2 := by
    intro f
    rw [map_mapIdx]
  rw [hpairs f, hpairs g]
  apply map_congr
  intro x hx
  rw [children_mapIdx] at hx
  obtain ⟨i, hi⟩ := List.mem_iff_getElem?.mp hx
  rw [List.getElem?_mapIdx, Option.map_eq_some_iff] at hi
  obtain ⟨a, ha, rfl⟩ := hi
  exact h i a ha

theorem mapIdx_map {α β γ : Type} (f : α → β) (g : Nat → β → γ) (p : Production α) :
    (p.map f).mapIdx g = p.mapIdx fun i a => g i (f a) := by
  cases p with
  | «variable» v => cases v <;> rfl
  | _ => simp [Production.mapIdx, Production.map, Function.comp_def, List.mapIdx_eq_zipIdx_map,
      List.zipIdx_map, Option.length_toList]

/-- The children that are put in are the children. -/
theorem children_withChildren {α : Type} {cs : List α} {p : Production α}
    (h : cs.length = p.children.length) : (p.withChildren cs).children = cs := by
  rw [withChildren, children_mapIdx]
  apply List.ext_getElem?
  intro i
  rw [List.getElem?_mapIdx]
  by_cases hi : i < cs.length
  · simp [hi, ← h]
  · simp [hi, ← h]

@[simp] theorem withChildren_children {α : Type} (p : Production α) :
    p.withChildren p.children = p := by
  have hsame : p.withChildren p.children = p.mapIdx fun _ a => a := by
    apply mapIdx_congr
    intro i a ha
    simp [ha]
  rw [hsame, mapIdx_id]

/-- Of the children that are put in twice the last stay. -/
theorem withChildren_withChildren {α : Type} {cs ds : List α} {p : Production α}
    (h : ds.length = p.children.length) :
    (p.withChildren cs).withChildren ds = p.withChildren ds := by
  rw [withChildren, withChildren, mapIdx_mapIdx]
  apply mapIdx_congr
  intro i a ha
  have hi : i < ds.length := h ▸ (List.getElem?_eq_some_iff.mp ha).1
  simp [hi]

/-- Nothing but the children is changed. -/
theorem map_withChildren_const {α β : Type} (b : β) (cs : List α) (p : Production α) :
    (p.withChildren cs).map (fun _ => b) = p.map fun _ => b := by
  have hconst : ∀ cs : List α, (p.withChildren cs).map (fun _ => b) = p.mapIdx fun _ _ => b := by
    intro cs
    rw [withChildren, map_mapIdx]
  have hself := hconst p.children
  rw [withChildren_children] at hself
  rw [hconst cs, hself]

end Production

namespace Node

theorem children_withChildren {n : Node} {cs : List Node} (h : cs.length = n.children.length) :
    (n.withChildren cs).children = cs :=
  Production.children_withChildren h

@[simp] theorem withChildren_children (n : Node) : n.withChildren n.children = n := by
  rw [withChildren, children, Production.withChildren_children]
  cases n
  rfl

theorem withChildren_withChildren {n : Node} {cs ds : List Node}
    (h : ds.length = n.children.length) :
    (n.withChildren cs).withChildren ds = n.withChildren ds := by
  rw [withChildren, withChildren, Production.withChildren_withChildren h]
  rfl

/-! ## Ways down -/

theorem at?_append (path below : List Nat) (n : Node) :
    at? (path ++ below) n = (at? path n).bind (at? below) := by
  induction path generalizing n with
  | nil => rfl
  | cons i path ih =>
    rw [List.cons_append, at?, at?, Option.bind_assoc]
    congr 1
    exact funext ih

/-- What is put in is what stands there. -/
theorem at?_put {path : List Nat} {n k : Node} (h : at? path n = some k) (m : Node) :
    at? path (put m path n) = some m := by
  induction path generalizing n with
  | nil => rfl
  | cons i path ih =>
    rw [at?, Option.bind_eq_some_iff] at h
    obtain ⟨c, hc, hk⟩ := h
    rw [put, at?, children_withChildren (List.length_modify ..), List.getElem?_modify_eq, hc]
    exact ih hk

/-- Of what is put in twice the last stays. -/
theorem put_put {path : List Nat} {n k : Node} (h : at? path n = some k) (m m' : Node) :
    put m' path (put m path n) = put m' path n := by
  induction path generalizing n with
  | nil => rfl
  | cons i path ih =>
    rw [at?, Option.bind_eq_some_iff] at h
    obtain ⟨c, hc, hk⟩ := h
    have hlength : ∀ (ns : List Node) (f : Node → Node), (ns.modify i f).length = ns.length :=
      fun ns f => List.length_modify ..
    rw [put, put, put, children_withChildren (hlength ..), withChildren_withChildren (by
      rw [hlength, hlength])]
    congr 1
    apply List.ext_getElem?
    intro j
    by_cases hj : i = j
    · subst hj
      simp [hc, ih hk]
    · simp [hj]

/-- What is put in behind a node changes one child of the node. -/
theorem put_concat {path : List Nat} {n k : Node} (h : at? path n = some k) (i : Nat) (m : Node) :
    put m (path ++ [i]) n = put (k.withChildren (k.children.set i m)) path n := by
  induction path generalizing n with
  | nil =>
    rw [at?, Option.some.injEq] at h
    subst h
    rw [List.set_eq_modify]
    rfl
  | cons j path ih =>
    rw [at?, Option.bind_eq_some_iff] at h
    obtain ⟨c, hc, hk⟩ := h
    rw [List.cons_append, put, put]
    congr 1
    apply List.ext_getElem?
    intro l
    by_cases hl : j = l
    · subst hl
      simp [hc, ih hk]
    · simp [hl]

end Node

/-! ## Places -/

namespace Place

theorem node?_put {ns : List Node} {π : Place} {k : Node} (h : π.node? ns = some k) (m : Node) :
    π.node? (π.put ns m) = some m := by
  rw [node?, Option.bind_eq_some_iff] at h
  obtain ⟨n, hn, hk⟩ := h
  rw [node?, put, List.getElem?_modify_eq, hn]
  exact Node.at?_put hk m

theorem put_put {ns : List Node} {π : Place} {k : Node} (h : π.node? ns = some k) (m m' : Node) :
    π.put (π.put ns m) m' = π.put ns m' := by
  rw [node?, Option.bind_eq_some_iff] at h
  obtain ⟨n, hn, hk⟩ := h
  apply List.ext_getElem?
  intro j
  by_cases hj : π.tree = j
  · subst hj
    simp [put, hn, Node.put_put hk]
  · simp [put, hj]

theorem node?_child (ns : List Node) (π : Place) (i : Nat) :
    (π.child i).node? ns = (π.node? ns).bind (·.children[i]?) := by
  rw [node?, node?, Option.bind_assoc]
  congr 1
  funext n
  rw [child, Node.at?_append]
  congr 1
  funext k
  exact Option.bind_fun_some _

theorem put_child {ns : List Node} {π : Place} {k : Node} (h : π.node? ns = some k) (i : Nat)
    (m : Node) : (π.child i).put ns m = π.put ns (k.withChildren (k.children.set i m)) := by
  rw [node?, Option.bind_eq_some_iff] at h
  obtain ⟨n, hn, hk⟩ := h
  apply List.ext_getElem?
  intro j
  by_cases hj : π.tree = j
  · subst hj
    simp [put, child, hn, Node.put_concat hk]
  · simp [put, child, hj]

end Place

/-- The places `place 0`, `place 1` and so on are the slots that `fill` fills: what stands at
one of them is the tree with its number, and to put a tree in there is to give it that number. -/
structure Slots (count : Nat) (place : Nat → Place) (fill : List Node → List Node) : Prop where
  node? : ∀ (cs : List Node) (i : Nat), cs.length = count → (place i).node? (fill cs) = cs[i]?
  put : ∀ (cs : List Node) (i : Nat) (c : Node), cs.length = count →
    (place i).put (fill cs) c = fill (cs.set i c)

/-- The roots are slots for whole trees. -/
theorem Slots.roots (count : Nat) : Slots count (fun i => ⟨i, []⟩) id where
  node? := by
    intro cs i _
    exact Option.bind_fun_some _
  put := by
    intro cs i c _
    rw [id, id, List.set_eq_modify]
    rfl

/-- The places below a place where a node is put in are slots for the children of the node. -/
theorem Slots.below {ns : List Node} {π : Place} {k : Node} (h : π.node? ns = some k) (n : Node) :
    Slots n.children.length π.child fun cs => π.put ns (n.withChildren cs) where
  node? := by
    intro cs i hcs
    rw [Place.node?_child, Place.node?_put h, Option.bind_some, Node.children_withChildren hcs]
  put := by
    intro cs i c hcs
    have hset : (cs.set i c).length = n.children.length := by rw [List.length_set, hcs]
    rw [Place.put_child (Place.node?_put h _), Place.put_put h, Node.children_withChildren hcs,
      Node.withChildren_withChildren hset]

end PhpSyntax
