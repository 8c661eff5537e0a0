import PhpSyntax.Node.Basic

namespace PhpSyntax

namespace Production

/-- Changing the children changes the list of them. -/
theorem children_map {α β : Type} (f : α → β) (p : Production α) :
    (p.map f).children = p.children.map f := by
  cases p with
  | «variable» v => cases v <;> rfl
  | _ =>
    simp [Production.map, Production.children, Production.fields, Field.children,
      Option.toList_map]

/-- The result of changing the children depends only on what becomes of them. -/
theorem map_congr {α β : Type} {f g : α → β} {p : Production α}
    (h : ∀ a ∈ p.children, f a = g a) : p.map f = p.map g := by
  have onOption : ∀ o : Option α, (∀ a, o = some a → f a = g a) ↔ o.map f = o.map g := by
    intro o
    cases o <;> simp
  cases p with
  | «variable» v =>
    cases v with
    | named name => rfl
    | dynamic a => rw [Production.map, VariableName.map, h a (List.mem_singleton.mpr rfl)]; rfl
  | _ =>
    simp only [children, fields, Field.children, List.flatMap_cons, List.flatMap_nil,
      List.append_nil, List.nil_append, List.cons_append, List.mem_append, List.mem_cons,
      List.not_mem_nil, or_false, Option.mem_toList, or_imp, forall_and, forall_eq,
      onOption, ← List.map_inj_left] at h
    simp only [Production.map, h]

end Production

namespace Node

def size : Node → Nat := fold fun _ p => p.children.foldr (· + ·) 0 + 1

def totalSize (ns : List Node) : Nat := (ns.map size).foldr (· + ·) 0

/-- A tree is its root and the trees below it. -/
theorem size_eq (n : Node) : n.size = totalSize n.children + 1 := by
  rw [size, fold_eq, Production.children_map]
  rfl

@[simp] theorem totalSize_cons (n : Node) (ns : List Node) :
    totalSize (n :: ns) = n.size + totalSize ns := rfl

theorem totalSize_append (ms ns : List Node) :
    totalSize (ms ++ ns) = totalSize ms + totalSize ns := by
  induction ms with
  | nil => exact (Nat.zero_add _).symm
  | cons m ms ih => simp [ih, Nat.add_assoc]

theorem size_le_totalSize {n : Node} {ns : List Node} (h : n ∈ ns) : n.size ≤ totalSize ns := by
  induction ns with
  | nil => simp at h
  | cons m ms ih =>
    rw [totalSize_cons]
    rcases List.mem_cons.mp h with rfl | h
    · exact Nat.le_add_right _ _
    · exact Nat.le_trans (ih h) (Nat.le_add_left _ _)

/-- A child is smaller than its parent. -/
theorem size_lt_of_mem_children {c n : Node} (h : c ∈ n.children) : c.size < n.size := by
  have := size_le_totalSize h
  rw [size_eq n]
  omega

/-- What holds of a node whenever it holds of its children holds of every node. -/
theorem induction {motive : Node → Prop} (n : Node)
    (step : ∀ n, (∀ c ∈ n.children, motive c) → motive n) : motive n :=
  step n fun c _ => induction c step
termination_by n.size
decreasing_by exact size_lt_of_mem_children ‹_›

end Node
end PhpSyntax
