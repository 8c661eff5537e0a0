import Mathlib.Data.List.Basic
import PhpSyntax.Node.Walk

namespace PhpSyntax

theorem Production.map_id {α : Type} (p : Production α) : p.map id = p := by
  cases p with
  | «variable» ident => cases ident <;> rfl
  | _ => simp only [map, Option.map_id, List.map_id, id]

theorem Production.map_map {α β γ : Type} (g : β → γ) (f : α → β) (p : Production α) :
    (p.map f).map g = p.map (g ∘ f) := by
  cases p with
  | «variable» ident => cases ident <;> rfl
  | _ => simp only [map, Option.map_map, List.map_map, Function.comp_apply]

namespace Node

variable (g : NodeInfo → NodeInfo)

theorem mapInfo_eq (n : Node) : mapInfo g n = ⟨g n.toNodeInfo, n.production.map (mapInfo g)⟩ :=
  fold_eq _ n

@[simp] theorem toNodeInfo_mapInfo (n : Node) : (mapInfo g n).toNodeInfo = g n.toNodeInfo := by
  rw [mapInfo_eq]

/-- Where a change leaves spans as they are, nodes stand where they stood. -/
theorem span_mapInfo {g : NodeInfo → NodeInfo} (hg : ∀ info, (g info).span = info.span)
    (n : Node) : (mapInfo g n).span = n.span := by
  rw [toNodeInfo_mapInfo, hg]

theorem production_mapInfo (n : Node) :
    (mapInfo g n).production = n.production.map (mapInfo g) := by
  rw [mapInfo_eq]

@[simp] theorem children_mapInfo (n : Node) :
    (mapInfo g n).children = n.children.map (mapInfo g) := by
  rw [mapInfo_eq, children, Production.children_map]
  rfl

@[simp] theorem isError_mapInfo (n : Node) : (mapInfo g n).isError = n.isError := by
  obtain ⟨info, p⟩ := n
  rw [mapInfo_eq]
  cases p <;> rfl

/-- Where the children of a changed node are the changed children, the nodes of a changed tree
are the changed nodes. -/
theorem walk_map {f : Node → Node} (hf : ∀ n, (f n).children = n.children.map f) (n : Node) :
    (f n).walk = n.walk.map f := by
  induction n using Node.induction with
  | step n ih =>
    have hbelow : (n.children.map f).flatMap walk = n.children.flatMap fun c => c.walk.map f := by
      rw [List.flatMap_map]
      exact List.flatMap_congr ih
    rw [walk_eq, walk_eq, hf, hbelow, List.map_cons, List.map_flatMap]

theorem walkFrom_map {f : Node → Node} (hf : ∀ n, (f n).children = n.children.map f)
    (ns : List Node) : walkFrom (ns.map f) = (walkFrom ns).map f := by
  rw [walkFrom_eq, walkFrom_eq, List.flatMap_map, List.map_flatMap]
  exact List.flatMap_congr fun n _ => walk_map hf n

theorem walk_mapInfo (n : Node) : (mapInfo g n).walk = n.walk.map (mapInfo g) :=
  walk_map (children_mapInfo g) n

theorem walkFrom_map_mapInfo (ns : List Node) :
    walkFrom (ns.map (mapInfo g)) = (walkFrom ns).map (mapInfo g) :=
  walkFrom_map (children_mapInfo g) ns

/-- Where nothing is changed, the tree is the same. -/
theorem mapInfo_id {g : NodeInfo → NodeInfo} (h : ∀ info, g info = info) (n : Node) :
    mapInfo g n = n := by
  induction n using Node.induction with
  | step n ih =>
    have hsame : n.production.map (mapInfo g) = n.production := by
      rw [Production.map_congr (g := id) ih, Production.map_id]
    rw [mapInfo_eq, h, hsame]
    cases n
    rfl

theorem mapInfo_mapInfo (f : NodeInfo → NodeInfo) (n : Node) :
    mapInfo g (mapInfo f n) = mapInfo (g ∘ f) n := by
  induction n using Node.induction with
  | step n ih =>
    have hbelow : (n.production.map (mapInfo f)).map (mapInfo g) =
        n.production.map (mapInfo (g ∘ f)) := by
      rw [Production.map_map]
      exact Production.map_congr ih
    rw [mapInfo_eq, mapInfo_eq f, mapInfo_eq (g ∘ f)]
    exact congrArg (Node.mk _) hbelow

/-- What a change does to a tree depends on what it does to the nodes of the tree. -/
theorem mapInfo_congr {f g : NodeInfo → NodeInfo} {n : Node}
    (h : ∀ m ∈ n.walk, f m.toNodeInfo = g m.toNodeInfo) : mapInfo f n = mapInfo g n := by
  induction n using Node.induction with
  | step n ih =>
    rw [walk_eq] at h
    obtain ⟨hself, hbelow⟩ := List.forall_mem_cons.mp h
    have hchildren : n.production.map (mapInfo f) = n.production.map (mapInfo g) := by
      apply Production.map_congr
      intro c hc
      exact ih c hc fun m hm => hbelow m (List.mem_flatMap.mpr ⟨c, hc, hm⟩)
    rw [mapInfo_eq, mapInfo_eq g, hself, hchildren]

end Node
end PhpSyntax
