import PhpSyntax.Proofs.Account.Log
import PhpSyntax.Proofs.Halt.Longer

namespace PhpSyntax

def Production.extended {α : Type} (more : String) : Production α → Production α
  | .haltCompiler after => .haltCompiler (after ++ more)
  | p => p

def Node.extended (more : String) : Node → Node := fold fun info p => ⟨info, p.extended more⟩

/-- The same program, but for the text behind the end of the code and the end of the text. -/
def Program.extended (more : String) (stop : Position) (p : Program) : Program :=
  { p with
    span := { p.span with stop := stop }
    children := p.children.map (Node.extended more) }

variable {more : String}

theorem Production.extended_map {α β : Type} (f : α → β) (p : Production α) :
    (p.map f).extended more = (p.extended more).map f := by
  cases p <;> rfl

namespace Node

theorem extended_eq (n : Node) :
    n.extended more = ⟨n.toNodeInfo, (n.production.map (extended more)).extended more⟩ :=
  fold_eq _ n

theorem toNodeInfo_extended (n : Node) : (n.extended more).toNodeInfo = n.toNodeInfo := by
  rw [extended_eq]

theorem children_extended (n : Node) :
    (n.extended more).children = n.children.map (extended more) := by
  rw [extended_eq, children, children, ← Production.children_map]
  cases n.production <;> rfl

/-- A change beside the productions goes with more text behind the end of the code. -/
theorem extended_mapInfo (g : NodeInfo → NodeInfo) (n : Node) :
    (mapInfo g n).extended more = mapInfo g (n.extended more) := by
  induction n using Node.induction with
  | step n ih =>
    have hbelow : (n.production.map (mapInfo g)).map (extended more) =
        (n.production.map (extended more)).map (mapInfo g) := by
      rw [Production.map_map, Production.map_map]
      exact Production.map_congr ih
    rw [extended_eq n, mapInfo_eq, mapInfo_eq, extended_eq]
    show (⟨g n.toNodeInfo, ((n.production.map (mapInfo g)).map (extended more)).extended more⟩ :
      Node) = ⟨g n.toNodeInfo, ((n.production.map (extended more)).extended more).map (mapInfo g)⟩
    rw [hbelow, Production.extended_map]

theorem after?_extended (n : Node) : (n.extended more).after? = n.after?.map (· ++ more) := by
  rw [after?, after?, extended_eq]
  cases n.production <;> rfl

theorem scope_extended (n : Node) :
    (n.extended more).production.scope = n.production.scope.map (extended more) := by
  rw [extended_eq]
  cases n.production with
  | declare directives children mode => cases mode <;> rfl
  | _ => rfl

theorem filterMap_extended (ns : List Node) :
    (ns.map (extended more)).filterMap after? = (ns.filterMap after?).map (· ++ more) := by
  rw [List.filterMap_map, List.map_filterMap]
  exact List.filterMap_congr fun n _ => after?_extended n

/-- The image of a node in the longer text, where it ends in front of the end of the text. -/
theorem image_longer {source : String} {i : (Echo.longer source more).Index} {n : Node}
    (h : ∀ m ∈ n.walk, m.span.start.offset < (Position.origin.advance source).offset ∧
      m.span.stop.offset < (Position.origin.advance source).offset) :
    (Echo.longer source more).image i n = n.extended more := by
  have hadjust (p : Production Node) : (Echo.longer source more).adjust p = p.extended more := by
    cases p <;> rfl
  induction n using Node.induction with
  | step n ih =>
    rw [walk_eq] at h
    obtain ⟨⟨hstart, hstop⟩, hbelow⟩ := List.forall_mem_cons.mp h
    have hchildren : n.production.map ((Echo.longer source more).image i) =
        n.production.map (extended more) := by
      apply Production.map_congr
      intro c hc
      exact ih c hc fun m hm => hbelow m (List.mem_flatMap.mpr ⟨c, hc, hm⟩)
    have hinfo : (Echo.longer source more).info i n.toNodeInfo = n.toNodeInfo := by
      show NodeInfo.mk n.id ⟨n.span.start.carried source more, n.span.stop.carried source more,
        n.span.anchors⟩ n.leading n.trailing = n.toNodeInfo
      rw [Position.carried_of_lt hstart, Position.carried_of_lt hstop]
    rw [Echo.image_eq, hinfo, hadjust, hchildren, extended_eq]

end Node

namespace Program

variable {stop : Position} (p : Program)

theorem tree_extended : (p.extended more stop).tree = p.tree.map (Node.extended more) :=
  Node.walkFrom_map Node.children_extended p.children

/-- Each text behind an end of the code has more text behind it. -/
theorem tails_extended : (p.extended more stop).tails = p.tails.map (· ++ more) := by
  have hscopes : (p.tree.map (Node.extended more)).flatMap
      (fun n => n.production.scope.filterMap Node.after?) =
      p.tree.flatMap fun n => (n.production.scope.filterMap Node.after?).map (· ++ more) := by
    rw [List.flatMap_map]
    apply List.flatMap_congr
    intro n _
    rw [Node.scope_extended, Node.filterMap_extended]
  rw [tails, tails, tree_extended, hscopes, List.map_append, List.map_flatMap, extended,
    Node.filterMap_extended]

end Program

theorem Trivia.settle_extended {stop : Position} (t : Trivia) (p : Program) :
    (t.settle p).extended more stop = t.settle (p.extended more stop) := by
  have hids : (p.extended more stop).tree.map (·.id) = p.tree.map (·.id) := by
    rw [Program.tree_extended, List.map_map]
    apply List.map_congr_left
    intro n _
    exact congrArg NodeInfo.id n.toNodeInfo_extended
  have hchildren : (p.children.map (Node.mapInfo t.deliver)).map (Node.extended more) =
      (p.children.map (Node.extended more)).map (Node.mapInfo t.deliver) := by
    rw [List.map_map, List.map_map]
    apply List.map_congr_left
    intro n _
    exact n.extended_mapInfo t.deliver
  unfold settle
  rw [hids]
  split
  · rfl
  · simp only [Program.extended, Program.mk.injEq, and_true, true_and]
    exact hchildren

end PhpSyntax
