import Mathlib.Data.List.Perm.Basic
import PhpSyntax.Proofs.Observation.Shift
import PhpSyntax.Proofs.Typing.Slot

namespace PhpSyntax

/-- Whether a node is without text and without parts. -/
def Node.isStandIn (n : Node) : Bool :=
  n.production.isNoop && n.span.start.offset = n.span.stop.offset

/-- The body of a choice without the node that stands in for its cases. -/
def Node.emptied (body : Node) : Node :=
  match body.production with
  | .block [n] => if n.isStandIn then { body with production := .block [] } else body
  | _ => body

def Node.standIns (body : Node) : List Nat :=
  match body.production with
  | .block [n] => if n.isStandIn then [n.id] else []
  | _ => []

def Production.emptied : Production Node → Production Node
  | .switch test body shortform => .switch test body.emptied shortform
  | p => p

def Production.standIns : Production Node → List Nat
  | .switch _ body _ => body.standIns
  | _ => []

def Node.withoutStandIns : Node → Node := fold fun info p => ⟨info, p.emptied⟩

def NodeInfo.undocumented (dropped : List Nat) (info : NodeInfo) : NodeInfo where
  id := shift dropped info.id
  span := info.span
  leading := []
  trailing := []

/-- A tree without comments, and without the nodes that are there for them. -/
def Node.undocumented (dropped : List Nat) (n : Node) : Node :=
  mapInfo (NodeInfo.undocumented dropped) n.withoutStandIns

namespace Program

def standIns (p : Program) : List Nat := p.tree.flatMap fun n => n.production.standIns

def undocumented (p : Program) : Program :=
  { p.toNodeInfo.undocumented p.standIns with
    children := p.children.map (Node.undocumented p.standIns)
    errors := p.errors.map (Node.undocumented p.standIns)
    comments := none
    tokens := p.tokens }

end Program

/-! ## Nodes with other identities and comments -/

section

variable (f : NodeInfo → NodeInfo)

theorem Node.isStandIn_mapInfo (hf : ∀ info, (f info).span = info.span) (n : Node) :
    (mapInfo f n).isStandIn = n.isStandIn := by
  obtain ⟨info, p⟩ := n
  rw [mapInfo_eq]
  cases p with
  | noop =>
    simp only [isStandIn, hf]
    rfl
  | _ => rfl

theorem Node.emptied_mapInfo (hf : ∀ info, (f info).span = info.span) (body : Node) :
    (mapInfo f body).emptied = mapInfo f body.emptied := by
  obtain ⟨info, p⟩ := body
  cases p with
  | block children =>
    match children with
    | [] => rfl
    | [n] =>
      have hbody : mapInfo f ⟨info, .block [n]⟩ = ⟨f info, .block [mapInfo f n]⟩ := mapInfo_eq f _
      have hn := isStandIn_mapInfo f hf n
      by_cases h : n.isStandIn = true
      · simp only [hbody, emptied, hn, h, if_true]
        exact (mapInfo_eq f ⟨info, .block []⟩).symm
      · simp only [hbody, emptied, hn, h, Bool.false_eq_true, if_false]
    | _ :: _ :: _ => rfl
  | _ => rfl

theorem Production.emptied_mapInfo (hf : ∀ info, (f info).span = info.span)
    (p : Production Node) : (p.map (Node.mapInfo f)).emptied = p.emptied.map (Node.mapInfo f) := by
  cases p with
  | switch test body shortform =>
    exact congrArg (fun b => Production.switch (Node.mapInfo f test) b shortform)
      (Node.emptied_mapInfo f hf body)
  | _ => rfl

theorem Production.standIns_mapInfo (hf : ∀ info, (f info).span = info.span)
    (hid : ∀ info, (f info).id = info.id) (p : Production Node) :
    (p.map (Node.mapInfo f)).standIns = p.standIns := by
  cases p with
  | switch test body shortform =>
    obtain ⟨info, p⟩ := body
    show (Node.mapInfo f ⟨info, p⟩).standIns = (Node.mk info p).standIns
    rw [Node.mapInfo_eq]
    cases p with
    | block children =>
      match children with
      | [] => rfl
      | [n] =>
        have hn : (Node.mapInfo f n).id = n.id := by
          rw [Node.toNodeInfo_mapInfo, hid]
        show (if (Node.mapInfo f n).isStandIn = true then [(Node.mapInfo f n).id] else []) =
          if n.isStandIn = true then [n.id] else []
        rw [Node.isStandIn_mapInfo f hf, hn]
      | _ :: _ :: _ => rfl
    | _ => rfl
  | _ => rfl

end

/-! ## What is left of a tree -/

namespace Node

theorem withoutStandIns_eq (n : Node) :
    n.withoutStandIns = ⟨n.toNodeInfo, (n.production.map withoutStandIns).emptied⟩ :=
  fold_eq _ n

theorem withoutStandIns_mapInfo (f : NodeInfo → NodeInfo)
    (hf : ∀ info, (f info).span = info.span) (n : Node) :
    (mapInfo f n).withoutStandIns = mapInfo f n.withoutStandIns := by
  induction n using Node.induction with
  | step n ih =>
    have hbelow : (n.production.map (mapInfo f)).map withoutStandIns =
        (n.production.map withoutStandIns).map (mapInfo f) := by
      rw [Production.map_map, Production.map_map]
      exact Production.map_congr ih
    rw [withoutStandIns_eq, withoutStandIns_eq n, mapInfo_eq, mapInfo_eq, hbelow,
      Production.emptied_mapInfo f hf]

theorem isStandIn_withoutStandIns (n : Node) : n.withoutStandIns.isStandIn = n.isStandIn := by
  obtain ⟨info, p⟩ := n
  rw [withoutStandIns_eq]
  cases p <;> rfl

theorem standIns_withoutStandIns (body : Node) : body.withoutStandIns.standIns = body.standIns := by
  obtain ⟨info, p⟩ := body
  rw [withoutStandIns_eq]
  cases p with
  | block children =>
    match children with
    | [] => rfl
    | [n] =>
      have hid : n.withoutStandIns.id = n.id := by
        rw [withoutStandIns_eq]
      show (if n.withoutStandIns.isStandIn = true then [n.withoutStandIns.id] else []) =
        if n.isStandIn = true then [n.id] else []
      rw [isStandIn_withoutStandIns, hid]
    | _ :: _ :: _ => rfl
  | _ => rfl

def marks (n : Node) : List (Nat × Bool) := n.walk.map fun m => (m.id, m.isError)

theorem marks_eq (n : Node) : n.marks = (n.id, n.isError) :: n.children.flatMap marks := by
  rw [marks, walk_eq, List.map_cons, List.map_flatMap]
  rfl

/-- A body loses the node that stands in for its cases, and nothing else. -/
theorem marks_emptied (body : Node) :
    body.marks.Perm (body.emptied.marks ++ body.standIns.map (·, false)) := by
  obtain ⟨info, p⟩ := body
  cases p with
  | block children =>
    match children with
    | [] => simp [emptied, standIns]
    | [n] =>
      by_cases h : n.isStandIn = true
      · have hn : n.marks = [(n.id, false)] := by
          obtain ⟨info', p⟩ := n
          cases p with
          | noop => rw [marks_eq]; rfl
          | _ => cases h
        have hbody : (Node.mk info (.block [n])).marks = [(info.id, false), (n.id, false)] := by
          rw [marks_eq]
          show (info.id, false) :: [n].flatMap marks = _
          rw [List.flatMap_singleton, hn]
        have hempty : (Node.mk info (.block [])).marks = [(info.id, false)] := by
          rw [marks_eq]
          rfl
        simp only [emptied, standIns, h, if_true, hbody, hempty]
        exact List.Perm.refl _
      · simp [emptied, standIns, h]
    | _ :: _ :: _ => simp [emptied, standIns]
  | _ => simp [emptied, standIns]

end Node

theorem Production.marks_emptied (p : Production Node) :
    (p.children.flatMap Node.marks).Perm
      (p.emptied.children.flatMap Node.marks ++ p.standIns.map (·, false)) := by
  cases p with
  | switch test body shortform =>
    show ([test, body].flatMap Node.marks).Perm
      ([test, body.emptied].flatMap Node.marks ++ body.standIns.map (·, false))
    simp only [List.flatMap_cons, List.flatMap_nil, List.append_nil, List.append_assoc]
    exact (Node.marks_emptied body).append_left _
  | _ => simp [emptied, standIns]

theorem Production.standIns_map (p : Production Node) :
    (p.map Node.withoutStandIns).standIns = p.standIns := by
  cases p with
  | switch test body shortform => exact Node.standIns_withoutStandIns body
  | _ => rfl

theorem Node.isError_withoutStandIns (n : Node) : n.withoutStandIns.isError = n.isError := by
  obtain ⟨info, p⟩ := n
  rw [withoutStandIns_eq]
  cases p <;> rfl

/-- A tree loses the nodes that stand in for cases, and nothing else. -/
theorem Node.marks_withoutStandIns (n : Node) :
    n.marks.Perm (n.withoutStandIns.marks ++
      (n.walk.flatMap fun m => m.production.standIns).map (·, false)) := by
  induction n using Node.induction with
  | step n ih =>
    let gone (m : Node) : List (Nat × Bool) :=
      (m.walk.flatMap fun m => m.production.standIns).map (·, false)
    let p := n.production.map withoutStandIns
    have hbelow : (n.children.flatMap marks).Perm
        (p.children.flatMap marks ++ n.children.flatMap gone) := by
      have hchildren :
          p.children.flatMap marks = n.children.flatMap fun c => c.withoutStandIns.marks := by
        show (n.production.map withoutStandIns).children.flatMap marks = _
        rw [Production.children_map, List.flatMap_map]
        rfl
      rw [hchildren]
      refine (List.Perm.flatMap_left n.children ih).trans ?_
      exact (List.flatMap_append_perm _ _ _).symm
    have hgone : (n.walk.flatMap fun m => m.production.standIns).map (·, false) =
        p.standIns.map (·, false) ++ n.children.flatMap gone := by
      rw [walk_eq, List.flatMap_cons, List.flatMap_assoc, Production.standIns_map, List.map_append,
        List.map_flatMap]
    have hmark : n.withoutStandIns.marks = (n.id, n.isError) :: p.emptied.children.flatMap marks := by
      rw [marks_eq, isError_withoutStandIns, withoutStandIns_eq]
      rfl
    rw [marks_eq, hmark, hgone, List.cons_append, ← List.append_assoc]
    exact (hbelow.trans (p.marks_emptied.append_right _)).cons _

end PhpSyntax
