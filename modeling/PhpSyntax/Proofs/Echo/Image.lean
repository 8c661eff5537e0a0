import Mathlib.Order.Basic
import PhpSyntax.Proofs.Grammar.Loop
import PhpSyntax.Proofs.Layout.Expression
import PhpSyntax.Proofs.Typing.Slot

namespace PhpSyntax

/-- How one run of the rules follows another.

The identities of the echo depend on what the first run has made so far.  That is the index
of the relation between the states, and it only grows. -/
structure Echo where
  Index : Type
  order : Preorder Index
  /-- The identity of a node in the echo. -/
  renumber : Index → Nat → Nat
  /-- The place in the echo of where a node starts or ends. -/
  place : Position → Position
  /-- What the echo has of the comments of a node. -/
  hear : List Comment → List Comment
  /-- What the echo has in the body of a choice. -/
  trim : Node → Node
  /-- The text that the echo has behind the end of the code. -/
  tail : String → String
  /-- Where a run may have come to for the echo to follow it, if there is a limit. -/
  limit : Option (Stream → Prop)
  /-- Two states between the same actions of both runs. -/
  States : Index → ParseState → ParseState → Prop

namespace Echo

variable (E : Echo)

instance : Preorder E.Index := E.order

/-! ## The image of a node -/

def info (i : E.Index) (info : NodeInfo) : NodeInfo where
  id := E.renumber i info.id
  span := ⟨E.place info.span.start, E.place info.span.stop, info.span.anchors⟩
  leading := E.hear info.leading
  trailing := E.hear info.trailing

/-- A production with images for children, in the echo. -/
def adjust : Production Node → Production Node
  | .switch test body shortform => .switch test (E.trim body) shortform
  | .haltCompiler after => .haltCompiler (E.tail after)
  | p => p

def image (i : E.Index) : Node → Node := Node.fold fun info p => ⟨E.info i info, E.adjust p⟩

theorem image_mk (i : E.Index) (info : NodeInfo) (p : Production Node) :
    E.image i ⟨info, p⟩ = ⟨E.info i info, E.adjust (p.map (E.image i))⟩ :=
  Node.fold_eq _ _

theorem image_eq (i : E.Index) (n : Node) :
    E.image i n = ⟨E.info i n.toNodeInfo, E.adjust (n.production.map (E.image i))⟩ :=
  Node.fold_eq _ _

def opened (o : Opened) : Opened := ⟨E.place o.start, E.hear o.leading⟩

/-- The run has not come further than the echo can follow. -/
def IsOpen (u : Stream) : Prop := ∀ P ∈ E.limit, P u

variable {E} {i : E.Index}

theorem start_image (n : Node) : (E.image i n).span.start = E.place n.span.start := by
  rw [image_eq]
  rfl

/-! ## What the rules ask a node -/

theorem isConstantName_image (n : Node) :
    Grammar.isConstantName (E.image i n) = Grammar.isConstantName n := by
  obtain ⟨info, p⟩ := n
  rw [image_mk]
  cases p <;> rfl

theorem takesBraceOffset_image (n : Node) :
    Grammar.takesBraceOffset (E.image i n) = Grammar.takesBraceOffset n := by
  obtain ⟨info, p⟩ := n
  rw [image_mk]
  cases p <;> rfl

theorem takesLookups_image (n : Node) :
    Grammar.takesLookups (E.image i n) = Grammar.takesLookups n := by
  obtain ⟨info, p⟩ := n
  rw [image_mk]
  cases p <;> rfl

theorem isList_image (n : Node) : Grammar.isList (E.image i n) = Grammar.isList n := by
  obtain ⟨info, p⟩ := n
  rw [image_mk]
  cases p <;> rfl

theorem any_isList_image (key : Option Node) :
    (key.map (E.image i)).any Grammar.isList = key.any Grammar.isList := by
  cases key with
  | none => rfl
  | some n => exact isList_image n

/-! ## Nodes that are changed behind their rule -/

theorem image_literalConstant (n : Node) :
    E.image i (Grammar.literalConstant n) = Grammar.literalConstant (E.image i n) := by
  obtain ⟨info, p⟩ := n
  cases p with
  | name word resolution =>
    cases resolution with
    | unqualified =>
      simp only [Grammar.literalConstant, image_mk, Production.map, adjust]
      split <;> simp only [image_mk, Production.map, adjust]
    | _ => rfl
  | _ => rfl

theorem image_asPattern (n : Node) : E.image i n.asPattern = (E.image i n).asPattern := by
  induction n using Node.induction with
  | step n ih =>
    obtain ⟨info, p⟩ := n
    cases p with
    | array items shortform =>
      cases shortform with
      | false => rfl
      | true =>
        have hitems : (Node.allAsPattern items).map (E.image i) =
            Node.allAsPattern (items.map (E.image i)) := by
          rw [Node.allAsPattern_eq, Node.allAsPattern_eq, List.map_map, List.map_map]
          apply List.map_congr_left
          intro c hc
          apply ih c
          simpa [Node.children, Production.children, Production.fields, Field.children] using hc
        rw [Node.asPattern, Production.asPattern, image_mk, image_mk, Production.map,
          Production.map, hitems]
        rfl
    | entry key value unpack =>
      have hvalue : E.image i value.asPattern = (E.image i value).asPattern := by
        apply ih value
        simp [Node.children, Production.children, Production.fields, Field.children]
      rw [Node.asPattern, Production.asPattern, image_mk, image_mk, Production.map,
        Production.map, hvalue]
      rfl
    | _ => rfl

/-- The anchors of a span do not depend on its ends. -/
theorem setAnchors_between (p q : Position) (s : Span) (ps : List (Anchor × Option Position)) :
    (Span.mk p q s.anchors).setAnchors ps = ⟨p, q, (s.setAnchors ps).anchors⟩ := by
  induction ps generalizing s with
  | nil => rfl
  | cons e ps ih =>
    obtain ⟨a, at?⟩ := e
    cases at? with
    | none => exact ih s
    | some r =>
      have hone : (Span.mk p q s.anchors).setAnchor a r = ⟨p, q, (s.setAnchor a r).anchors⟩ := by
        unfold Span.setAnchor
        by_cases h : s.anchors.any (·.1 = a) = true
        · simp only [h, if_true]
        · simp only [h, Bool.false_eq_true, if_false]
      show ((Span.mk p q s.anchors).setAnchor a r).setAnchors ps = _
      rw [hone, ih]
      rfl

theorem image_withAnchors (n : Node) (anchors : List (Anchor × Option Position)) :
    E.image i (Grammar.withAnchors n anchors) = Grammar.withAnchors (E.image i n) anchors := by
  obtain ⟨info, p⟩ := n
  have hspan := setAnchors_between (E.place info.span.start) (E.place info.span.stop) info.span
    anchors
  have hends := Span.setAnchors_ends anchors info.span
  simp only [Grammar.withAnchors, image_mk, Echo.info, hspan, hends.1, hends.2]

end Echo
end PhpSyntax
