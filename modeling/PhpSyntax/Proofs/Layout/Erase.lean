import Mathlib.Data.List.DropRight
import PhpSyntax.Fault
import PhpSyntax.Program

namespace PhpSyntax

/-! ## Messages -/

/-- A message up to the number at its end, which is that of a line. -/
def withoutNumber (message : String) : String :=
  String.ofList (message.toList.rdropWhile Char.isDigit)

theorem rdropWhile_append {α : Type} {p : α → Bool} {xs ys : List α} (h : ∀ y ∈ ys, p y = true) :
    (xs ++ ys).rdropWhile p = xs.rdropWhile p := by
  induction ys using List.reverseRecOn with
  | nil => rw [List.append_nil]
  | append_singleton ys y ih =>
    obtain ⟨hys, hy⟩ := List.forall_mem_append.mp h
    rw [← List.append_assoc, List.rdropWhile_concat_pos _ _ _ (hy y (List.mem_singleton.mpr rfl)),
      ih hys]

/-- A message names its line at the end. -/
theorem withoutNumber_onLine (message : String) (line : Nat) :
    withoutNumber (Fault.onLine message line) = withoutNumber (message ++ " on line ") := by
  have hline : Fault.onLine message line = message ++ " on line " ++ line.repr := by
    simp [Fault.onLine, toString]
  rw [withoutNumber, withoutNumber, hline, String.toList_append, Nat.toList_repr,
    rdropWhile_append fun c hc => Nat.isDigit_of_mem_toDigits (by decide) (by decide) hc]

def Fault.erased (f : Fault) : Fault := ⟨f.cause, withoutNumber f.message, "", 0, 0⟩

/-! ## Nodes -/

/-- A span without positions.  Its anchors are still there. -/
def Span.erased (s : Span) : Span := ⟨.origin, .origin, s.anchors.map fun e => (e.1, .origin)⟩

def NodeInfo.erased (info : NodeInfo) : NodeInfo := { info with span := info.span.erased }

/-- A production without lines, and without the texts that have trivia in them. -/
def Production.erased {α : Type} : Production α → Production α
  | .error message token _ expected => .error (withoutNumber message) token 0 expected
  | .traitUse traits adaptations => .traitUse traits (adaptations.map fun _ => "")
  | .haltCompiler _ => .haltCompiler ""
  | p => p

def Node.erased : Node → Node := fold fun info p => ⟨info.erased, p.erased⟩

/-- A program without its layout and without the log of its tokens. -/
def Program.erased (p : Program) : Program :=
  { p.toNodeInfo.erased with
    children := p.children.map Node.erased
    errors := p.errors.map Node.erased
    comments := p.comments
    tokens := none }

def erasedOutcome : Except Fault Program → Except Fault Program
  | .ok p => .ok p.erased
  | .error f => .error f.erased

theorem Node.erased_mk (info : NodeInfo) (p : Production Node) :
    (Node.mk info p).erased = ⟨info.erased, (p.map erased).erased⟩ :=
  fold_eq _ _

abbrev Same {α γ : Type} (e : α → γ) (a b : α) : Prop := e a = e b

def Production.Like (p q : Production Node) : Prop :=
  (p.map Node.erased).erased = (q.map Node.erased).erased

theorem Node.mk_erased {g h : NodeInfo} {p q : Production Node} (hinfo : g.erased = h.erased)
    (hp : p.Like q) : (Node.mk g p).erased = (Node.mk h q).erased := by
  rw [erased_mk, erased_mk, hinfo, hp]

theorem Node.erased_inj {m n : Node} (h : m.erased = n.erased) :
    m.toNodeInfo.erased = n.toNodeInfo.erased ∧ m.production.Like n.production := by
  obtain ⟨g, p⟩ := m
  obtain ⟨g', q⟩ := n
  rw [erased_mk, erased_mk] at h
  exact Node.mk.inj h

/-- What is changed beside the productions of two nodes, in the same way in both. -/
theorem Node.erased_withInfo {f g : NodeInfo → NodeInfo}
    (hfg : ∀ i j : NodeInfo, i.erased = j.erased → (f i).erased = (g j).erased) {m n : Node}
    (h : m.erased = n.erased) :
    (Node.mk (f m.toNodeInfo) m.production).erased =
      (Node.mk (g n.toNodeInfo) n.production).erased := by
  obtain ⟨hinfo, hproduction⟩ := erased_inj h
  exact mk_erased (hfg _ _ hinfo) hproduction

/-! ## Spans -/

namespace Span

theorem erased_setAnchor (s : Span) (a : Anchor) (p : Position) :
    (s.setAnchor a p).erased = s.erased.setAnchor a .origin := by
  have hany : (s.erased.anchors.any fun e => decide (e.1 = a)) =
      s.anchors.any fun e => decide (e.1 = a) := by
    rw [erased, List.any_map]
    rfl
  rw [setAnchor, setAnchor, hany]
  split
  · simp only [erased, List.map_map]
    congr 1
    refine List.map_congr_left fun e _ => ?_
    simp only [Function.comp]
    split <;> rfl
  · simp [erased]

/-- Only which anchors there are counts, not where. -/
theorem erased_setAnchors {s t : Span} {ps qs : List (Anchor × Option Position)}
    (hs : s.erased = t.erased)
    (h : ps.map (fun e => (e.1, e.2.isSome)) = qs.map fun e => (e.1, e.2.isSome)) :
    (s.setAnchors ps).erased = (t.setAnchors qs).erased := by
  induction ps generalizing qs s t with
  | nil =>
    rw [List.map_nil, eq_comm, List.map_eq_nil_iff] at h
    rw [h]
    exact hs
  | cons e ps ih =>
    cases qs with
    | nil => cases h
    | cons f qs =>
      obtain ⟨a, p⟩ := e
      obtain ⟨b, q⟩ := f
      rw [List.map_cons, List.map_cons, List.cons.injEq, Prod.mk.injEq] at h
      obtain ⟨⟨hab, hsome⟩, hrest⟩ := h
      have hab : a = b := hab
      subst hab
      cases p with
      | none =>
        cases q with
        | none =>
          show (s.setAnchors ps).erased = (t.setAnchors qs).erased
          exact ih hs hrest
        | some q => cases hsome
      | some p =>
        cases q with
        | none => cases hsome
        | some q =>
          show ((s.setAnchor a p).setAnchors ps).erased = ((t.setAnchor a q).setAnchors qs).erased
          refine ih ?_ hrest
          rw [erased_setAnchor, erased_setAnchor, hs]

end Span

end PhpSyntax
