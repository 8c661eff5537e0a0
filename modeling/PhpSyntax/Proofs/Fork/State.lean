/-
Parses that part.

In front of a fork of two texts the parse of the second is an echo of the parse of the first:
nodes have the same places there, and identities that differ by the nodes that only the first
parse has made (`Echo.forked`).  So whatever a part of a body yields in the first parse without
coming to the fork, it yields in the second (`Follows`).
-/
import PhpSyntax.Proofs.Echo.Run
import PhpSyntax.Proofs.Fork.Stream
import PhpSyntax.Proofs.Progress.Yields

namespace PhpSyntax

/-- States of two parses in front of a fork of their texts. -/
structure ParseState.Forked (F : Fork) (s t : ParseState) : Prop where
  stream : s.stream.Forked F t.stream
  deferred : s.trivia.deferred = #[] ∧ t.trivia.deferred = #[]
  nextId : s.nextId = t.nextId + F.surplus
  namespaceDepth : t.namespaceDepth = s.namespaceDepth

namespace Echo

def forked (F : Fork) : Echo where
  Index := Unit
  order := PUnit.instLinearOrder.toPartialOrder.toPreorder
  renumber := fun _ id => id - F.surplus
  place := id
  hear := id
  trim := id
  tail := F.retail
  limit := some fun u => F.left < u.rest
  States := fun _ => ParseState.Forked F

end Echo

namespace Fork

variable (F : Fork)

def image : Node → Node := (Echo.forked F).image ()

def Makes (p q : Production Node) : Prop := (Echo.forked F).adjust (p.map F.image) = q

variable {F}

theorem image_mk (info : NodeInfo) (p : Production Node) :
    F.image ⟨info, p⟩ =
      ⟨(Echo.forked F).info () info, (Echo.forked F).adjust (p.map F.image)⟩ :=
  Echo.image_mk (Echo.forked F) () info p

end Fork

variable {F : Fork} {s t u v : ParseState}

namespace ParseState.Forked

theorem kind (h : s.Forked F t) : t.kind = s.kind := congrArg Token.kind h.stream.current

theorem text (h : s.Forked F t) : t.stream.current.text = s.stream.current.text :=
  congrArg Token.text h.stream.current

theorem strict (h : s.Forked F t) : s.tolerates = false := h.stream.strict

theorem tolerates (h : s.Forked F t) : t.tolerates = s.tolerates :=
  congrArg Options.suppressErrors h.stream.options

theorem isOpen_iff {u : Stream} : (Echo.forked F).IsOpen u ↔ F.left < u.rest := by
  constructor
  · intro hopen
    exact hopen _ rfl
  · intro hlt P hP
    cases hP
    exact hlt

theorem hasUnread (h : s.Forked F t) : s.hasUnread = false ∧ t.hasUnread = false := by
  rw [ParseState.hasUnread, ParseState.hasUnread, h.stream.comments.1, h.stream.comments.2,
    Trivia.unread_of_nothing, Trivia.unread_of_nothing]
  exact ⟨rfl, rfl⟩

theorem openNode (h : s.Forked F t) :
    t.openNode.1 = s.openNode.1 ∧ s.openNode.2.Forked F t.openNode.2 := by
  constructor
  · show Opened.mk t.stream.current.start (t.trivia.unread t.stream.comments) =
      ⟨s.stream.current.start, s.trivia.unread s.stream.comments⟩
    rw [h.stream.current, h.stream.comments.1, h.stream.comments.2, Trivia.unread_of_nothing,
      Trivia.unread_of_nothing]
  · exact ⟨h.stream, h.deferred, h.nextId, h.namespaceDepth⟩

end ParseState.Forked

/-- States of two parses, whatever comes next, in which nodes end at the same place. -/
structure ParseState.Beside (F : Fork) (s t : ParseState) : Prop where
  prev : t.stream.prev = s.stream.prev
  comments : s.stream.comments = #[] ∧ t.stream.comments = #[]
  deferred : s.trivia.deferred = #[] ∧ t.trivia.deferred = #[]
  nextId : s.nextId = t.nextId + F.surplus

/-- A node that is finished in both parses has the same place, and no comments. -/
theorem ParseState.Beside.finishNode (h : s.Beside F t) (o : Opened) :
    (s.finishNode o).2.Beside F (t.finishNode o).2 ∧
      (Echo.forked F).info () (s.finishNode o).1 = (t.finishNode o).1 := by
  obtain ⟨hown, hs⟩ := Trivia.trail_of_nothing h.deferred.1 s.nextId s.stream.prev
    s.stream.current.isEof
  obtain ⟨hown', ht⟩ := Trivia.trail_of_nothing h.deferred.2 t.nextId t.stream.prev
    t.stream.current.isEof
  rw [← h.comments.1] at hown hs
  rw [← h.comments.2] at hown' ht
  constructor
  · refine ⟨h.prev, h.comments, ⟨hs, ht⟩, ?_⟩
    show s.nextId + 1 = t.nextId + 1 + F.surplus
    rw [h.nextId, Nat.add_right_comm]
  · show NodeInfo.mk (s.nextId - F.surplus) (.between o.start
        (if o.start.offset ≤ s.stream.prev.offset then s.stream.prev else o.start)) o.leading
        (Prod.fst (Trivia.trail _ _ _ _ _)) =
      NodeInfo.mk t.nextId (.between o.start
        (if o.start.offset ≤ t.stream.prev.offset then t.stream.prev else o.start)) o.leading
        (Prod.fst (Trivia.trail _ _ _ _ _))
    rw [hown, hown', h.prev, h.nextId, Nat.add_sub_cancel]

namespace ParseState.Forked

theorem beside (h : s.Forked F t) : s.Beside F t :=
  ⟨h.stream.prev, h.stream.comments, h.deferred, h.nextId⟩

theorem finishNode (h : s.Forked F t) (o : Opened) :
    (s.finishNode o).2.Forked F (t.finishNode o).2 ∧
      (Echo.forked F).info () (s.finishNode o).1 = (t.finishNode o).1 := by
  obtain ⟨hbeside, hinfo⟩ := h.beside.finishNode o
  exact ⟨⟨h.stream, hbeside.deferred, hbeside.nextId, h.namespaceDepth⟩, hinfo⟩

theorem advance (h : s.Forked F t) (hopen : F.left < s.advance.stream.rest) :
    s.advance.Forked F t.advance := by
  refine ⟨h.stream.advance.resolve_right fun hat => ?_, h.deferred, h.nextId, h.namespaceDepth⟩
  rw [ParseState.advance, hat.rest] at hopen
  exact Nat.lt_irrefl _ hopen

end ParseState.Forked

open ParseState.Forked

instance (F : Fork) : (Echo.forked F).Lawful where
  hear_nil := rfl
  hear_append := fun _ _ => rfl
  isOpen_of_leads := fun h hu hv =>
    isOpen_iff.mpr (Nat.lt_of_lt_of_le (isOpen_iff.mp hv) (h.rest_le hu))
  trim_of_isCase := fun _ _ _ => rfl
  kind := kind
  text := text
  peek := fun h => h.stream.peek
  php7 := fun h => congrArg Options.php7 h.stream.options
  php74 := fun h => congrArg Options.php74 h.stream.options
  tolerates := tolerates
  namespaceDepth := ParseState.Forked.namespaceDepth
  start := fun h => congrArg Token.start h.stream.current
  offset_iff := fun {w s t} h _ p => by
    have hoffset : t.offset = s.offset :=
      congrArg (fun t : Token => t.start.offset) h.stream.current
    rw [hoffset]
    exact Iff.rfl
  prev := fun h => h.stream.prev
  textBetween := fun {w s t} h p => by
    rw [Stream.textBetween, Stream.textBetween, h.stream.source, h.stream.prev]
    rfl
  advance := fun h hopen => h.advance (isOpen_iff.mp hopen)
  openNode := openNode
  openAt := fun h _ _ => ⟨h.stream, h.deferred, h.nextId, h.namespaceDepth⟩
  finishNode := fun h o => ⟨(), le_rfl, (h.finishNode o).1, fun _ _ => (h.finishNode o).2⟩
  abandon := fun h _ _ _ _ => ⟨h.stream, h.deferred, h.nextId, h.namespaceDepth⟩
  record := fun h ht => absurd (h.strict.symm.trans ht) Bool.false_ne_true
  tail_empty := fun h ht => absurd (h.strict.symm.trans ht) Bool.false_ne_true
  fault := fun _ hb => absurd hb (Option.some_ne_none _)
  nest := fun h f => ⟨h.stream, h.deferred, h.nextId, congrArg f h.namespaceDepth⟩
  halt := fun h hk =>
    ⟨(h.stream.halt hk).1, (h.stream.halt hk).2, h.deferred, h.nextId, h.namespaceDepth⟩
  alone := fun h => .inl h.hasUnread

end PhpSyntax
