import PhpSyntax.Proofs.Echo.Run
import PhpSyntax.Proofs.Halt.Stream

namespace PhpSyntax

/-- States of a parse of a text and of one of a longer text. -/
structure ParseState.Longer (source more : String) (s t : ParseState) : Prop where
  stream : s.stream.Longer source more t.stream
  errors : t.errors = s.errors
  trivia : t.trivia = s.trivia
  nextId : t.nextId = s.nextId
  openNodes : t.openNodes = s.openNodes
  namespaceDepth : t.namespaceDepth = s.namespaceDepth

namespace Echo

def longer (source more : String) : Echo where
  Index := Unit
  order := PUnit.instLinearOrder.toPartialOrder.toPreorder
  renumber := fun _ id => id
  place := Position.carried source more
  hear := id
  trim := id
  tail := (· ++ more)
  limit := some fun u => u.prev.offset < (Position.origin.advance source).offset
  States := fun _ => ParseState.Longer source more

end Echo

namespace ParseState.Longer

variable {source more : String} {s t : ParseState}

/-- A run that can be followed has not consumed the semicolon. -/
theorem isOpen_iff {u : Stream} :
    (Echo.longer source more).IsOpen u ↔
      u.prev.offset < (Position.origin.advance source).offset := by
  constructor
  · intro hopen
    exact hopen _ rfl
  · intro hlt P hP
    cases hP
    exact hlt

theorem strict (h : Longer source more s t) : s.tolerates = false := h.stream.of.mode

theorem tolerates (h : Longer source more s t) : t.tolerates = s.tolerates :=
  congrArg Options.suppressErrors h.stream.options

theorem hasUnread (h : Longer source more s t) : t.hasUnread = s.hasUnread := by
  rw [ParseState.hasUnread, h.trivia, h.stream.comments]
  rfl

theorem advance (h : Longer source more s t)
    (hopen : (Echo.longer source more).IsOpen s.advance.stream) :
    Longer source more s.advance t.advance :=
  ⟨h.stream.advance (isOpen_iff.mp hopen), h.errors, h.trivia, h.nextId, h.openNodes,
    h.namespaceDepth⟩

theorem openNode (h : Longer source more s t) :
    t.openNode.1 = (Echo.longer source more).opened s.openNode.1 ∧
      Longer source more s.openNode.2 t.openNode.2 := by
  have hlead : t.trivia.lead t.stream.comments = s.trivia.lead s.stream.comments := by
    rw [h.trivia, h.stream.comments]
  constructor
  · show Opened.mk t.stream.current.start (t.trivia.lead t.stream.comments).1 =
      ⟨s.stream.current.start.carried source more, (s.trivia.lead s.stream.comments).1⟩
    rw [h.stream.start, hlead]
  · exact ⟨h.stream, h.errors, congrArg Prod.snd hlead, h.nextId, congrArg (· + 1) h.openNodes,
      h.namespaceDepth⟩

/-- The boundary is in front of the end in both texts, so a node ends at the same place. -/
theorem finishNode (h : Longer source more s t) (o : Opened) :
    Longer source more (s.finishNode o).2
        (t.finishNode ((Echo.longer source more).opened o)).2 ∧
      (Echo.longer source more).info () (s.finishNode o).1 =
        (t.finishNode ((Echo.longer source more).opened o)).1 := by
  let read (s : ParseState) :=
    s.trivia.trail s.stream.comments s.nextId s.stream.prev s.stream.current.isEof
  let stop (start prev : Position) : Position :=
    if start.offset ≤ prev.offset then prev else start
  let start := o.start.carried source more
  have hread : read t = read s := by
    simp only [read, h.trivia, h.stream.comments, h.nextId, h.stream.prev, h.stream.isEof]
  have hstop : stop start t.stream.prev = (stop o.start s.stream.prev).carried source more := by
    simp only [stop, start, h.stream.prev, Position.carried_le_iff h.stream.prev_lt]
    split
    · exact (Position.carried_of_lt h.stream.prev_lt).symm
    · rfl
  refine ⟨⟨h.stream, h.errors, congrArg Prod.snd hread, congrArg (· + 1) h.nextId,
    congrArg (· - 1) h.openNodes, h.namespaceDepth⟩, ?_⟩
  show NodeInfo.mk s.nextId (.between start ((stop o.start s.stream.prev).carried source more))
      o.leading (read s).1 =
    NodeInfo.mk t.nextId (.between start (stop start t.stream.prev)) o.leading (read t).1
  rw [hread, hstop, h.nextId]

theorem halt (h : Longer source more s t) (hk : s.kind = .semicolon ∨ "" ++ more = "") :
    t.stream.halt.1 = s.stream.halt.1 ++ more ∧ Longer source more s.halt t.halt :=
  have hhalt := h.stream.halt hk
  ⟨hhalt.1, hhalt.2, h.errors, h.trivia, h.nextId, h.openNodes, h.namespaceDepth⟩

end ParseState.Longer

open ParseState.Longer

instance (source more : String) : (Echo.longer source more).Lawful where
  hear_nil := rfl
  hear_append := fun _ _ => rfl
  isOpen_of_leads := fun h hu hv =>
    isOpen_iff.mpr (Nat.lt_of_le_of_lt (h.prev_le hu) (isOpen_iff.mp hv))
  trim_of_isCase := fun _ _ _ => rfl
  kind := fun h => h.stream.kind
  text := fun h => h.stream.text
  peek := fun {w s t} h j hj => by
    have hk : s.kind ≠ .semicolon := by
      intro hk
      rw [hk] at hj
      cases hj
    rw [h.stream.peek hk]
  php7 := fun h => congrArg Options.php7 h.stream.options
  php74 := fun h => congrArg Options.php74 h.stream.options
  tolerates := tolerates
  namespaceDepth := ParseState.Longer.namespaceDepth
  start := fun h => h.stream.start
  offset_iff := fun {w s t} h hk p => by
    rcases h.stream.place with hplace | hplace
    · have hcurrent : t.offset = s.offset := by
        rw [ParseState.offset, hplace.current]
        rfl
      rw [hcurrent]
      exact Position.offset_carried_iff (hplace.start_lt h.stream.of)
    · exact absurd hplace.kind hk
  prev := fun h => h.stream.prev
  textBetween := fun h p => h.stream.textBetween p
  advance := advance
  openNode := openNode
  openAt := fun h _ _ =>
    ⟨h.stream, h.errors, h.trivia, h.nextId, congrArg (· + 1) h.openNodes, h.namespaceDepth⟩
  finishNode := fun h o => ⟨(), le_rfl, (h.finishNode o).1, fun _ _ => (h.finishNode o).2⟩
  abandon := fun h _ _ _ _ =>
    ⟨h.stream, h.errors, h.trivia, h.nextId, congrArg (· - 1) h.openNodes, h.namespaceDepth⟩
  record := fun h ht => absurd (h.strict.symm.trans ht) Bool.false_ne_true
  tail_empty := fun h ht => absurd (h.strict.symm.trans ht) Bool.false_ne_true
  fault := fun _ hb => absurd hb (Option.some_ne_none _)
  nest := fun h f =>
    ⟨h.stream, h.errors, h.trivia, h.nextId, h.openNodes, congrArg f h.namespaceDepth⟩
  halt := halt
  alone := fun {w s t} h => by
    have hsame : t.hasUnread = s.hasUnread := h.hasUnread
    rw [hsame]
    cases s.hasUnread with
    | false => exact .inl ⟨rfl, rfl⟩
    | true => exact .inr (.inl ⟨rfl, rfl, fun _ => rfl⟩)

end PhpSyntax
