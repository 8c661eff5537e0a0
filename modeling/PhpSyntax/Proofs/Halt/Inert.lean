/-
Data behind the end of the code.

Where a text ends in the semicolon that ends its code, more text behind it is data: the
program is the same, and the node that ends the code keeps the data (`parse_extended`).  In
strict mode the code ends at the semicolon without consuming it, so the parse of the longer
text follows that of the text to its end, and no node reaches the end of the text.
-/
import PhpSyntax.Proofs.Comment.Attached
import PhpSyntax.Proofs.Halt.Extended
import PhpSyntax.Proofs.Span.Nesting
import PhpSyntax.Proofs.Typing.Tree

namespace PhpSyntax

/-! ## Where the code ends -/

/-- In strict mode the code ends at a semicolon, and the boundary stays in front of it. -/
theorem Passes.prev_lt_stop {x : Text} {s t : Stream} {e : Notes} (h : Passes x s e t)
    (hs : s.Of x) (hx : x.strict = true) (he : e.filterMap Note.tail? ≠ 0) :
    t.current.kind = .eof ∧ t.prev.offset < t.stop.offset := by
  induction h with
  | refl | mark | leaf | free | gate | skip | quote => exact absurd rfl he
  | @trans s t u e f h h' ih ih' =>
    by_cases hnone : e.filterMap Note.tail? = 0
    · rw [Multiset.filterMap_add, hnone, zero_add] at he
      exact ih' (h.of hs) he
    · obtain ⟨hk, hlt⟩ := ih hs hnone
      obtain ⟨rfl, _⟩ := h'.of_eof hk
      exact ⟨hk, hlt⟩
  | @halt s t h _ hm ih =>
    have ht := h.of hs
    have hne : t.current.kind ≠ .eof := by
      rw [hm hx]
      decide
    have hfilled := ht.filled hne
    have hprev := ht.sound.prev_le
    have hahead := ht.sound.ahead.offset_le
    refine ⟨rfl, ?_⟩
    show t.prev.offset < t.stop.offset
    omega

section

variable {source : String} {fileName : Option String} {o : Options} {p : Program}

/-- The code ends once. -/
theorem tails_of_mem {after : String} (h : parse source fileName o = .ok p)
    (hafter : after ∈ p.tails) : p.tails = [after] := by
  obtain ⟨s, children, rfl, _, hpass⟩ := parse_passes h
  obtain ⟨_, _, _, _, hend⟩ := hpass.takes (Stream.ofSource_kept source o.effective).advance
  rw [Program.filterMap_notes, Multiset.coe_eq_zero, Multiset.coe_eq_singleton] at hend
  rcases hend with ⟨_, hnone⟩ | ⟨_, hsome⟩
  · rw [hnone] at hafter
    cases hafter
  · rw [hsome] at hafter ⊢
    rw [List.mem_singleton.mp hafter]

namespace ParseState

variable {children : List Node} {s : ParseState}

/-- Where the code ends before the text, the statements do not reach the end of the text. -/
theorem prev_lt_of_tails (h : statementsFrom (first source fileName o) = .ok (children, s))
    (ho : o.suppressErrors = false)
    (htails : (s.completed (root source fileName o) children).tails ≠ []) :
    s.stream.prev.offset < (Position.origin.advance source).offset := by
  have hpass := completed_passes h
  have hfirst := first_of source fileName o
  have hstrict := Options.reads_strict source ho
  have hnotes : (s.completed (root source fileName o) children).notes.filterMap Note.tail? ≠ 0 := by
    rw [Program.filterMap_notes]
    exact fun hzero => htails ((Multiset.coe_eq_zero _).mp hzero)
  have hlt := (hpass.prev_lt_stop hfirst hstrict hnotes).2
  have hstop : s.stream.stop = Position.origin.advance source := (hpass.of hfirst).tokens.stop
  rwa [hstop] at hlt

/-- In strict mode no node reaches the end of the text, if the boundary does not.  A node
that stands for no text starts at a token. -/
theorem span_lt (h : statementsFrom (first source fileName o) = .ok (children, s))
    (ho : o.suppressErrors = false)
    (hprev : s.stream.prev.offset < (Position.origin.advance source).offset) {m : Node}
    (hm : m ∈ Node.walkFrom children) :
    m.span.start.offset < (Position.origin.advance source).offset ∧
      m.span.stop.offset < (Position.origin.advance source).offset := by
  obtain ⟨hmoves, _, _⟩ := ((first_meets source fileName o).ok h).1
  have hstrict : s.tolerates = false := (ParseState.first_tolerates hmoves).trans ho
  have hended : m.outline.Ended s.stream.prev.offset :=
    ((hmoves.placed (first_placed source fileName o)).ended hstrict _
      (Bench.signature_mem_stack hm _)).1
  have hstart : m.span.start.offset ≤ m.span.stop.offset := hended.start_le
  rcases hended.stop_le with hle | ⟨hhollow, hempty⟩
  · have hle : m.span.stop.offset ≤ s.stream.prev.offset := hle
    omega
  · have hempty : m.span.stop.offset = m.span.start.offset := hempty
    have hlt : m.span.start.offset < (Position.origin.advance source).offset :=
      (statementsFrom_wellFormed h m hm).hollow (congrArg not ho) hhollow
    omega

end ParseState

/-! ## Both parses -/

variable {more : String}

/-- The first tokens of both texts are the same. -/
theorem Stream.first_longer (ho : o.suppressErrors = false)
    (hend : EndInSemicolon (tokenize source))
    (hbad : ∀ t ∈ tokenize source, t.kind ≠ .badCharacter) (more : String) :
    (ofSource source o.effective).advance.Longer source more
      (ofSource (source ++ more) o.effective).advance := by
  obtain ⟨behind, htokens, hmore⟩ := tokenize_append hend hbad more
  let u := ofSource source o.effective
  have hahead : EndInSemicolon u.ahead := hend
  have hsame : ofSource (source ++ more) o.effective = u.extended more behind := by
    simp only [ofSource, u, extended, htokens, Position.advance_append]
  have hof : u.advance.Of ⟨source, true⟩ := by
    have hfirst := ParseState.first_of source none o
    rwa [Options.reads, ho] at hfirst
  have hplace : Abreast more u.advance (ofSource (source ++ more) o.effective).advance := by
    rw [hsame, advance_extended hahead]
    exact ⟨semicolon_advance hahead, behind, rfl, hmore⟩
  exact ⟨hof, Nat.zero_lt_of_lt (hplace.start_lt hof), Or.inl hplace⟩

namespace ParseState

theorem first_longer (fileName : Option String) (ho : o.suppressErrors = false)
    (hend : EndInSemicolon (tokenize source))
    (hbad : ∀ t ∈ tokenize source, t.kind ≠ .badCharacter) (more : String) :
    Longer source more (first source fileName o) (first (source ++ more) fileName o) :=
  ⟨Stream.first_longer ho hend hbad more, rfl, rfl, rfl, rfl, rfl⟩

/-- The programs of both parses.  All comments that are left lie in front of either end. -/
theorem Longer.completed {s t : ParseState} (h : Longer source more s t) (hk : s.kind = .eof)
    (hwithin : s.stream.Within) (root : Opened) (hroot : root.start = .origin)
    (children : List Node) :
    t.completed root (children.map (Node.extended more)) =
      (s.completed root children).extended more (Position.origin.advance (source ++ more)) := by
  have hplace : Stream.Ended more s.stream t.stream :=
    h.stream.place.resolve_left fun hplace => hplace.ne_eof h.stream.of.sound hk
  have hstop : s.stream.stop = Position.origin.advance source := h.stream.of.tokens.stop
  let near := Position.origin.advance source
  let far := Position.origin.advance (source ++ more)
  have hprev : s.stream.finish.prev = near :=
    (Stream.finish_prev h.stream.of.sound hk).trans hstop
  have hprev' : t.stream.finish.prev = far := by
    rw [hplace.same, h.stream.stop]
    rfl
  have hle : near.offset ≤ far.offset := by
    show near.offset ≤ (Position.origin.advance (source ++ more)).offset
    rw [Position.advance_append, Position.offset_advance _ more]
    exact Nat.le_add_right _ _
  have hnear : ∀ c ∈ s.stream.comments, c.offset ≤ near.offset := by
    intro c hc
    have hc := hwithin c hc
    rwa [hstop] at hc
  have hfar : ∀ c ∈ s.stream.comments, c.offset ≤ far.offset :=
    fun c hc => Nat.le_trans (hnear c hc) hle
  let read (s : ParseState) :=
    s.trivia.trail s.stream.comments s.nextId s.stream.finish.prev s.stream.current.isEof
  have hread : read t = read s := by
    simp only [read, h.trivia, h.stream.comments, h.nextId, h.stream.isEof, hprev, hprev',
      Trivia.trail, Trivia.takeWhile_unread hnear, Trivia.takeWhile_unread hfar]
  have htrivia : (t.sealed root).2.trivia = (s.sealed root).2.trivia := congrArg Prod.snd hread
  have hsealed (s : ParseState) : (s.sealed root).1 =
      ⟨s.nextId, .between root.start s.stream.finish.prev, root.leading, (read s).1⟩ := by
    show NodeInfo.mk _ (.between _ (if _ then _ else _)) _ _ = _
    rw [if_pos (by rw [hroot]; exact Nat.zero_le _)]
    rfl
  have hunsettled : t.unsettled root (children.map (Node.extended more)) =
      (s.unsettled root children).extended more far := by
    have hlog : t.stream.log = s.stream.log := by rw [h.stream.same]
    rw [unsettled, unsettled, hsealed, hsealed, hread, hprev, hprev', h.nextId, h.errors, hlog,
      h.stream.options, h.stream.comments]
    rfl
  rw [ParseState.completed, ParseState.completed, Trivia.settle_extended, htrivia, hunsettled]

end ParseState

open ParseState in
/-- Data behind the end of the code is inert.  Let a text end in the semicolon that ends its
code, with nothing behind it and without a bad token.  Then in strict mode any text may stand
behind it: the parse succeeds, the node that ends the code keeps that text, the program ends
where the longer text ends, and everything else is as it was. -/
theorem parse_extended (ho : o.suppressErrors = false) (hend : EndInSemicolon (tokenize source))
    (hbad : ∀ t ∈ tokenize source, t.kind ≠ .badCharacter)
    (h : parse source fileName o = .ok p) (htail : "" ∈ p.tails) (more : String) :
    parse (source ++ more) fileName o =
        .ok (p.extended more (Position.origin.advance (source ++ more))) ∧
      (p.extended more (Position.origin.advance (source ++ more))).tails = [more] := by
  constructor
  · obtain ⟨children, s, hs, rfl⟩ := parse_statements h
    have hprev := prev_lt_of_tails hs ho (List.ne_nil_of_mem htail)
    have hechoes := statementsFrom_echoes (E := Echo.longer source more) (w := ())
      (first_longer fileName ho hend hbad more)
    rw [hs] at hechoes
    obtain ⟨_, children', t, ht, _, hchildren, hlonger⟩ :=
      hechoes (Longer.isOpen_iff.mpr hprev)
    have himages : children.map ((Echo.longer source more).image ()) = children' :=
      hchildren () le_rfl
    have hsame : children.map (Node.extended more) = children' := by
      rw [← himages]
      apply List.map_congr_left
      intro n hn
      refine (Node.image_longer fun m hm => span_lt hs ho hprev ?_).symm
      rw [Node.walkFrom_eq]
      exact List.mem_flatMap.mpr ⟨n, hn, hm⟩
    obtain ⟨hmoves, hsound, hk⟩ := ((first_meets source fileName o).ok hs).1
    have hwithin := hmoves.within (Stream.first_sound source _)
      (ParseState.first_within source fileName o)
    rw [parse_eq, ht, ← hsame]
    exact congrArg Except.ok (hlonger.completed hk hwithin _ rfl children)
  · rw [Program.tails_extended, tails_of_mem h htail, List.map_singleton, String.empty_append]

end

/-- Behind the end of the code nothing is opened or closed. -/
theorem parse_extended_open :
    ∃ p, parse "<?php /* a */ __halt_compiler();" none
        { extractDoc := true, extractTokens := true } = .ok p ∧ "" ∈ p.tails ∧
      parse "<?php /* a */ __halt_compiler();?>'<?php /* b" none
          { extractDoc := true, extractTokens := true } =
        .ok (p.extended "?>'<?php /* b" ⟨1, 45, 45⟩) ∧
      (p.extended "?>'<?php /* b" ⟨1, 45, 45⟩).tails = ["?>'<?php /* b"] := by
  let source := "<?php /* a */ __halt_compiler();"
  have hrun : ((parse source none { extractDoc := true, extractTokens := true }).toOption.any
      fun p => "" ∈ p.tails) = true := by
    rw [parse_eq, statementsFrom_eq]
    decide +kernel
  obtain ⟨p, hp, htail⟩ := parse_of_any hrun
  have htail := of_decide_eq_true htail
  have hend : EndInSemicolon (tokenize source) := by decide +kernel
  have hbad : ∀ t ∈ tokenize source, t.kind ≠ .badCharacter := by decide +kernel
  have hlonger := parse_extended rfl hend hbad hp htail "?>'<?php /* b"
  have hstop : Position.origin.advance (source ++ "?>'<?php /* b") = ⟨1, 45, 45⟩ := by
    decide +kernel
  rw [hstop] at hlonger
  exact ⟨p, hp, htail, hlonger⟩

end PhpSyntax
