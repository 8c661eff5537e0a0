/-
The log of tokens and the list of comments.

A stream takes the tokens of its text one after the other, and what it keeps of them is a
function of those that it has taken, the current one included (`Stream.Kept`).  A passage
takes tokens from the front of those that lie ahead, and leaves the others ahead unless the
code ends, which happens once (`Passes.takes`).  So the log and the comments of a program
are those of the front of its text, and what is missing is the text behind the end of the
code.
-/
import PhpSyntax.Proofs.Account.Run

namespace PhpSyntax

/-! ## The ends of the code -/

def Note.tail? : Note → Option String
  | .tail text => some text
  | _ => none

def Program.tails (p : Program) : List String :=
  p.children.filterMap Node.after? ++
    p.tree.flatMap fun n => n.production.scope.filterMap Node.after?

theorem filterMap_tail_eq_zero {e : Notes} (h : ∀ n ∈ e, n.tail? = none) :
    e.filterMap Note.tail? = 0 := by
  refine Multiset.eq_zero_of_forall_notMem fun text htext => ?_
  obtain ⟨n, hn, hsome⟩ := (Multiset.mem_filterMap _ _).mp htext
  rw [h n hn] at hsome
  cases hsome

theorem filterMap_tailsOf (ns : List Node) :
    (tailsOf ns).filterMap Note.tail? = (ns.filterMap Node.after? : Multiset String) := by
  rw [tailsOf, Multiset.filterMap_coe, List.filterMap_map]
  exact congrArg _ List.filterMap_some

/-- The end of the code is answered for where it is listed. -/
theorem Node.filterMap_own (n : Node) :
    n.own.filterMap Note.tail? = (n.production.scope.filterMap after? : Multiset String) := by
  have hbare : n.bare.filterMap Note.tail? = 0 := filterMap_tail_eq_zero fun m hm => by
    rw [(mem_bare.mp hm).2]
    rfl
  have hgates : (Gate.notesOf n.production.gates).filterMap Note.tail? = 0 :=
    filterMap_tail_eq_zero fun m hm => by
      obtain ⟨g, _, rfl⟩ := List.mem_map.mp hm
      rfl
  have hblock : ((n.production.block?.map (Note.block · n.span.stop.offset)).toList :
      Notes).filterMap Note.tail? = 0 := by
    cases n.production.block? <;> rfl
  rw [own, Production.extras, Multiset.filterMap_add, Multiset.filterMap_add,
    Multiset.filterMap_add, hbare, hgates, hblock, filterMap_tailsOf, zero_add, zero_add, zero_add]

/-- The texts behind the ends of the code are the only ones that a program notes. -/
theorem Program.filterMap_notes (p : Program) :
    p.notes.filterMap Note.tail? = p.tails := by
  rw [notes, Multiset.filterMap_add, notesOf, Multiset.filterMap_bind, filterMap_tailsOf, tails,
    add_comm, ← Multiset.coe_add]
  congr 1
  simp only [Node.filterMap_own]
  exact Multiset.coe_bind _ _

/-! ## What is kept of tokens -/

theorem Comment.ofToken?_of_isTrivia {t : Token} (h : t.kind.isTrivia = false) :
    ofToken? t = none := by
  unfold ofToken?
  split
  · next hk =>
    rw [hk] at h
    cases h
  · next hk =>
    rw [hk] at h
    cases h
  · rfl

namespace Stream

structure Kept (s : Stream) (taken : List Token) : Prop where
  log : s.log =
    if s.options.extractTokens then some (taken.map LogEntry.ofToken).toArray else none
  comments : s.options.extractDoc = true →
    s.comments = (taken.filterMap Comment.ofToken?).toArray

def passed (s : Stream) : List Token := s.trivia ++ s.upcoming.take 1

theorem passed_append (s : Stream) : s.passed ++ s.advance.ahead = s.ahead := by
  show s.trivia ++ s.upcoming.take 1 ++ s.upcoming.drop 1 = s.ahead
  rw [List.append_assoc, List.take_append_drop, trivia_append_upcoming]

/-- All comments are trivia. -/
theorem filterMap_passed (s : Stream) :
    s.passed.filterMap Comment.ofToken? = s.trivia.filterMap Comment.ofToken? := by
  have hnext : (s.upcoming.take 1).filterMap Comment.ofToken? = [] := by
    cases hu : s.upcoming with
    | nil => rfl
    | cons t ts => simp [Comment.ofToken?_of_isTrivia (upcoming_cons hu)]
  rw [passed, List.filterMap_append, hnext, List.append_nil]

variable {s : Stream} {taken : List Token}

theorem Kept.advance (h : s.Kept taken) : s.advance.Kept (taken ++ s.passed) where
  log := by
    have hnext : s.advance.log = s.log.map fun log : Array LogEntry =>
      log ++ s.passed.map LogEntry.ofToken := rfl
    rw [hnext, h.log, List.map_append, ← List.toArray_appendList]
    show _ = if s.options.extractTokens then _ else none
    split <;> rfl
  comments := fun ho => by
    have hnext : s.advance.comments = s.comments ++ s.trivia.filterMap Comment.ofToken? := if_pos ho
    rw [hnext, h.comments ho, List.filterMap_append, filterMap_passed, List.toArray_appendList]

theorem Kept.halt (h : s.Kept taken) : s.halt.2.Kept taken := ⟨h.log, h.comments⟩

theorem ofSource_kept (source : String) (o : Options) : (ofSource source o).Kept [] :=
  ⟨rfl, fun _ => rfl⟩

end Stream

/-! ## What a passage takes -/

/-- The tokens in front are taken.  The others are still ahead, or they lie behind the end of
the code, and their text is noted. -/
def Stream.Takes (s t : Stream) (taken : List Token) (e : Notes) : Prop :=
  ∃ more rest, t.Kept (taken ++ more) ∧ more ++ rest = s.ahead ∧
    (rest = t.ahead ∧ e.filterMap Note.tail? = 0 ∨
      t.current.kind = .eof ∧ e.filterMap Note.tail? = {String.join (rest.map Token.text)})

namespace Stream.Kept

variable {s : Stream} {taken : List Token} {e : Notes}

theorem takes_nothing (hs : s.Kept taken) (he : e.filterMap Note.tail? = 0) :
    s.Takes s taken e :=
  ⟨[], s.ahead, by rwa [List.append_nil], rfl, Or.inl ⟨rfl, he⟩⟩

theorem takes_next (hs : s.Kept taken) (he : e.filterMap Note.tail? = 0) :
    s.Takes s.advance taken e :=
  ⟨s.passed, s.advance.ahead, hs.advance, s.passed_append, Or.inl ⟨rfl, he⟩⟩

end Stream.Kept

namespace Passes

variable {x : Text} {s t : Stream} {e : Notes} {taken : List Token}

/-- Behind the end of the code there is nothing more to note of it. -/
theorem of_eof (h : Passes x s e t) (hk : s.current.kind = .eof) :
    t = s ∧ e.filterMap Note.tail? = 0 := by
  induction h with
  | refl => exact ⟨rfl, rfl⟩
  | trans _ _ ih ih' =>
    obtain ⟨rfl, he⟩ := ih hk
    obtain ⟨rfl, hf⟩ := ih' hk
    rw [Multiset.filterMap_add, he, hf]
    exact ⟨rfl, rfl⟩
  | mark hne | skip hne | halt _ hne => exact absurd hk hne
  | leaf hl => exact absurd hk (TokenKind.ne_eof_of_isLeaf hl.isLeaf)
  | free | gate => exact ⟨rfl, rfl⟩
  | quote _ _ _ ih => exact ⟨(ih hk).1, rfl⟩

theorem takes (h : Passes x s e t) (hs : s.Kept taken) : s.Takes t taken e := by
  induction h generalizing taken with
  | refl | free | gate => exact hs.takes_nothing rfl
  | mark | leaf | skip => exact hs.takes_next rfl
  | trans _ h' ih ih' =>
    obtain ⟨more, rest, ht, hahead, ⟨rfl, he⟩ | ⟨hk, he⟩⟩ := ih hs
    · obtain ⟨more', rest', hu, hahead', hf⟩ := ih' ht
      refine ⟨more ++ more', rest', by rwa [← List.append_assoc], ?_, ?_⟩
      · rw [List.append_assoc, hahead', hahead]
      · rwa [Multiset.filterMap_add, he, zero_add]
    · obtain ⟨rfl, hf⟩ := h'.of_eof hk
      refine ⟨more, rest, ht, hahead, Or.inr ⟨hk, ?_⟩⟩
      rw [Multiset.filterMap_add, he, hf, add_zero]
  | quote _ he _ ih =>
    have hnone := filterMap_tail_eq_zero fun n hn => by
      obtain ⟨k, rfl, _⟩ := he n hn
      rfl
    obtain ⟨more, rest, ht, hahead, ⟨rfl, _⟩ | ⟨_, hsome⟩⟩ := ih hs
    · exact ⟨more, _, ht, hahead, Or.inl ⟨rfl, rfl⟩⟩
    · rw [hnone] at hsome
      exact absurd hsome.symm (Multiset.singleton_ne_zero _)
  | halt _ _ _ ih =>
    obtain ⟨more, rest, ht, hahead, ⟨rfl, _⟩ | ⟨_, hsome⟩⟩ := ih hs
    · exact ⟨more, _, ht.halt, hahead, Or.inr ⟨rfl, rfl⟩⟩
    · exact absurd hsome.symm (Multiset.singleton_ne_zero _)

end Passes

/-! ## The log and the comments of a program -/

@[simp] theorem Trivia.settle_tokens (t : Trivia) (p : Program) :
    (t.settle p).tokens = p.tokens := by
  unfold settle
  split <;> rfl

namespace ParseState

variable {s : ParseState} {taken : List Token} (root : Opened) (children : List Node)

theorem completed_tokens (h : s.stream.Kept taken) :
    (s.completed root children).tokens =
      if s.stream.options.extractTokens then some (taken.map LogEntry.ofToken) else none := by
  rw [completed, Trivia.settle_tokens]
  show s.stream.log.map Array.toList = _
  rw [h.log]
  split <;> rfl

theorem completed_comments (h : s.stream.Kept taken) :
    (s.completed root children).comments =
      if s.stream.options.extractDoc then some (taken.filterMap Comment.ofToken?) else none := by
  rw [completed, Trivia.settle_comments]
  show (if s.stream.options.extractDoc then some s.stream.comments.toList else none) = _
  split
  · next ho => rw [h.comments ho]
  · rfl

end ParseState

open ParseState in
/-- A program has the entries and the comments of the same tokens, which are all tokens of
the text up to the end of the code. -/
theorem parse_log {source : String} {fileName : Option String} {o : Options} {p : Program}
    (h : parse source fileName o = .ok p) :
    ∃ taken, taken <+: tokenize source ∧
      p.tokens = (if o.extractTokens then some (taken.map LogEntry.ofToken) else none) ∧
      p.comments = (if o.extractDoc then some (taken.filterMap Comment.ofToken?) else none) ∧
      p.tails.length ≤ 1 ∧
      String.join ((taken.map LogEntry.ofToken).map LogEntry.text) ++ String.join p.tails =
        source ∧
      (p.tails = [] → taken = tokenize source) := by
  obtain ⟨s, children, rfl, hk, hpass⟩ := parse_passes h
  have hof := hpass.of (first_of source fileName o)
  have hoptions : s.stream.options = o.effective := hpass.options
  obtain ⟨more, rest, hkept, hahead, hend⟩ :=
    hpass.takes (Stream.ofSource_kept source o.effective).advance
  rw [List.nil_append] at hkept
  have htokens : (Stream.ofSource source o.effective).passed ++ more ++ rest = tokenize source := by
    rw [List.append_assoc, hahead]
    exact Stream.passed_append _
  have htails : (s.completed (root source fileName o) children).tails = [] ∧ rest = [] ∨
      (s.completed (root source fileName o) children).tails =
        [String.join (rest.map Token.text)] := by
    rw [Program.filterMap_notes, Multiset.coe_eq_zero, Multiset.coe_eq_singleton] at hend
    rcases hend with ⟨rfl, hnone⟩ | ⟨_, hsome⟩
    · exact Or.inl ⟨hnone, (hof.sound.atEnd hk).2⟩
    · exact Or.inr hsome
  refine ⟨_, ⟨rest, htokens⟩, ?_, ?_, ?_, ?_, fun hnone => ?_⟩
  · rw [completed_tokens _ _ hkept, hoptions]
    rfl
  · rw [completed_comments _ _ hkept, hoptions]
    rfl
  · rcases htails with ⟨hnone, _⟩ | hsome
    · rw [hnone]
      exact Nat.zero_le _
    · rw [hsome]
      exact Nat.le_refl _
  · have hrest : String.join (s.completed (root source fileName o) children).tails =
        String.join (rest.map Token.text) := by
      rcases htails with ⟨hnone, rfl⟩ | hsome
      · rw [hnone, List.map_nil]
      · rw [hsome, String.join_cons, String.join_nil, String.append_empty]
    have hjoin := join_tokenize source
    rw [← htokens, List.map_append, String.join_append] at hjoin
    rw [List.map_map, hrest]
    exact hjoin
  · rcases htails with ⟨_, rfl⟩ | hsome
    · rwa [List.append_nil] at htokens
    · rw [hnone] at hsome
      cases hsome

/-- A text whose code ends behind a comment, with and without its tokens. -/
theorem parse_log_halted :
    ∃ p, parse "<?php /* a */ __halt_compiler(); b" none
        { extractDoc := true, extractTokens := true } = .ok p ∧
      (∃ taken, taken <+: tokenize "<?php /* a */ __halt_compiler(); b" ∧
        p.tokens = some (taken.map LogEntry.ofToken) ∧
        p.comments = some (taken.filterMap Comment.ofToken?) ∧
        p.tails.length ≤ 1 ∧
        String.join ((taken.map LogEntry.ofToken).map LogEntry.text) ++ String.join p.tails =
          "<?php /* a */ __halt_compiler(); b" ∧
        (p.tails = [] → taken = tokenize "<?php /* a */ __halt_compiler(); b")) ∧
      p.tails = [" b"] ∧ p.comments.map List.length = some 1 := by
  have hrun : ((parse "<?php /* a */ __halt_compiler(); b" none
      { extractDoc := true, extractTokens := true }).toOption.any fun p =>
        p.tails = [" b"] ∧ p.comments.map List.length = some 1) = true := by
    rw [parse_eq, statementsFrom_eq]
    decide +kernel
  obtain ⟨p, hp, hpart⟩ := parse_of_any hrun
  exact ⟨p, hp, parse_log hp, of_decide_eq_true hpart⟩

end PhpSyntax
