/-
Looking ahead is invisible.

Where a token is pulled ahead of its time, what was passed on the way to it is kept apart and
told when the reader moves on.  That is what the reader would have been told without looking
ahead, since pulling adds to the comments and the log that it is given (`Scanner.pull_eq`).  So
a reader that has looked ahead does whatever the same reader does that has not, and the
operations of a run without those that look ahead come to the same (`peeks_invisible`).

A reader behind its first token has the same runs as the stream of the same text, as long as
nothing is read behind a halt (`Reader.trace_eq`).
-/
import PhpSyntax.Proofs.Stream.Order
import PhpSyntax.Stream.Reader

namespace PhpSyntax

variable {o : Options} {s : Scanner} {r : Reader}

/-! ## Pulling -/

namespace Scanner

theorem next_endPosition (s : Scanner) : s.next.2.endPosition = s.endPosition := by
  by_cases hs : s.ahead = []
  · rw [next_nil hs]
    rfl
  · obtain ⟨t, s', hn, _, _, _, hstop, hpos, _, hahead⟩ := next_cons hs
    rw [hn, endPosition, endPosition, hahead, Position.after_append, hpos, hstop, Position.advance]

def trivia (s : Scanner) : List Token := s.tokens.takeWhile (·.kind.isTrivia)

def upcoming (s : Scanner) : List Token := s.tokens.dropWhile (·.kind.isTrivia)

theorem pull_of_none {s' : Scanner} (h : s.next = (none, s')) (comments : Array Comment)
    (log : Option (Array LogEntry)) :
    s.pull o comments log = ⟨Token.eof s'.position, s', comments, log⟩ := by
  rw [pull]
  split
  · next hn =>
    rw [h] at hn
    cases hn
    rfl
  · next hn =>
    rw [h] at hn
    cases hn

theorem pull_of_some {s' : Scanner} {t : Token} (h : s.next = (some t, s'))
    (comments : Array Comment) (log : Option (Array LogEntry)) :
    s.pull o comments log =
      if t.kind.isTrivia then
        s'.pull o (if o.extractDoc then comments ++ (Comment.ofToken? t).toArray else comments)
          (log.map (·.push (.ofToken t)))
      else ⟨t.forGrammar o, s', comments, log.map (·.push (.ofToken t))⟩ := by
  rw [pull]
  split
  · next hn =>
    rw [h] at hn
    cases hn
  · next hn =>
    rw [h] at hn
    cases hn
    rfl

theorem ahead_of_none {s' : Scanner} (h : s.next = (none, s')) :
    s.ahead = [] ∧ s' = { s with mode := .html } := by
  by_cases hs : s.ahead = []
  · rw [next_nil hs] at h
    cases h
    exact ⟨hs, rfl⟩
  · obtain ⟨t, q, hq, _⟩ := next_cons hs
    rw [h] at hq
    cases hq

theorem gap_of_none {s' : Scanner} (h : s.next = (none, s')) :
    s.trivia = [] ∧ s.upcoming = [] ∧ s'.tokens = [] ∧ s.endPosition = s'.position := by
  obtain ⟨hahead, rfl⟩ := ahead_of_none h
  refine ⟨by rw [trivia, tokens_of_none h, List.takeWhile_nil],
    by rw [upcoming, tokens_of_none h, List.dropWhile_nil], tokens_of_none (next_nil hahead), ?_⟩
  rw [endPosition, hahead]
  rfl

theorem gap_of_trivia {s' : Scanner} {t : Token} (h : s.next = (some t, s'))
    (ht : t.kind.isTrivia = true) : s.trivia = t :: s'.trivia ∧ s.upcoming = s'.upcoming := by
  simp [trivia, upcoming, tokens_of_some h, ht]

theorem gap_of_token {s' : Scanner} {t : Token} (h : s.next = (some t, s'))
    (ht : t.kind.isTrivia = false) : s.trivia = [] ∧ s.upcoming = t :: s'.tokens := by
  simp [trivia, upcoming, tokens_of_some h, ht]

/-- What is pulled out of a scanner: the next token of the grammar.  What is passed is added to
what the scanner is given. -/
theorem pull_eq (o : Options) (s : Scanner) : ∃ q : Scanner,
    q.tokens = s.upcoming.drop 1 ∧ q.source = s.source ∧ q.endPosition = s.endPosition ∧
      (s.Sound → q.Sound) ∧ ∀ comments log, s.pull o comments log =
        { token := match s.upcoming with
            | [] => Token.eof s.endPosition
            | t :: _ => t.forGrammar o
          scanner := q
          comments :=
            if o.extractDoc then comments ++ s.trivia.filterMap Comment.ofToken? else comments
          log := log.map (· ++ (s.trivia ++ s.upcoming.take 1).map LogEntry.ofToken) } := by
  cases hn : s.next with
  | mk t s' =>
    have hsource : s'.source = s.source := by rw [← next_source s, hn]
    have hend : s'.endPosition = s.endPosition := by rw [← next_endPosition s, hn]
    have hsound (h : s.Sound) : s'.Sound := by
      have hs := next_sound h
      rwa [hn] at hs
    cases t with
    | none =>
      obtain ⟨htrivia, hupcoming, htokens, hstop⟩ := gap_of_none hn
      refine ⟨s', by rw [hupcoming, htokens]; rfl, hsource, hend, hsound, fun comments log => ?_⟩
      rw [pull_of_none hn, htrivia, hupcoming, hstop]
      simp
    | some t =>
      have hlt := next_ahead_length hn
      cases ht : t.kind.isTrivia with
      | true =>
        obtain ⟨htrivia, hupcoming⟩ := gap_of_trivia hn ht
        obtain ⟨q, hq, hsource', hend', hsound', hpull⟩ := pull_eq o s'
        refine ⟨q, hupcoming ▸ hq, hsource'.trans hsource, hend'.trans hend,
          fun h => hsound' (hsound h), fun comments log => ?_⟩
        have hcomments : comments ++ (Comment.ofToken? t).toArray ++
            s'.trivia.filterMap Comment.ofToken? =
              comments ++ (t :: s'.trivia).filterMap Comment.ofToken? := by
          cases hc : Comment.ofToken? t <;> simp [hc]
        rw [pull_of_some hn, ht, if_pos rfl, hpull, htrivia, hupcoming, hend]
        cases log <;> cases ho : o.extractDoc <;> simp [hcomments]
      | false =>
        obtain ⟨htrivia, hupcoming⟩ := gap_of_token hn ht
        refine ⟨s', by rw [hupcoming]; rfl, hsource, hend, hsound, fun comments log => ?_⟩
        rw [pull_of_some hn, ht, if_neg Bool.false_ne_true, htrivia, hupcoming]
        simp
termination_by s.ahead.length

end Scanner

/-! ## Looking ahead -/

theorem append_toArray {α : Type} (xs : Array α) (ys : List α) : xs ++ ys.toArray = xs ++ ys := by
  apply Array.ext'
  rw [Array.toList_append, Array.toList_appendList]

namespace Reader

theorem peek_of_some {ahead : Lookahead} (h : r.lookahead = some ahead) :
    r.peek = (ahead.token.kind, r) := by
  rw [peek, h]

theorem peek_of_none (h : r.lookahead = none) :
    r.peek =
      ((r.scanner.pull r.options #[] (r.log.map fun _ => #[])).token.kind,
        { r with
          scanner := (r.scanner.pull r.options #[] (r.log.map fun _ => #[])).scanner
          lookahead := some
            ⟨(r.scanner.pull r.options #[] (r.log.map fun _ => #[])).token,
              (r.scanner.pull r.options #[] (r.log.map fun _ => #[])).comments,
              (r.scanner.pull r.options #[] (r.log.map fun _ => #[])).log.getD #[]⟩ }) := by
  rw [peek, h]

/-- Looking ahead once more finds what has been found. -/
theorem peek_peek (r : Reader) : r.peek.2.peek = r.peek := by
  cases h : r.lookahead with
  | some ahead => rw [peek_of_some h, peek_of_some h]
  | none =>
    rw [peek_of_none h]
    rfl

theorem view_peek (r : Reader) : r.peek.2.view = r.view := by
  cases h : r.lookahead with
  | some ahead => rw [peek_of_some h]
  | none =>
    rw [peek_of_none h]
    rfl

theorem peek_kind (r : Reader) : r.peek.1 = r.advance.current.kind := by
  cases h : r.lookahead with
  | some ahead => rw [peek_of_some h, advance, h]
  | none =>
    obtain ⟨q, _, _, _, _, hpull⟩ := r.scanner.pull_eq r.options
    rw [peek_of_none h, advance, h]
    simp only [hpull]

/-- A token that has been pulled ahead of its time is the next one, and what was passed on the
way to it is told as it would have been. -/
theorem advance_peek (r : Reader) : r.peek.2.advance = r.advance := by
  cases h : r.lookahead with
  | some ahead => rw [peek_of_some h]
  | none =>
    obtain ⟨q, _, _, _, _, hpull⟩ := r.scanner.pull_eq r.options
    rw [peek_of_none h, advance, advance, h]
    simp only [hpull]
    -- What was put behind nothing is put behind what is there already.
    cases r.options.extractDoc <;> cases r.log <;> simp [boundary, atTag, append_toArray]

/-- What halting comes to does not depend on where the scanner is. -/
theorem halt_peek (r : Reader) : r.peek.2.halt = r.halt := by
  cases h : r.lookahead with
  | some ahead => rw [peek_of_some h]
  | none =>
    obtain ⟨q, _, hsource, hend, _, hpull⟩ := r.scanner.pull_eq r.options
    rw [peek_of_none h, halt, halt]
    simp only [hpull, hsource, hend]

theorem finish_peek (r : Reader) : r.peek.2.finish = r.finish.peek.2 := by
  cases h : r.lookahead with
  | some ahead => rw [peek_of_some h, peek_of_some (show r.finish.lookahead = some ahead from h)]
  | none =>
    obtain ⟨q, _, _, hend, _, hpull⟩ := r.scanner.pull_eq r.options
    rw [peek_of_none h, peek_of_none (show r.finish.lookahead = none from h), finish]
    simp only [finish, hpull, hend]

/-! ## Runs -/

theorem trace_cons (r : Reader) (op : StreamOp) (ops : List StreamOp) :
    r.trace (op :: ops) =
      ⟨op, (r.perform op).1, (r.perform op).2.view⟩ :: (r.perform op).2.trace ops := rfl

/-- A reader that has looked ahead does what it does without that. -/
theorem trace_peek (r : Reader) (ops : List StreamOp) : r.peek.2.trace ops = r.trace ops := by
  induction ops generalizing r with
  | nil => rfl
  | cons op ops ih =>
    rw [trace_cons, trace_cons]
    cases op with
    | advance => simp only [perform, advance_peek]
    | halt => simp only [perform, halt_peek]
    | peek => simp only [perform, peek_peek]
    | finish => simp only [perform, finish_peek, view_peek, ih]

/-- The operations of a run that do not look ahead come to what they come to without the
others. -/
theorem trace_erase (r : Reader) (ops : List StreamOp) :
    (r.trace ops).filter (·.op ≠ .peek) = r.trace (ops.filter (· ≠ .peek)) := by
  induction ops generalizing r with
  | nil => rfl
  | cons op ops ih =>
    by_cases hop : op = .peek
    · subst hop
      rw [trace_cons, List.filter_cons_of_neg (by simp), List.filter_cons_of_neg (by simp), ← ih r]
      exact congrArg (List.filter _) (trace_peek r ops)
    · rw [List.filter_cons_of_pos (by simpa using hop), trace_cons, trace_cons,
        List.filter_cons_of_pos (by simpa using hop), ih]

end Reader

/-- Looking ahead is invisible.  In every run on every text, the operations that do not look
ahead find the same current token, boundary, comments and log, and answer the same, as in the
run without those that do.  Whenever a reader looks ahead, it finds the kind of the token that
it would move on to. -/
theorem peeks_invisible (source : String) (o : Options) (ops : List StreamOp) :
    ((Reader.ofSource source o).trace ops).filter (·.op ≠ .peek) =
        (Reader.ofSource source o).trace (ops.filter (· ≠ .peek)) ∧
      ∀ before : List StreamOp, ((Reader.ofSource source o).after before).peek.1 =
        ((Reader.ofSource source o).after before).advance.current.kind :=
  ⟨Reader.trace_erase _ ops, fun _ => Reader.peek_kind _⟩

/-! ## Readers and streams -/

theorem Stream.trace_cons (s : Stream) (op : StreamOp) (ops : List StreamOp) :
    s.trace (op :: ops) =
      ⟨op, (s.perform op).1, (s.perform op).2.view⟩ :: (s.perform op).2.trace ops := rfl

/-- The characters behind those of a text. -/
theorem behindBytes?_append (cs ds : List Char) :
    behindBytes? (String.ofList cs).utf8ByteSize (cs ++ ds) = some ds := by
  induction cs with
  | nil =>
    show behindBytes? 0 ds = some ds
    rw [behindBytes?]
  | cons c cs ih =>
    have hsize : (String.ofList (c :: cs)).utf8ByteSize =
        c.utf8Size + (String.ofList cs).utf8ByteSize := by
      rw [String.ofList_cons, String.utf8ByteSize_append, String.utf8ByteSize_singleton]
    have hc := c.utf8Size_pos
    obtain ⟨n, hn⟩ : ∃ n, c.utf8Size + (String.ofList cs).utf8ByteSize = n + 1 :=
      ⟨c.utf8Size + (String.ofList cs).utf8ByteSize - 1, by omega⟩
    have hrest : n + 1 - c.utf8Size = (String.ofList cs).utf8ByteSize := by omega
    rw [hsize, hn, List.cons_append, behindBytes?, if_pos (by omega), hrest, ih]

/-- A reader that has not looked ahead, and the stream at the same place. -/
structure Reader.Mirrors (r : Reader) (s : Stream) : Prop where
  options : s.options = r.options
  view : s.view = r.view
  lookahead : r.lookahead = none
  ahead : s.ahead = r.scanner.tokens
  stop : s.stop = r.scanner.endPosition
  sound : r.scanner.Sound
  place : r.current.stop = r.scanner.position

/-- The same behind the first token: the current token is that of the end only there. -/
structure Reader.Reads (r : Reader) (s : Stream) : Prop extends r.Mirrors s where
  atEnd : r.current.kind = .eof → r.scanner.ahead = []

namespace Reader.Mirrors

variable {st : Stream}

theorem fields (h : r.Mirrors st) : st.current = r.current ∧ st.prev = r.prev ∧
    st.comments = r.comments ∧ st.log = r.log := StreamView.mk.inj h.view

theorem upcoming (h : r.Mirrors st) : st.upcoming = r.scanner.upcoming := by
  rw [Stream.upcoming, h.ahead]
  rfl

theorem trivia (h : r.Mirrors st) : st.trivia = r.scanner.trivia := by
  rw [Stream.trivia, h.ahead]
  rfl

/-- Both move on to the same token. -/
theorem advance (h : r.Mirrors st) : r.advance.Reads st.advance := by
  obtain ⟨q, htokens, _, hend, hsound, hpull⟩ := r.scanner.pull_eq r.options
  obtain ⟨hcurrent, hprev, hcomments, hlog⟩ := h.fields
  have hcontig : Contiguous r.scanner.position st.ahead st.stop := by
    rw [h.ahead, h.stop]
    exact r.scanner.tokens_contiguous
  have hbehind : Contiguous q.position q.tokens st.stop := by
    rw [h.stop, ← hend]
    exact q.tokens_contiguous
  have hboundary : r.boundary = if st.atTag then st.prev else st.current.stop := by
    rw [boundary, atTag, Stream.atTag, hcurrent, hprev]
  obtain ⟨m, _, hupcoming⟩ := Stream.contiguous_upcoming hcontig
  rw [h.upcoming] at hupcoming
  rw [Reader.advance, h.lookahead]
  simp only [hpull]
  refine
    { options := h.options, view := ?_, lookahead := rfl, ahead := ?_, stop := h.stop.trans hend.symm
      sound := hsound h.sound, place := ?_, atEnd := ?_ }
  · cases hu : r.scanner.upcoming <;>
      simp only [Stream.view, Reader.view, Stream.advance, h.upcoming, hu, h.trivia, h.options,
        h.stop, hcomments, hlog, hboundary]
  · simp only [Stream.advance, h.upcoming, htokens]
  · cases hu : r.scanner.upcoming with
    | nil =>
      rw [htokens, hu] at hbehind
      exact (show q.position = st.stop from hbehind).trans h.stop |>.symm
    | cons t ts =>
      rw [hu] at hupcoming
      rw [htokens, hu] at hbehind
      show (t.forGrammar r.options).stop = q.position
      rw [Token.forGrammar_stop]
      exact hupcoming.2.2.2.2.start_eq hbehind
  · intro hk
    cases hu : r.scanner.upcoming with
    | nil =>
      rw [← q.join_tokens, htokens, hu]
      rfl
    | cons t ts =>
      rw [hu] at hupcoming
      rw [show r.scanner.upcoming = t :: ts from hu] at hk
      exact absurd hk (Token.forGrammar_ne_eof r.options hupcoming.2.2.2.1)

theorem peek (h : r.Mirrors st) : r.peek.1 = st.peek := by
  rw [peek_kind, ← st.advance_kind, h.advance.fields.1]

end Reader.Mirrors

namespace Reader.Reads

variable {st : Stream}

theorem finish (h : r.Reads st) : r.finish.Reads st.finish := by
  obtain ⟨hcurrent, _, hcomments, hlog⟩ := h.fields
  refine
    { options := h.options, view := ?_, lookahead := h.lookahead, ahead := h.ahead, stop := h.stop
      sound := h.sound, place := h.place, atEnd := h.atEnd }
  simp only [Stream.view, Reader.view, Stream.finish, Reader.finish, hcurrent, hcomments, hlog,
    h.stop]

/-- Both halt with the same text, at the same place. -/
theorem halt (h : r.Reads st) : r.halt.1 = st.halt.1 ∧ r.halt.2.view = st.halt.2.view := by
  obtain ⟨hcurrent, hprev, hcomments, hlog⟩ := h.fields
  constructor
  · obtain ⟨read, hsource, hposition⟩ := h.sound
    have htext : (st.halt.1).toList = r.scanner.ahead := by
      rw [Stream.halt, h.ahead]
      exact r.scanner.join_tokens
    have hstart : (if r.current.isEof then r.scanner.source.utf8ByteSize
        else r.current.stop.offset) = (String.ofList read).utf8ByteSize := by
      by_cases hk : r.current.kind = .eof
      · rw [Token.isEof, decide_eq_true hk, if_pos rfl]
        rw [h.atEnd hk, List.append_nil] at hsource
        rw [← hsource, String.ofList_toList]
      · rw [Token.isEof, decide_eq_false hk, if_neg Bool.false_ne_true, h.place, hposition,
          Position.offset_after]
        exact Nat.zero_add _
    rw [← String.toList_inj, htext, Reader.halt, hstart, hsource, behindBytes?_append]
    exact String.toList_ofList
  · simp only [Stream.view, Reader.view, Stream.halt, Reader.halt, h.stop, hprev, hcomments, hlog]

end Reader.Reads

namespace Reader

/-- A reader behind a halt, and the stream: nothing is ahead of them. -/
structure Halted (r : Reader) (s : Stream) : Prop where
  view : s.view = r.view
  current : r.current.kind = .eof
  lookahead : r.lookahead = none
  scanner : r.scanner = .ofSource ""
  ahead : s.ahead = []

/-- Nothing is read behind a halt. -/
def orderly : List StreamOp → Bool
  | [] => true
  | .halt :: ops => ops.all fun op => op = .peek || op = .finish
  | _ :: ops => orderly ops

variable {st : Stream}

theorem Reads.halted (h : r.Reads st) : r.halt.2.Halted st.halt.2 where
  view := h.halt.2.symm
  current := rfl
  lookahead := rfl
  scanner := rfl
  ahead := rfl

theorem Halted.peek (h : r.Halted st) : r.peek.1 = st.peek := by
  have hnext : (Scanner.ofSource "").next = (none, .ofSource "") := Scanner.next_nil rfl
  rw [peek_of_none h.lookahead, h.scanner, Scanner.pull_of_none hnext, Stream.peek,
    Stream.upcoming, h.ahead]
  rfl

theorem Halted.finish (h : r.Halted st) : r.finish.Halted st.finish := by
  obtain ⟨hcurrent, _, hcomments, hlog⟩ := StreamView.mk.inj h.view
  have heof : r.current.isEof = true := decide_eq_true h.current
  refine ⟨?_, h.current, h.lookahead, h.scanner, h.ahead⟩
  simp only [Stream.view, Reader.view, Stream.finish, Reader.finish, hcurrent, hcomments, hlog,
    heof, if_true]

/-- Behind a halt both find nothing. -/
theorem Halted.trace_eq (h : r.Halted st) {ops : List StreamOp}
    (hops : ops.all (fun op => op = .peek || op = .finish) = true) :
    r.trace ops = st.trace ops := by
  induction ops generalizing r st with
  | nil => rfl
  | cons op ops ih =>
    rw [List.all_cons, Bool.and_eq_true] at hops
    rw [trace_cons, Stream.trace_cons]
    cases op with
    | peek =>
      simp only [perform, Stream.perform, h.peek, view_peek, h.view, trace_peek, ih h hops.2]
    | finish =>
      simp only [perform, Stream.perform, h.finish.view, ih h.finish hops.2]
    | advance => simp at hops
    | halt => simp at hops

/-- As long as nothing is read behind a halt, the reader does what the stream does. -/
theorem Reads.trace_eq (h : r.Reads st) {ops : List StreamOp} (hops : orderly ops = true) :
    r.trace ops = st.trace ops := by
  induction ops generalizing r st with
  | nil => rfl
  | cons op ops ih =>
    rw [trace_cons, Stream.trace_cons]
    cases op with
    | advance => simp only [perform, Stream.perform, h.advance.view, ih h.advance hops]
    | peek => simp only [perform, Stream.perform, h.peek, view_peek, h.view, trace_peek, ih h hops]
    | finish => simp only [perform, Stream.perform, h.finish.view, ih h.finish hops]
    | halt => simp only [perform, Stream.perform, h.halt, h.halted.trace_eq hops]

theorem ofSource_mirrors (source : String) (o : Options) :
    (Reader.ofSource source o).Mirrors (Stream.ofSource source o) where
  options := rfl
  view := rfl
  lookahead := rfl
  ahead := rfl
  stop := (Scanner.ofSource_sound source).endPosition.symm
  sound := Scanner.ofSource_sound source
  place := rfl

/-- Behind the first token of a text, a reader does what the stream of the text does, as long as
nothing is read behind a halt. -/
theorem trace_eq (source : String) (o : Options) {ops : List StreamOp} (h : orderly ops = true) :
    (Reader.ofSource source o).advance.trace ops = (Stream.ofSource source o).advance.trace ops :=
  (ofSource_mirrors source o).advance.trace_eq h

end Reader
end PhpSyntax
