/-
Two texts that part.

Two texts may have their tokens in common up to a place, and go different ways from there on.
A `Fork` is that place: the first tokens that are different, and what is behind them.  In front
of a fork two streams have the same current token and go to the same next one (`Forked`), and
wherever the first stream comes to as many tokens as are left at the fork, it is there
(`Nears.arrives`).
-/
import PhpSyntax.Proofs.Echo.Step

namespace PhpSyntax

/-- A token that the grammar sees, and takes for what it is. -/
structure Token.IsSeen (t : Token) : Prop where
  kept : t.kind.isTrivia = false
  ne_eof : t.kind ≠ .eof
  same : ∀ o, t.forGrammar o = t

theorem Token.filter_kept {t : Token} (h : t.kind.isTrivia = false) (ts : List Token) :
    (t :: ts).filter (!·.kind.isTrivia) = t :: ts.filter (!·.kind.isTrivia) :=
  List.filter_cons_of_pos (by simp [h])

structure Fork where
  first : Token
  firstAhead : List Token
  second : Token
  secondAhead : List Token
  /-- How many nodes the first run makes in front of the fork that the second does not make. -/
  surplus : Nat
  first_seen : first.IsSeen
  second_seen : second.IsSeen

namespace Fork

variable (F : Fork)

/-- The number of tokens that the grammar sees in the first text from the fork on. -/
def left : Nat := (F.firstAhead.filter (!·.kind.isTrivia)).length + 1

def firstText : String := String.join ((F.first :: F.firstAhead).map Token.text)

def secondText : String := String.join ((F.second :: F.secondAhead).map Token.text)

/-- The same text with the end of the second text for that of the first. -/
def retail (text : String) : String :=
  String.ofList (text.toList.take (text.toList.length - F.firstText.toList.length)) ++ F.secondText

theorem retail_append (text : String) : F.retail (text ++ F.firstText) = text ++ F.secondText := by
  rw [retail, String.toList_append, List.length_append, Nat.add_sub_cancel, List.take_left,
    String.ofList_toList]

/-- What the two texts have in common behind a token of kind `k` does not tell them apart if
that is the last token in common. -/
def Hides (k : TokenKind) : Prop := k.Blurs F.first.kind F.second.kind

def last (o : Options) (t : Token) (ts : List Token) : Token :=
  (t :: (ts.filter (!·.kind.isTrivia)).map (·.forGrammar o)).getLast (List.cons_ne_nil _ _)

theorem last_of_trivia {o : Options} {t : Token} {ts : List Token}
    (h : ts.filter (!·.kind.isTrivia) = []) : last o t ts = t := by
  simp only [last, h, List.map_nil, List.getLast_singleton]

theorem last_cons {o : Options} {t u : Token} {ts us : List Token}
    (h : ts.filter (!·.kind.isTrivia) = u :: us.filter (!·.kind.isTrivia)) :
    last o t ts = last o (u.forGrammar o) us := by
  simp only [last, h, List.map_cons]
  exact List.getLast_cons_cons

/-- Tokens in common are ahead of both streams, and then the tokens from the fork on. -/
inductive Ahead (u v : Stream) : Prop
  | intro (common : List Token) (first : u.ahead = common ++ F.first :: F.firstAhead)
    (second : v.ahead = common ++ F.second :: F.secondAhead)
    (hides : F.Hides (last u.options u.current common).kind)

end Fork

theorem List.filter_dropWhile_not {α : Type} (p : α → Bool) (xs : List α) :
    (xs.dropWhile p).filter (!p ·) = xs.filter (!p ·) := by
  induction xs with
  | nil => rfl
  | cons x xs ih =>
    by_cases hx : p x = true
    · rw [List.dropWhile_cons_of_pos hx, ih, List.filter_cons_of_neg (by simp [hx])]
    · rw [List.dropWhile_cons_of_neg hx]

namespace Stream

variable {F : Fork} {u v : Stream}

/-! ## The next token -/

/-- The tokens to come where one that the grammar sees is behind the tokens in common. -/
theorem upcoming_append {common ts : List Token} {t : Token} (ht : t.kind.isTrivia = false)
    (h : u.ahead = common ++ t :: ts) :
    u.upcoming = common.dropWhile (·.kind.isTrivia) ++ t :: ts := by
  rw [upcoming, h, List.dropWhile_append]
  split
  · next hnone =>
    rw [List.isEmpty_iff.mp hnone, List.nil_append, List.dropWhile_cons_of_neg (by simp [ht])]
  · rfl

/-- Two streams in front of a fork, or at the end of their texts.  No comments are kept, and
errors end the parse. -/
structure Forked (F : Fork) (u v : Stream) : Prop where
  options : v.options = u.options
  strict : u.options.suppressErrors = false
  extractDoc : u.options.extractDoc = false
  source : v.source = u.source
  stop : v.stop = u.stop
  current : v.current = u.current
  prev : v.prev = u.prev
  comments : u.comments = #[] ∧ v.comments = #[]
  place : F.Ahead u v ∨ (u.current.kind = .eof ∧ u.ahead = [] ∧ v.ahead = [])

structure AtFork (F : Fork) (u v : Stream) : Prop where
  options : v.options = u.options
  strict : u.options.suppressErrors = false
  extractDoc : u.options.extractDoc = false
  source : v.source = u.source
  stop : v.stop = u.stop
  first : u.current = F.first
  firstAhead : u.ahead = F.firstAhead
  second : v.current = F.second
  secondAhead : v.ahead = F.secondAhead
  prev : v.prev = u.prev
  comments : u.comments = #[] ∧ v.comments = #[]

theorem advance_silent (hd : u.options.extractDoc = false) (hc : u.comments = #[]) :
    u.advance.comments = #[] := by
  simp only [advance, hd, Bool.false_eq_true, if_false, hc]

/-- No kind of token tells the two streams apart. -/
theorem Forked.peek (h : u.Forked F v) : u.current.kind.Blurs u.peek v.peek := by
  rcases h.place with ⟨common, hfirst, hsecond, hhides⟩ | ⟨_, hu, hv⟩
  · have hup := upcoming_append F.first_seen.kept hfirst
    have hvp := upcoming_append F.second_seen.kept hsecond
    cases hc : common.dropWhile (·.kind.isTrivia) with
    | nil =>
      have hnone : common.filter (!·.kind.isTrivia) = [] := by
        rw [← List.filter_dropWhile_not, hc, List.filter_nil]
      rw [hc] at hup hvp
      rw [Fork.last_of_trivia hnone] at hhides
      simp only [Stream.peek, hup, hvp, List.nil_append, F.first_seen.same, F.second_seen.same]
      exact hhides
    | cons c cs =>
      rw [hc] at hup hvp
      simp only [Stream.peek, hup, hvp, List.cons_append, h.options]
      exact fun _ _ => Iff.rfl
  · simp only [Stream.peek, upcoming, hu, hv]
    exact fun _ _ => Iff.rfl

/-- Where tokens in common are ahead, both streams come to the next of them, or to the fork. -/
theorem forked_of_ahead (hoptions : v.options = u.options)
    (hstrict : u.options.suppressErrors = false) (hdoc : u.options.extractDoc = false)
    (hsource : v.source = u.source) (hstop : v.stop = u.stop)
    (hprev : v.advance.prev = u.advance.prev) (hcomments : u.comments = #[] ∧ v.comments = #[])
    (h : F.Ahead u v) : u.advance.Forked F v.advance ∨ u.advance.AtFork F v.advance := by
  have hcomments : u.advance.comments = #[] ∧ v.advance.comments = #[] :=
    ⟨advance_silent hdoc hcomments.1, advance_silent (hoptions ▸ hdoc) hcomments.2⟩
  obtain ⟨common, hfirst, hsecond, hhides⟩ := h
  have hup := upcoming_append F.first_seen.kept hfirst
  have hvp := upcoming_append F.second_seen.kept hsecond
  cases hc : common.dropWhile (·.kind.isTrivia) with
  | nil =>
    rw [hc] at hup hvp
    refine Or.inr
      { options := hoptions, strict := hstrict, extractDoc := hdoc, source := hsource
        stop := hstop, prev := hprev, comments := hcomments
        first := ?_, firstAhead := ?_, second := ?_, secondAhead := ?_ }
    · simp only [Stream.advance, hup, List.nil_append, F.first_seen.same]
    · simp only [Stream.advance, hup, List.nil_append, List.drop_succ_cons, List.drop_zero]
    · simp only [Stream.advance, hvp, List.nil_append, F.second_seen.same]
    · simp only [Stream.advance, hvp, List.nil_append, List.drop_succ_cons, List.drop_zero]
  | cons c cs =>
    rw [hc] at hup hvp
    have hsome : common.filter (!·.kind.isTrivia) = c :: cs.filter (!·.kind.isTrivia) := by
      rw [← List.filter_dropWhile_not, hc, Token.filter_kept (upcoming_cons hup)]
    refine Or.inl
      { options := hoptions, strict := hstrict, extractDoc := hdoc, source := hsource
        stop := hstop, prev := hprev, comments := hcomments, current := ?_, place := Or.inl ?_ }
    · simp only [Stream.advance, hup, hvp, List.cons_append, hoptions]
    · refine ⟨cs, ?_, ?_, ?_⟩
      · simp only [Stream.advance, hup, List.cons_append, List.drop_succ_cons, List.drop_zero]
      · simp only [Stream.advance, hvp, List.cons_append, List.drop_succ_cons, List.drop_zero]
      · rw [Fork.last_cons hsome] at hhides
        simpa only [Stream.advance, hup, List.cons_append] using hhides

/-- The streams come to the same next token, or to the fork. -/
theorem Forked.advance (h : u.Forked F v) :
    u.advance.Forked F v.advance ∨ u.advance.AtFork F v.advance := by
  have htag : v.atTag = u.atTag := by rw [atTag, atTag, h.current]
  have hprev : v.advance.prev = u.advance.prev := by
    simp only [Stream.advance, htag, h.prev, h.current]
  rcases h.place with hahead | ⟨heof, hu, hv⟩
  · exact forked_of_ahead h.options h.strict h.extractDoc h.source h.stop hprev h.comments hahead
  · refine Or.inl
      { options := h.options, strict := h.strict, extractDoc := h.extractDoc, source := h.source
        stop := h.stop, prev := hprev, current := ?_, place := Or.inr ⟨?_, ?_, ?_⟩
        comments := ⟨advance_silent h.extractDoc h.comments.1,
          advance_silent (h.options ▸ h.extractDoc) h.comments.2⟩ }
    · simp only [Stream.advance, upcoming, hu, hv, List.dropWhile_nil, h.stop]
    · simp only [Stream.advance, upcoming, hu, List.dropWhile_nil]
      rfl
    · simp only [Stream.advance, upcoming, hu, List.dropWhile_nil, List.drop_nil]
    · simp only [Stream.advance, upcoming, hv, List.dropWhile_nil, List.drop_nil]

theorem Forked.halt (h : u.Forked F v) (hk : u.current.kind = .semicolon ∨ F.retail "" = "") :
    v.halt.1 = F.retail u.halt.1 ∧ u.halt.2.Forked F v.halt.2 := by
  constructor
  · rcases h.place with ⟨common, hfirst, hsecond, _⟩ | ⟨heof, hu, hv⟩
    · simp only [Stream.halt, hfirst, hsecond, List.map_append, String.join_append]
      exact (F.retail_append _).symm
    · have hempty := hk.resolve_left fun hk => by
        rw [heof] at hk
        cases hk
      simp only [Stream.halt, hu, hv, List.map_nil, String.join_nil, hempty]
  · exact
      { options := h.options, strict := h.strict, extractDoc := h.extractDoc, source := h.source
        stop := h.stop, current := by simp only [Stream.halt, h.stop], prev := h.prev
        comments := h.comments, place := Or.inr ⟨rfl, rfl, rfl⟩ }

/-! ## Coming to the fork -/

inductive Nears (F : Fork) (u : Stream) : Prop
  | before (common : List Token) (h : u.ahead = common ++ F.first :: F.firstAhead)
    (hk : u.current.kind ≠ .eof)
  | here (h : u.current = F.first) (hahead : u.ahead = F.firstAhead)
  | behind (h : u.rest < F.left)

theorem Nears.goes (h : u.Nears F) (hu : u.Sound) (hg : u.Goes v) : v.Nears F := by
  cases hg with
  | halt => exact .behind (by rw [rest_halt]; exact Nat.succ_pos _)
  | advance hk =>
    have hrest := rest_advance hu hk
    cases h with
    | behind h => exact .behind (by omega)
    | here h hahead =>
      refine .behind ?_
      have hhere : u.rest = F.left := by
        simp only [rest, Token.isEof, hk, decide_false, Bool.false_eq_true, if_false, hahead,
          Fork.left]
        omega
      omega
    | before common hahead _ =>
      have hup := upcoming_append F.first_seen.kept hahead
      cases hc : common.dropWhile (·.kind.isTrivia) with
      | nil =>
        rw [hc] at hup
        refine .here ?_ ?_
        · simp only [Stream.advance, hup, List.nil_append, F.first_seen.same]
        · simp only [Stream.advance, hup, List.nil_append, List.drop_succ_cons, List.drop_zero]
      | cons c cs =>
        rw [hc, List.cons_append] at hup
        refine .before cs ?_ ?_
        · simp only [Stream.advance, hup, List.drop_succ_cons, List.drop_zero]
        · have hahead' : Contiguous u.current.stop u.ahead u.stop := hu.ahead
          obtain ⟨m, _, hm⟩ := contiguous_upcoming hahead'
          rw [hup] at hm
          simp only [Stream.advance, hup]
          exact Token.forGrammar_ne_eof _ hm.2.2.2.1

theorem Nears.leads (h : u.Nears F) (hu : u.Sound) (hl : u.Leads v) : v.Nears F := by
  induction hl with
  | refl => exact h
  | tail huv hvw ih => exact ih.goes (Leads.sound huv hu) hvw

/-- In front of the fork more tokens are left than at it. -/
theorem left_lt_rest {common : List Token} (h : u.ahead = common ++ F.first :: F.firstAhead)
    (hk : u.current.kind ≠ .eof) : F.left < u.rest := by
  rw [rest, Token.isEof, decide_eq_false hk, h, List.filter_append,
    Token.filter_kept F.first_seen.kept, List.length_append, List.length_cons, Fork.left]
  simp only [Bool.false_eq_true, if_false]
  omega

/-- Where as many tokens are left as at the fork, the stream is at the fork. -/
theorem Nears.arrives (h : u.Nears F) (hrest : u.rest = F.left) :
    u.current = F.first ∧ u.ahead = F.firstAhead := by
  cases h with
  | behind h => omega
  | here h hahead => exact ⟨h, hahead⟩
  | before common hahead hk =>
    have hlt := left_lt_rest hahead hk
    omega

/-- Where nothing has been consumed, the stream has not moved. -/
theorem Leads.eq_of_rest (h : u.Leads v) (hu : u.Sound) (hrest : v.rest = u.rest)
    (hpos : 0 < u.rest) : v = u := by
  induction h using Relation.ReflTransGen.head_induction_on with
  | refl => rfl
  | head huw hwv ih =>
    have hle := Leads.rest_le hwv (huw.sound hu)
    cases huw with
    | halt => rw [rest_halt] at hle; omega
    | advance hk =>
      have hadvance := rest_advance hu hk
      omega

theorem AtFork.rest (h : u.AtFork F v) : u.rest = F.left := by
  simp only [Stream.rest, h.first, h.firstAhead, Token.isEof, F.first_seen.ne_eof, decide_false,
    Bool.false_eq_true, if_false, Fork.left]
  omega

theorem Forked.nears (h : u.Forked F v) (hk : u.current.kind ≠ .eof) : u.Nears F := by
  obtain ⟨common, hfirst, _, _⟩ := h.place.resolve_right fun hend => hk hend.1
  exact .before common hfirst hk

theorem Forked.left_lt (h : u.Forked F v) (hk : u.current.kind ≠ .eof) : F.left < u.rest := by
  obtain ⟨common, hfirst, _, _⟩ := h.place.resolve_right fun hend => hk hend.1
  exact left_lt_rest hfirst hk

end Stream
end PhpSyntax
