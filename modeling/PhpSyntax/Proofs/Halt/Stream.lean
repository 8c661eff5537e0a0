import Mathlib.Data.List.TakeWhile
import PhpSyntax.Proofs.Account.Passage
import PhpSyntax.Proofs.Halt.Tokens
import PhpSyntax.Proofs.Stream.Order

namespace PhpSyntax

/-! ## Tokens in front of a semicolon -/

namespace EndInSemicolon

variable {ts us : List Token}

theorem of_suffix (h : EndInSemicolon us) (hs : ts <:+ us) (hne : ts ≠ []) :
    EndInSemicolon ts := by
  obtain ⟨front, rfl⟩ := hs
  obtain ⟨t, hlast, ht⟩ := h
  rw [List.getLast?_append_of_ne_nil front hne] at hlast
  exact ⟨t, hlast, ht⟩

theorem of_singleton {t : Token} (h : EndInSemicolon [t]) : t.kind = .semicolon ∧ t.text = ";" := by
  obtain ⟨u, hlast, hu⟩ := h
  cases hlast
  exact hu

/-- The grammar takes the last semicolon for what it is. -/
theorem forGrammar {t : Token} (o : Options) (h : EndInSemicolon (t :: ts)) :
    EndInSemicolon (t.forGrammar o :: ts) := by
  cases ts with
  | nil =>
    obtain ⟨hk, htext⟩ := h.of_singleton
    have hsame : t.forGrammar o = t := by
      rw [Token.forGrammar, hk]
    rw [hsame]
    exact h
  | cons u ts =>
    obtain ⟨last, hlast, ht⟩ := h
    exact ⟨last, hlast, ht⟩

end EndInSemicolon

namespace Stream

def extended (u : Stream) (more : String) (behind : List Token) : Stream :=
  { u with source := u.source ++ more, stop := u.stop.advance more, ahead := u.ahead ++ behind }

variable {u : Stream}

theorem upcoming_ne_nil (h : EndInSemicolon u.ahead) : u.upcoming ≠ [] := by
  intro hnone
  obtain ⟨t, hlast, hk, _⟩ := h
  have htrivia := List.dropWhile_eq_nil_iff.mp hnone t (List.mem_of_getLast? hlast)
  rw [hk] at htrivia
  cases htrivia

/-- More tokens behind those ahead leave the next one as it is. -/
theorem upcoming_extended {t : Token} {ts : List Token} (h : u.upcoming = t :: ts) (more : String)
    (behind : List Token) :
    (u.extended more behind).trivia = u.trivia ∧
      (u.extended more behind).upcoming = t :: (ts ++ behind) := by
  have hskipped : ∀ t ∈ u.trivia, t.kind.isTrivia = true :=
    List.all_eq_true.mp List.all_takeWhile
  have ht := upcoming_cons h
  have hahead : (u.extended more behind).ahead = u.trivia ++ t :: (ts ++ behind) := by
    rw [extended, ← u.trivia_append_upcoming, h, List.append_assoc, List.cons_append]
  constructor
  · rw [trivia, hahead, List.takeWhile_append_of_pos hskipped,
      List.takeWhile_cons_of_neg (by simp [ht]), List.append_nil]
  · rw [upcoming, hahead, List.dropWhile_append_of_pos hskipped,
      List.dropWhile_cons_of_neg (by simp [ht])]

theorem peek_extended (h : EndInSemicolon u.ahead) (more : String) (behind : List Token) :
    (u.extended more behind).peek = u.peek := by
  obtain ⟨t, ts, hupcoming⟩ := List.exists_cons_of_ne_nil (upcoming_ne_nil h)
  rw [peek, peek, (upcoming_extended hupcoming more behind).2, hupcoming]
  rfl

theorem advance_extended (h : EndInSemicolon u.ahead) (more : String) (behind : List Token) :
    (u.extended more behind).advance = u.advance.extended more behind := by
  obtain ⟨t, ts, hupcoming⟩ := List.exists_cons_of_ne_nil (upcoming_ne_nil h)
  obtain ⟨htrivia, hupcoming'⟩ := upcoming_extended hupcoming more behind
  simp only [advance, htrivia, hupcoming, hupcoming', List.take_succ_cons, List.take_zero,
    List.drop_one, List.tail_cons]
  rfl

theorem semicolon_advance (h : EndInSemicolon u.ahead) :
    EndInSemicolon (u.advance.current :: u.advance.ahead) := by
  obtain ⟨t, ts, hupcoming⟩ := List.exists_cons_of_ne_nil (upcoming_ne_nil h)
  have hsuffix : t :: ts <:+ u.ahead := hupcoming ▸ List.dropWhile_suffix _
  have hnext := (h.of_suffix hsuffix (List.cons_ne_nil _ _)).forGrammar u.options
  simpa only [advance, hupcoming, List.drop_one, List.tail_cons] using hnext

end Stream

/-! ## Both streams -/

/-- The place in the longer text of a place where a node may start or end.  Only the end of
the text is moved. -/
def Position.carried (source more : String) (p : Position) : Position :=
  if p = origin.advance source then origin.advance (source ++ more) else p

namespace Position

variable {source more : String} {p : Position}

theorem carried_end :
    (origin.advance source).carried source more = origin.advance (source ++ more) :=
  if_pos rfl

theorem carried_of_lt (h : p.offset < (origin.advance source).offset) :
    p.carried source more = p := by
  refine if_neg fun e => ?_
  rw [e] at h
  exact Nat.lt_irrefl _ h

/-- What is not in front of the end is carried to what is not in front of it. -/
theorem le_carried (more : String) (h : (origin.advance source).offset ≤ p.offset) :
    (origin.advance source).offset ≤ (p.carried source more).offset := by
  unfold carried
  split
  · rw [advance_append, offset_advance _ more]
    exact Nat.le_add_right _ _
  · exact h

/-- Whether a place in front of the end has an offset shows in both texts. -/
theorem offset_carried_iff {n : Nat} (hn : n < (origin.advance source).offset) :
    n = (p.carried source more).offset ↔ n = p.offset := by
  rcases Nat.lt_or_ge p.offset (origin.advance source).offset with hlt | hge
  · rw [carried_of_lt hlt]
  · have hle := le_carried more hge
    constructor <;> intro h <;> omega

theorem carried_le_iff {n : Nat} (hn : n < (origin.advance source).offset) :
    (p.carried source more).offset ≤ n ↔ p.offset ≤ n := by
  rcases Nat.lt_or_ge p.offset (origin.advance source).offset with hlt | hge
  · rw [carried_of_lt hlt]
  · have hle := le_carried more hge
    constructor <;> intro h <;> omega

end Position

namespace Stream

/-- Both streams are at the same token, and the semicolon is not consumed. -/
structure Abreast (more : String) (u v : Stream) : Prop where
  semicolon : EndInSemicolon (u.current :: u.ahead)
  same : ∃ behind, v = u.extended more behind ∧ String.join (behind.map Token.text) = more

/-- Both streams have come to the end of their text. -/
structure Ended (more : String) (u v : Stream) : Prop where
  kind : u.current.kind = .eof
  same : v = { u.extended more [] with current := Token.eof (u.stop.advance more) }

/-- The same place in a text and in a longer one, in front of the semicolon or behind the end
of the code. -/
structure Longer (front more : String) (u v : Stream) : Prop where
  of : u.Of ⟨front, true⟩
  prev_lt : u.prev.offset < (Position.origin.advance front).offset
  place : Abreast more u v ∨ Ended more u v

variable {source more : String} {u v : Stream}

namespace Abreast

/-- The end of the text stands for no token in front of the semicolon. -/
theorem ne_eof (h : Abreast more u v) (hu : u.Sound) : u.current.kind ≠ .eof := by
  intro hk
  have hlast := h.semicolon
  rw [(hu.atEnd hk).2] at hlast
  rw [hlast.of_singleton.1] at hk
  cases hk

theorem start_lt (h : Abreast more u v) (hu : u.Of ⟨source, true⟩) :
    u.current.start.offset < (Position.origin.advance source).offset := by
  have hfilled := hu.filled (h.ne_eof hu.sound)
  have hahead := hu.sound.ahead.offset_le
  have hstop : u.stop = Position.origin.advance source := hu.tokens.stop
  rw [hstop] at hahead
  omega

theorem current (h : Abreast more u v) : v.current = u.current := by
  obtain ⟨_, ⟨_, rfl, _⟩⟩ := h
  rfl

/-- What is ahead ends in the semicolon, if there is anything. -/
theorem ahead (h : Abreast more u v) (hne : u.ahead ≠ []) : EndInSemicolon u.ahead :=
  h.semicolon.of_suffix (List.suffix_cons _ _) hne

end Abreast

namespace Longer

theorem stop (h : u.Longer source more v) :
    u.stop.advance more = Position.origin.advance (source ++ more) := by
  have hstop : u.stop = Position.origin.advance source := h.of.tokens.stop
  rw [hstop, Position.advance_append]

/-- Behind the end of the code the stream of the text is in front of nothing. -/
theorem atEnd (h : u.Longer source more v) (hplace : Ended more u v) :
    u.current = Token.eof (Position.origin.advance source) ∧ u.ahead = [] := by
  have hend := h.of.sound.atEnd hplace.kind
  rwa [h.of.tokens.stop] at hend

/-- Both streams agree but for the text, what is ahead, and the current token. -/
theorem same (h : u.Longer source more v) :
    v = { u with
      source := source ++ more
      stop := Position.origin.advance (source ++ more)
      current := v.current
      ahead := v.ahead } := by
  have hstop := h.stop
  have hsource : u.source = source := h.of.source
  rcases h.place with ⟨_, _, rfl, _⟩ | ⟨_, rfl⟩ <;> simp only [extended, hstop, hsource]

theorem options (h : u.Longer source more v) : v.options = u.options := by rw [h.same]

theorem prev (h : u.Longer source more v) : v.prev = u.prev := by rw [h.same]

theorem comments (h : u.Longer source more v) : v.comments = u.comments := by rw [h.same]

theorem kind (h : u.Longer source more v) : v.current.kind = u.current.kind := by
  rcases h.place with hplace | ⟨hk, rfl⟩
  · rw [hplace.current]
  · exact hk.symm

theorem isEof (h : u.Longer source more v) : v.current.isEof = u.current.isEof :=
  congrArg (fun k : TokenKind => decide (k = .eof)) h.kind

theorem text (h : u.Longer source more v) : v.current.text = u.current.text := by
  rcases h.place with hplace | hplace
  · rw [hplace.current]
  · rw [hplace.same, (h.atEnd hplace).1]
    rfl

theorem start (h : u.Longer source more v) :
    v.current.start = u.current.start.carried source more := by
  rcases h.place with hplace | hplace
  · rw [hplace.current, Position.carried_of_lt (hplace.start_lt h.of)]
  · rw [hplace.same, (h.atEnd hplace).1, h.stop]
    exact Position.carried_end.symm

/-- In front of the semicolon the next token is the same one. -/
theorem peek (h : u.Longer source more v) (hk : u.current.kind ≠ .semicolon) :
    v.peek = u.peek := by
  rcases h.place with hplace | hplace
  · obtain ⟨behind, rfl, _⟩ := hplace.same
    have hne : u.ahead ≠ [] := by
      intro hnone
      have hlast := hplace.semicolon
      rw [hnone] at hlast
      exact hk hlast.of_singleton.1
    exact peek_extended (hplace.ahead hne) more behind
  · have hnone : u.ahead = [] := (h.atEnd hplace).2
    rw [hplace.same, Stream.peek, Stream.peek, upcoming, upcoming, extended, hnone]
    rfl

/-- Where nothing is ahead, consuming the current token comes to the end of the text. -/
theorem prev_advance_of_nil (h : u.Longer source more v) (hnone : u.ahead = []) :
    u.advance.prev = Position.origin.advance source := by
  have htag : u.atTag = false := by
    rcases h.place with hplace | hplace
    · have hlast := hplace.semicolon
      rw [hnone] at hlast
      simp [atTag, hlast.of_singleton.2]
    · simp [atTag, hplace.kind]
  have hstop : u.current.stop = u.stop := by
    have hahead := h.of.sound.ahead
    rwa [hnone] at hahead
  have hprev : u.advance.prev = u.current.stop := by simp [Stream.advance, htag]
  rw [hprev, hstop]
  exact h.of.tokens.stop

/-- Consuming a token in front of the semicolon. -/
theorem advance (h : u.Longer source more v)
    (hprev : u.advance.prev.offset < (Position.origin.advance source).offset) :
    u.advance.Longer source more v.advance := by
  have hne : u.ahead ≠ [] := by
    intro hnone
    rw [h.prev_advance_of_nil hnone] at hprev
    exact Nat.lt_irrefl _ hprev
  have hplace : Abreast more u v := h.place.resolve_right fun hplace => hne (h.atEnd hplace).2
  obtain ⟨behind, rfl, hmore⟩ := hplace.same
  have hahead := hplace.ahead hne
  exact
    { of := h.of.advance (hplace.ne_eof h.of.sound)
      prev_lt := hprev
      place := Or.inl
        ⟨semicolon_advance hahead, behind, advance_extended hahead more behind, hmore⟩ }

/-- Halting in front of the semicolon, or at the end where nothing is behind the text. -/
theorem halt (h : u.Longer source more v)
    (hk : u.current.kind = .semicolon ∨ "" ++ more = "") :
    v.halt.1 = u.halt.1 ++ more ∧ u.halt.2.Longer source more v.halt.2 := by
  rcases h.place with hplace | hplace
  · obtain ⟨behind, rfl, hmore⟩ := hplace.same
    constructor
    · rw [Stream.halt, Stream.halt, extended, List.map_append, String.join_append, hmore]
    · exact ⟨h.of.halt, h.prev_lt, Or.inr ⟨rfl, rfl⟩⟩
  · have hempty : "" ++ more = "" := by
      refine hk.resolve_left fun hk => ?_
      rw [hplace.kind] at hk
      cases hk
    have hnone : u.ahead = [] := (h.atEnd hplace).2
    rw [hplace.same]
    constructor
    · rw [Stream.halt, Stream.halt, extended, hnone]
      exact hempty.symm
    · exact ⟨h.of.halt, h.prev_lt, Or.inr ⟨rfl, by simp only [Stream.halt, extended, hnone]; rfl⟩⟩

end Longer

/-! ## The text behind the boundary -/

theorem charsBetween_eq_nil {lo hi : Nat} (i : Nat) (cs : List Char) (h : hi ≤ i ∨ hi ≤ lo) :
    charsBetween lo hi i cs = [] := by
  induction cs generalizing i with
  | nil => rfl
  | cons c cs ih =>
    unfold charsBetween
    split
    · exact ih _ (h.imp_left fun h => Nat.le_trans h (Nat.le_add_right _ _))
    · exact if_neg (by omega)

/-- What is behind an upper bound is not asked for. -/
theorem charsBetween_append {lo hi : Nat} (i : Nat) (cs ds : List Char)
    (h : hi ≤ i + (String.ofList cs).utf8ByteSize) :
    charsBetween lo hi i (cs ++ ds) = charsBetween lo hi i cs := by
  induction cs generalizing i with
  | nil => exact charsBetween_eq_nil i ds (Or.inl h)
  | cons c cs ih =>
    rw [String.ofList_cons, String.utf8ByteSize_append, String.utf8ByteSize_singleton,
      ← Nat.add_assoc] at h
    rw [List.cons_append, charsBetween, charsBetween, ih _ h]

theorem Longer.textBetween (h : u.Longer source more v) (p : Position) :
    v.textBetween (p.carried source more).offset v.prev.offset =
      u.textBetween p.offset u.prev.offset := by
  have hlt := h.prev_lt
  have hsource : u.source = source := h.of.source
  have hsize : u.prev.offset ≤ 0 + (String.ofList source.toList).utf8ByteSize := by
    rw [String.ofList_toList]
    rw [Position.offset_advance] at hlt
    exact Nat.le_of_lt hlt
  have hlonger : v.source = source ++ more := by rw [h.same]
  rw [Stream.textBetween, Stream.textBetween, h.prev, hlonger, hsource, String.toList_append,
    charsBetween_append 0 _ _ hsize]
  rcases Nat.lt_or_ge p.offset (Position.origin.advance source).offset with hp | hp
  · rw [Position.carried_of_lt hp]
  · have hle := Position.le_carried more hp
    rw [charsBetween_eq_nil _ _ (Or.inr (by omega)), charsBetween_eq_nil _ _ (Or.inr (by omega))]

end Stream
end PhpSyntax
