/-
A stream only moves on.

Behind the first token a stream is `Sound`: its boundary is not behind the current token,
the tokens ahead fill the rest of the text, and the current token stands for the end of the
input only there.  Advancing keeps that and, where there is a token to consume, leaves one
token less to be consumed (`rest_advance`).  `Stream.rest` is what bounds every run of the
grammar.
-/
import PhpSyntax.Proofs.Scanner.Exact
import PhpSyntax.Stream

namespace PhpSyntax

namespace Contiguous

theorem offset_le {p q : Position} {ts : List Token} (h : Contiguous p ts q) :
    p.offset ≤ q.offset := by
  induction ts generalizing p with
  | nil => exact Nat.le_of_eq (congrArg Position.offset h)
  | cons t ts ih =>
    obtain ⟨_, _, hstop, _, hrest⟩ := h
    have hle := ih hrest
    rw [hstop, Position.offset_advance] at hle
    omega

theorem of_append {p q : Position} {us ts : List Token} (h : Contiguous p (us ++ ts) q) :
    ∃ m, Contiguous p us m ∧ Contiguous m ts q := by
  induction us generalizing p with
  | nil => exact ⟨p, rfl, h⟩
  | cons u us ih =>
    obtain ⟨hstart, htext, hstop, hkind, hrest⟩ := h
    obtain ⟨m, hus, hts⟩ := ih hrest
    exact ⟨m, ⟨hstart, htext, hstop, hkind, hus⟩, hts⟩

theorem start_le {p q : Position} {ts : List Token} (h : Contiguous p ts q) :
    ∀ t ∈ ts, t.start.offset ≤ q.offset := by
  induction ts generalizing p with
  | nil => simp
  | cons t ts ih =>
    have hle := h.offset_le
    obtain ⟨hstart, _, _, _, hrest⟩ := h
    intro u hu
    rcases List.mem_cons.mp hu with rfl | hu
    · rw [hstart]
      exact hle
    · exact ih hrest u hu

end Contiguous

namespace Token

variable (o : Options) (t : Token)

@[simp] theorem forGrammar_start : (t.forGrammar o).start = t.start := by
  unfold forGrammar
  split <;> try rfl
  split <;> rfl

@[simp] theorem forGrammar_stop : (t.forGrammar o).stop = t.stop := by
  unfold forGrammar
  split <;> try rfl
  split <;> rfl

theorem forGrammar_ne_eof {t : Token} (h : t.kind ≠ .eof) : (t.forGrammar o).kind ≠ .eof := by
  unfold forGrammar
  split
  · simp
  · simp
  · split
    · exact h
    · simp
  · exact h

end Token

namespace Stream

def rest (s : Stream) : Nat :=
  (if s.current.isEof then 0 else 1) + (s.ahead.filter (!·.kind.isTrivia)).length

structure Sound (s : Stream) : Prop where
  prev_le : s.prev.offset ≤ s.current.start.offset
  start_le : s.current.start.offset ≤ s.current.stop.offset
  ahead : Contiguous s.current.stop s.ahead s.stop
  atEnd : s.current.kind = .eof → s.current = Token.eof s.stop ∧ s.ahead = []

theorem trivia_append_upcoming (s : Stream) : s.trivia ++ s.upcoming = s.ahead :=
  List.takeWhile_append_dropWhile

/-- Skipping trivia skips none of the tokens to be consumed. -/
theorem filter_upcoming (s : Stream) :
    s.ahead.filter (!·.kind.isTrivia) = s.upcoming.filter (!·.kind.isTrivia) := by
  rw [← s.trivia_append_upcoming, List.filter_append, List.filter_eq_nil_iff.mpr, List.nil_append]
  intro t ht
  have := List.all_eq_true.mp List.all_takeWhile t ht
  simpa using this

/-- The first token behind the trivia is none of them. -/
theorem upcoming_cons {s : Stream} {t : Token} {ts : List Token} (h : s.upcoming = t :: ts) :
    t.kind.isTrivia = false := by
  have hne : s.upcoming ≠ [] := by simp [h]
  have hhead := List.head_dropWhile_not (fun t : Token => t.kind.isTrivia) hne
  have heq : s.upcoming.head hne = t := by simp [h]
  rw [← heq]
  exact hhead

/-- Where the tokens ahead fill a stretch, those behind the trivia fill the end of it. -/
theorem contiguous_upcoming {s : Stream} {p : Position} (h : Contiguous p s.ahead s.stop) :
    ∃ m, p.offset ≤ m.offset ∧ Contiguous m s.upcoming s.stop := by
  rw [← s.trivia_append_upcoming] at h
  obtain ⟨m, htrivia, hupcoming⟩ := h.of_append
  exact ⟨m, htrivia.offset_le, hupcoming⟩

/-! ## Advancing -/

theorem advance_kind (s : Stream) : s.advance.current.kind = s.peek := by
  unfold advance peek
  cases s.upcoming <;> rfl

/-- Advancing leads from anywhere in front of the tokens ahead to a sound place. -/
theorem advance_sound_of {s : Stream} (h : Contiguous s.current.stop s.ahead s.stop)
    (hprev : s.prev.offset ≤ s.current.stop.offset) : s.advance.Sound := by
  obtain ⟨m, hm, hupcoming⟩ := contiguous_upcoming h
  have hboundary : s.advance.prev.offset ≤ s.current.stop.offset := by
    simp only [advance]
    split
    · exact hprev
    · exact Nat.le_refl _
  cases hu : s.upcoming with
  | nil =>
    rw [hu] at hupcoming
    have hcurrent : s.advance.current = Token.eof s.stop := by simp [advance, hu]
    have hahead : s.advance.ahead = [] := by simp [advance, hu]
    have hm' : m = s.stop := hupcoming
    subst hm'
    refine ⟨?_, ?_, ?_, fun _ => ⟨hcurrent, hahead⟩⟩
    · rw [hcurrent]
      exact Nat.le_trans hboundary hm
    · rw [hcurrent]
      exact Nat.le_refl _
    · rw [hcurrent, hahead]
      rfl
  | cons t ts =>
    rw [hu] at hupcoming
    obtain ⟨hstart, _, hstop, hkind, hrest⟩ := hupcoming
    have hcurrent : s.advance.current = t.forGrammar s.options := by simp [advance, hu]
    have hahead : s.advance.ahead = ts := by simp [advance, hu]
    refine ⟨?_, ?_, ?_, fun h => ?_⟩
    · rw [hcurrent, Token.forGrammar_start, hstart]
      exact Nat.le_trans hboundary hm
    · rw [hcurrent, Token.forGrammar_start, Token.forGrammar_stop, hstart, hstop,
        Position.offset_advance]
      exact Nat.le_add_right _ _
    · rw [hcurrent, hahead, Token.forGrammar_stop]
      exact hrest
    · rw [hcurrent] at h
      exact absurd h (Token.forGrammar_ne_eof _ hkind)

theorem advance_sound {s : Stream} (h : s.Sound) : s.advance.Sound :=
  advance_sound_of h.ahead (Nat.le_trans h.prev_le h.start_le)

theorem rest_advance_of {s : Stream} (h : Contiguous s.current.stop s.ahead s.stop) :
    s.advance.rest = (s.ahead.filter (!·.kind.isTrivia)).length := by
  obtain ⟨m, _, hupcoming⟩ := contiguous_upcoming h
  rw [filter_upcoming]
  cases hu : s.upcoming with
  | nil => simp [rest, advance, hu, Token.eof, Token.isEof]
  | cons t ts =>
    rw [hu] at hupcoming
    obtain ⟨_, _, _, hkind, _⟩ := hupcoming
    have hcurrent : s.advance.current.isEof = false := by
      simpa [advance, hu, Token.isEof] using Token.forGrammar_ne_eof s.options hkind
    have hahead : s.advance.ahead = ts := by simp [advance, hu]
    have ht := upcoming_cons hu
    simp only [rest, hcurrent, hahead, Bool.false_eq_true, if_false, List.filter_cons, ht,
      Bool.not_false, if_true, List.length_cons]
    omega

theorem rest_advance {s : Stream} (h : s.Sound) (he : s.current.kind ≠ .eof) :
    s.advance.rest + 1 = s.rest := by
  rw [rest_advance_of h.ahead]
  simp only [rest, Token.isEof, he, decide_false, Bool.false_eq_true, if_false]
  omega

theorem prev_le_advance {s : Stream} (h : s.Sound) : s.prev.offset ≤ s.advance.prev.offset := by
  simp only [advance]
  split
  · exact Nat.le_refl _
  · exact Nat.le_trans h.prev_le h.start_le

theorem stop_le_advance {s : Stream} (h : s.Sound) :
    s.current.stop.offset ≤ s.advance.current.start.offset := by
  obtain ⟨m, hm, hupcoming⟩ := contiguous_upcoming h.ahead
  cases hu : s.upcoming with
  | nil =>
    rw [hu] at hupcoming
    have hm' : m = s.stop := hupcoming
    subst hm'
    simp only [advance, hu, Token.eof]
    omega
  | cons t ts =>
    rw [hu] at hupcoming
    simp only [advance, hu, Token.forGrammar_start, hupcoming.1]
    omega

theorem start_le_advance {s : Stream} (h : s.Sound) :
    s.current.start.offset ≤ s.advance.current.start.offset :=
  Nat.le_trans h.start_le (stop_le_advance h)

/-- Consuming anything but a closing tag moves the boundary behind it. -/
theorem start_le_advance_prev {s : Stream} (h : s.Sound) (hk : s.current.kind ≠ .semicolon) :
    s.current.start.offset ≤ s.advance.prev.offset := by
  have htag : s.atTag = false := by simp [atTag, hk]
  simp only [advance, htag, Bool.false_eq_true, if_false]
  exact h.start_le

/-! ## Halting -/

theorem halt_sound {s : Stream} (h : s.Sound) : s.halt.2.Sound := by
  have hstart := h.start_le
  have hle := h.ahead.offset_le
  have hprev := h.prev_le
  refine ⟨?_, Nat.le_refl _, rfl, fun _ => ⟨rfl, rfl⟩⟩
  simp only [halt, Token.eof]
  omega

theorem rest_halt (s : Stream) : s.halt.2.rest = 0 := rfl

/-- At the end there is nothing to be consumed, and anywhere else there is. -/
theorem rest_eq_zero {s : Stream} (h : s.Sound) : s.rest = 0 ↔ s.current.kind = .eof := by
  by_cases he : s.current.kind = .eof
  · simp [rest, Token.isEof, he, (h.atEnd he).2]
  · simp [rest, Token.isEof, he]

theorem halt_of_eof {s : Stream} (h : s.Sound) (he : s.current.kind = .eof) : s.halt.2 = s := by
  obtain ⟨hcurrent, hahead⟩ := h.atEnd he
  simp only [halt, ← hcurrent]
  rw [← hahead]

/-- At the end the boundary of the program is the end of the text. -/
theorem finish_prev {s : Stream} (h : s.Sound) (he : s.current.kind = .eof) :
    s.finish.prev = s.stop := by
  have hcurrent : s.current = Token.eof s.stop := (h.atEnd he).1
  simp [finish, hcurrent, Token.eof, Token.isEof]

/-! ## The first token -/

theorem ofSource_contiguous (source : String) (o : Options) :
    Contiguous (ofSource source o).current.stop (ofSource source o).ahead
      (ofSource source o).stop := by
  have h := Scanner.tokens_contiguous (Scanner.ofSource source)
  rwa [(Scanner.ofSource_sound source).endPosition] at h

theorem first_sound (source : String) (o : Options) : (ofSource source o).advance.Sound :=
  advance_sound_of (ofSource_contiguous source o) (Nat.le_refl _)

theorem rest_le (s : Stream) : s.rest ≤ s.ahead.length + 1 := by
  have hfilter := List.length_filter_le (fun t : Token => !t.kind.isTrivia) s.ahead
  have hcurrent : (if s.current.isEof then 0 else 1) ≤ 1 := by split <;> omega
  simp only [rest]
  omega

end Stream
end PhpSyntax
