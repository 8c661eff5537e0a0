/-
Scanning loses nothing and says exactly where it is.

A token is cut off the front of what lies ahead, and the place behind it is the place
before it moved over the text of the token (`Scanner.next_cons`).  Every place that is
reached from the start of a source text therefore splits the text into what has been read
and what lies ahead, with the position that reading the first part leads to
(`Scanner.Sound`).  `tokens_contiguous` says the same of the list of tokens, and
`tokenize_exact` puts it in terms of the source text alone.
-/
import PhpSyntax.Proofs.Scanner.Lexeme
import PhpSyntax.Scanner.Basic

namespace PhpSyntax

/-- `p` is the point that reading the first `p.offset` bytes of `source` leads to. -/
def Position.IsIn (source : String) (p : Position) : Prop :=
  ∃ before behind : String, before ++ behind = source ∧ before.utf8ByteSize = p.offset ∧
    Position.origin.advance before = p

/-- The tokens `ts` fill the stretch from `p` to `q`: each is the token that its text forms
where the one before it ends, and none is empty. -/
def Contiguous (p : Position) : List Token → Position → Prop
  | [], q => p = q
  | t :: ts, q =>
    t.start = p ∧ t.text ≠ "" ∧ t.stop = p.advance t.text ∧ t.kind ≠ .eof ∧
      Contiguous t.stop ts q

theorem Position.advance_append (p : Position) (a b : String) :
    p.advance (a ++ b) = (p.advance a).advance b := by
  rw [advance, advance, advance, String.toList_append, after_append]

namespace Scanner

def skip : Nat → Scanner → Scanner
  | 0, s => s
  | n + 1, s => skip n s.next.2

/-- The text splits into what has been read and what lies ahead, and the position is the
one between the two. -/
def Sound (s : Scanner) : Prop :=
  ∃ read : List Char, s.source.toList = read ++ s.ahead ∧ s.position = Position.origin.after read

theorem ofSource_sound (source : String) : (ofSource source).Sound := ⟨[], rfl, rfl⟩

/-! ## One token -/

theorem next_nil {s : Scanner} (h : s.ahead = []) : s.next = (none, { s with mode := .html }) := by
  simp [next, h]

theorem next_eq_cut {s : Scanner} (h : s.ahead ≠ []) :
    s.next = (some (s.cut (Lexeme.ofMode s.mode s.ahead)).1,
      (s.cut (Lexeme.ofMode s.mode s.ahead)).2) := by
  have hne : s.ahead.isEmpty = false := by simpa using h
  rw [next, hne]
  rfl

/-- The next token starts here, is not empty and ends at the place behind it; its text and
what lies behind it are what lies ahead. -/
theorem next_cons {s : Scanner} (h : s.ahead ≠ []) :
    ∃ t s', s.next = (some t, s') ∧ t.start = s.position ∧ t.text ≠ "" ∧ t.kind ≠ .eof ∧
      t.stop = s.position.advance t.text ∧ s'.position = t.stop ∧ s'.source = s.source ∧
      s.ahead = t.text.toList ++ s'.ahead := by
  obtain ⟨hlen, hkind⟩ := Lexeme.ofMode_proper s.mode h
  refine ⟨_, _, next_eq_cut h, rfl, ?_, hkind, ?_, rfl, rfl, ?_⟩
  · intro he
    have htake : s.ahead.take (Lexeme.ofMode s.mode s.ahead).length = [] := by
      simpa [cut] using he
    rcases List.take_eq_nil_iff.mp htake with h0 | h0
    · omega
    · exact h h0
  · simp [cut, Position.advance]
  · simp [cut]

theorem next_ahead_length {s s' : Scanner} {t : Token} (h : s.next = (some t, s')) :
    s'.ahead.length < s.ahead.length := by
  by_cases hs : s.ahead = []
  · rw [next_nil hs] at h
    cases h
  · obtain ⟨u, s₂, hn, _, htext, _, _, _, _, hahead⟩ := next_cons hs
    rw [hn] at h
    cases h
    have hpos : 0 < t.text.toList.length := by
      rw [List.length_pos_iff]
      simpa using htext
    rw [hahead, List.length_append]
    omega

theorem next_sound {s : Scanner} (h : s.Sound) : s.next.2.Sound := by
  obtain ⟨read, hsource, hpos⟩ := h
  by_cases hs : s.ahead = []
  · rw [next_nil hs]
    exact ⟨read, hsource, hpos⟩
  · obtain ⟨t, s', hn, _, _, _, hstop, hpos', hsource', hahead⟩ := next_cons hs
    rw [hn]
    refine ⟨read ++ t.text.toList, ?_, ?_⟩
    · rw [hsource', hsource, hahead, List.append_assoc]
    · rw [hpos', hstop, Position.advance, hpos, Position.after_append]

theorem next_source (s : Scanner) : s.next.2.source = s.source := by
  by_cases hs : s.ahead = []
  · rw [next_nil hs]
  · obtain ⟨t, s', hn, _, _, _, _, _, hsource, _⟩ := next_cons hs
    rw [hn, hsource]

/-- The end of the text is the same from everywhere. -/
theorem Sound.endPosition {s : Scanner} (h : s.Sound) :
    s.endPosition = Position.origin.advance s.source := by
  obtain ⟨read, hsource, hpos⟩ := h
  rw [Scanner.endPosition, hpos, ← Position.after_append, ← hsource, Position.advance]

/-! ## All tokens -/

theorem skip_sound {s : Scanner} (h : s.Sound) (n : Nat) : (s.skip n).Sound := by
  induction n generalizing s with
  | zero => exact h
  | succ n ih => exact ih (next_sound h)

theorem skip_source (s : Scanner) (n : Nat) : (s.skip n).source = s.source := by
  induction n generalizing s with
  | zero => rfl
  | succ n ih => rw [skip, ih, next_source]

/-- More tokens than characters ahead are not asked for. -/
theorem take_eq_tokens {s : Scanner} {n : Nat} (h : s.ahead.length ≤ n) : s.take n = s.tokens := by
  have agree : ∀ (a b : Nat) (s : Scanner), s.ahead.length ≤ a → s.ahead.length ≤ b →
      s.take a = s.take b := by
    intro a
    induction a with
    | zero =>
      intro b s ha _
      have hnil : s.ahead = [] := List.length_eq_zero_iff.mp (Nat.le_zero.mp ha)
      cases b with
      | zero => rfl
      | succ b => simp only [take, next_nil hnil]
    | succ a ih =>
      intro b s ha hb
      cases b with
      | zero =>
        have hnil : s.ahead = [] := List.length_eq_zero_iff.mp (Nat.le_zero.mp hb)
        simp only [take, next_nil hnil]
      | succ b =>
        cases hn : s.next with
        | mk t s' =>
          cases t with
          | none => simp only [take, hn]
          | some t =>
            have hlt := next_ahead_length hn
            simp only [take, hn, ih b s' (by omega) (by omega)]
  exact agree n s.ahead.length s h (Nat.le_refl _)

theorem tokens_of_none {s s' : Scanner} (h : s.next = (none, s')) : s.tokens = [] := by
  rw [← take_eq_tokens (Nat.le_succ _)]
  simp only [take, h]

theorem tokens_of_some {s s' : Scanner} {t : Token} (h : s.next = (some t, s')) :
    s.tokens = t :: s'.tokens := by
  have hlt := next_ahead_length h
  rw [← take_eq_tokens (Nat.le_succ _), ← take_eq_tokens (n := s.ahead.length) (by omega)]
  simp only [take, h]

/-- The tokens ahead are what asking for the next one yields, time after time. -/
theorem skip_next (s : Scanner) (n : Nat) : (s.skip n).next.1 = s.tokens[n]? := by
  induction n generalizing s with
  | zero =>
    cases hn : s.next with
    | mk t s' =>
      cases t with
      | none => simp [skip, hn, tokens_of_none hn]
      | some t => simp [skip, hn, tokens_of_some hn]
  | succ n ih =>
    rw [skip, ih]
    cases hn : s.next with
    | mk t s' =>
      cases t with
      | none =>
        have hs : s.ahead = [] := by
          by_cases hs : s.ahead = []
          · exact hs
          · obtain ⟨t, s₂, hn₂, _⟩ := next_cons hs
            rw [hn] at hn₂
            cases hn₂
        rw [next_nil hs] at hn
        cases hn
        rw [tokens_of_none (next_nil hs), tokens_of_none (next_nil (s := { s with mode := .html }) hs)]
        simp
      | some t => simp [tokens_of_some hn]

/-- The tokens ahead fill the stretch up to the end of the text. -/
theorem tokens_contiguous (s : Scanner) : Contiguous s.position s.tokens s.endPosition := by
  by_cases hs : s.ahead = []
  · rw [tokens_of_none (next_nil hs), endPosition, hs]
    rfl
  · obtain ⟨t, s', hn, hstart, htext, hkind, hstop, hpos, _, hahead⟩ := next_cons hs
    have hlt := next_ahead_length hn
    have hend : s'.endPosition = s.endPosition := by
      rw [endPosition, endPosition, hahead, Position.after_append, hpos, hstop, Position.advance]
    have ih := tokens_contiguous s'
    rw [hpos, hend] at ih
    rw [tokens_of_some hn]
    exact ⟨hstart, htext, hstop, hkind, ih⟩
termination_by s.ahead.length

/-- The texts of the tokens ahead are what lies ahead. -/
theorem join_tokens (s : Scanner) :
    (String.join (s.tokens.map Token.text)).toList = s.ahead := by
  by_cases hs : s.ahead = []
  · rw [tokens_of_none (next_nil hs), hs]
    rfl
  · obtain ⟨t, s', hn, _, _, _, _, _, _, hahead⟩ := next_cons hs
    have hlt := next_ahead_length hn
    rw [tokens_of_some hn, List.map_cons, String.join_cons, String.toList_append, join_tokens s',
      hahead]
termination_by s.ahead.length

/-- Behind the last token there is nothing. -/
theorem skip_ahead {s : Scanner} {n : Nat} (h : s.tokens.length ≤ n) : (s.skip n).ahead = [] := by
  by_cases hs : (s.skip n).ahead = []
  · exact hs
  · obtain ⟨t, s', hn, _⟩ := next_cons hs
    have hget := skip_next s n
    rw [hn, List.getElem?_eq_none h] at hget
    cases hget

end Scanner

/-! ## The source text -/

namespace Contiguous

/-- The ends of contiguous tokens are points of any text of which their texts are part. -/
theorem isIn {p q : Position} {ts : List Token} (h : Contiguous p ts q) {source read : String}
    (hsource : read ++ String.join (ts.map Token.text) = source)
    (hp : Position.origin.advance read = p) :
    ∀ t ∈ ts, t.start.IsIn source ∧ t.stop.IsIn source := by
  have place : ∀ before behind : String, before ++ behind = source →
      (Position.origin.advance before).IsIn source := by
    intro before behind e
    refine ⟨before, behind, e, ?_, rfl⟩
    rw [Position.offset_advance]
    exact (Nat.zero_add _).symm
  induction ts generalizing p read with
  | nil => simp
  | cons t ts ih =>
    obtain ⟨hstart, _, hstop, _, hrest⟩ := h
    rw [List.map_cons, String.join_cons] at hsource
    have hstop' : Position.origin.advance (read ++ t.text) = t.stop := by
      rw [Position.advance_append, hp, hstop]
    have hsource' : (read ++ t.text) ++ String.join (ts.map Token.text) = source := by
      rw [String.append_assoc, hsource]
    intro u hu
    rcases List.mem_cons.mp hu with rfl | hu
    · refine ⟨?_, ?_⟩
      · rw [hstart, ← hp]
        exact place _ _ hsource
      · rw [← hstop']
        exact place _ _ hsource'
    · exact ih hrest hsource' hstop' u hu

theorem text_ne {p q : Position} {ts : List Token} (h : Contiguous p ts q) :
    ∀ t ∈ ts, t.text ≠ "" := by
  induction ts generalizing p with
  | nil => simp
  | cons t ts ih =>
    obtain ⟨_, htext, _, _, hrest⟩ := h
    intro u hu
    rcases List.mem_cons.mp hu with rfl | hu
    · exact htext
    · exact ih hrest u hu

theorem start_succ {p q : Position} {ts : List Token} (h : Contiguous p ts q) {i : Nat}
    {t u : Token} (ht : ts[i]? = some t) (hu : ts[i + 1]? = some u) : u.start = t.stop := by
  induction ts generalizing p i with
  | nil => simp at ht
  | cons v ts ih =>
    obtain ⟨_, _, _, _, hrest⟩ := h
    cases i with
    | succ i => exact ih hrest (by simpa using ht) (by simpa using hu)
    | zero =>
      cases ts with
      | nil => simp at hu
      | cons w ts =>
        simp only [List.getElem?_cons_zero, Option.some.injEq] at ht
        simp only [List.getElem?_cons_succ, List.getElem?_cons_zero, Option.some.injEq] at hu
        subst ht
        subst hu
        exact hrest.1

end Contiguous

/-- The tokens of a source text put together are the text. -/
theorem join_tokenize (source : String) :
    String.join ((tokenize source).map Token.text) = source :=
  String.toList_inj.mp (Scanner.join_tokens (Scanner.ofSource source))

/-- Both ends of a token are points of the text. -/
theorem tokenize_isIn (source : String) :
    ∀ t ∈ tokenize source, t.start.IsIn source ∧ t.stop.IsIn source := by
  have hcontig : Contiguous .origin (tokenize source) (Scanner.ofSource source).endPosition :=
    Scanner.tokens_contiguous (Scanner.ofSource source)
  have hsource : "" ++ String.join ((tokenize source).map Token.text) = source := by
    rw [String.empty_append, join_tokenize]
  exact hcontig.isIn hsource rfl

/-- The tokens of a source text put together are the text.  None is empty, the first one
starts at the start and each other one where the one before it ends, and both ends of a
token are points of the text.  Asking a scanner for tokens yields these and then none, the
place behind the last one is the end of the text, and the end is the same from every place
on the way. -/
theorem tokenize_exact (source : String) :
    String.join ((tokenize source).map Token.text) = source ∧
    (∀ t ∈ tokenize source, t.text ≠ "" ∧ t.start.IsIn source ∧ t.stop.IsIn source) ∧
    (∀ t, (tokenize source)[0]? = some t → t.start = .origin) ∧
    (∀ i t u, (tokenize source)[i]? = some t → (tokenize source)[i + 1]? = some u →
      u.start = t.stop) ∧
    (∀ n, ((Scanner.ofSource source).skip n).next.1 = (tokenize source)[n]?) ∧
    (∀ n, (tokenize source).length ≤ n →
      ((Scanner.ofSource source).skip n).position = Position.origin.advance source) ∧
    (∀ n, ((Scanner.ofSource source).skip n).endPosition = Position.origin.advance source) := by
  have hcontig : Contiguous .origin (tokenize source) (Scanner.ofSource source).endPosition :=
    Scanner.tokens_contiguous (Scanner.ofSource source)
  have hplaces := tokenize_isIn source
  have hend : ∀ n, ((Scanner.ofSource source).skip n).endPosition =
      Position.origin.advance source := by
    intro n
    rw [(Scanner.skip_sound (Scanner.ofSource_sound source) n).endPosition, Scanner.skip_source]
    rfl
  refine ⟨join_tokenize source, fun t ht => ⟨hcontig.text_ne t ht, hplaces t ht⟩, ?_, ?_, ?_, ?_,
    hend⟩
  · intro t ht
    cases hts : tokenize source with
    | nil => simp [hts] at ht
    | cons u ts =>
      rw [hts] at ht hcontig
      simp only [List.getElem?_cons_zero, Option.some.injEq] at ht
      exact ht ▸ hcontig.1
  · intro i t u ht hu
    exact hcontig.start_succ ht hu
  · exact Scanner.skip_next (Scanner.ofSource source)
  · intro n hn
    have hahead := Scanner.skip_ahead (s := Scanner.ofSource source) hn
    have := hend n
    rw [Scanner.endPosition, hahead, Position.after_nil] at this
    exact this

end PhpSyntax
