import PhpSyntax.Proofs.Stream.OnTokens
import PhpSyntax.Proofs.Stream.Progress

namespace PhpSyntax

/-! ## Points of a text -/

def Position.Encloses (source : String) (p q : Position) (text : String) : Prop :=
  ∃ before behind, source = before ++ text ++ behind ∧ origin.advance before = p ∧
    p.advance text = q

/-- Of two points of a source the first one is in front of a text that ends with the other. -/
theorem Position.IsIn.encloses {source : String} {p q : Position} (hp : p.IsIn source)
    (hq : q.IsIn source) (h : p.offset ≤ q.offset) : ∃ text, Encloses source p q text := by
  obtain ⟨a, a', ha, hsize, hp⟩ := hp
  obtain ⟨b, b', hb, hsize', hq⟩ := hq
  have hsplit : ∃ text, a ++ text = b := by
    have heq : a.toList ++ a'.toList = b.toList ++ b'.toList := by
      rw [← String.toList_append, ← String.toList_append, ha, hb]
    rcases List.append_eq_append_iff.mp heq with ⟨cs, hcs, _⟩ | ⟨cs, hcs, _⟩
    · exact ⟨String.ofList cs, by rw [← String.toList_inj, String.toList_append, hcs,
        String.toList_ofList]⟩
    · have hcat : a = b ++ String.ofList cs := by
        rw [← String.toList_inj, String.toList_append, hcs, String.toList_ofList]
      have hcs : (String.ofList cs).utf8ByteSize = 0 := by
        rw [hcat, String.utf8ByteSize_append] at hsize
        omega
      rw [String.utf8ByteSize_eq_zero_iff.mp hcs, String.append_empty] at hcat
      exact ⟨"", by rw [String.append_empty, hcat]⟩
  obtain ⟨text, rfl⟩ := hsplit
  exact ⟨text, a, b', hb.symm, hp, by rw [← hp, ← hq, advance_append]⟩

/-! ## Stretches of text -/

namespace Contiguous

variable {p q : Position} {ts : List Token}

theorem le_start (h : Contiguous p ts q) : ∀ t ∈ ts, p.offset ≤ t.start.offset := by
  induction ts generalizing p with
  | nil => simp
  | cons u ts ih =>
    intro t ht
    have hlt := h.start_lt
    obtain ⟨rfl, _, _, _, hrest⟩ := h
    rcases List.mem_cons.mp ht with rfl | ht
    · exact Nat.le_refl _
    · have hle := ih hrest t ht
      omega

theorem start_lt_stop (h : Contiguous p ts q) : ∀ t ∈ ts, t.start.offset < t.stop.offset := by
  induction ts generalizing p with
  | nil => simp
  | cons u ts ih =>
    intro t ht
    rcases List.mem_cons.mp ht with rfl | ht
    · exact h.start_lt
    · exact ih h.2.2.2.2 t ht

theorem stop_le (h : Contiguous p ts q) : ∀ t ∈ ts, t.stop.offset ≤ q.offset := by
  induction ts generalizing p with
  | nil => simp
  | cons u ts ih =>
    intro t ht
    obtain ⟨_, _, _, _, hrest⟩ := h
    rcases List.mem_cons.mp ht with rfl | ht
    · exact hrest.offset_le
    · exact ih hrest t ht

/-- Tokens that fill a stretch do not overlap. -/
theorem apart (h : Contiguous p ts q) : ∀ t ∈ ts, ∀ u ∈ ts,
    t = u ∨ t.stop.offset ≤ u.start.offset ∨ u.stop.offset ≤ t.start.offset := by
  induction ts generalizing p with
  | nil => simp
  | cons v ts ih =>
    obtain ⟨_, _, _, _, hrest⟩ := h
    simp only [List.mem_cons]
    rintro t (rfl | ht) u (rfl | hu)
    · exact Or.inl rfl
    · exact Or.inr (Or.inl (hrest.le_start u hu))
    · exact Or.inr (Or.inr (hrest.le_start t ht))
    · exact ih hrest t ht u hu

theorem start_eq {p' : Position} (h : Contiguous p ts q) (h' : Contiguous p' ts q) : p = p' := by
  cases ts with
  | nil => exact h.trans h'.symm
  | cons t ts => exact h.1.symm.trans h'.1

/-- The end of a list of tokens that fills a stretch from the same place on is all of it. -/
theorem eq_of_suffix {us : List Token} (h : Contiguous p ts q) (h' : Contiguous p us q)
    (hsuffix : us <:+ ts) : us = ts := by
  obtain ⟨before, rfl⟩ := hsuffix
  obtain ⟨m, hbefore, hus⟩ := h.of_append
  cases before with
  | nil => rfl
  | cons t before =>
    have hlt := hbefore.start_lt
    have hle := hbefore.2.2.2.2.offset_le
    rw [hus.start_eq h', hbefore.1] at *
    omega

/-- A stretch is as long as the tokens that fill it. -/
theorem size_join (h : Contiguous p ts q) :
    p.offset + (String.join (ts.map Token.text)).utf8ByteSize = q.offset := by
  induction ts generalizing p with
  | nil => exact congrArg Position.offset h
  | cons t ts ih =>
    obtain ⟨_, _, hstop, _, hrest⟩ := h
    rw [List.map_cons, String.join_cons, String.utf8ByteSize_append, ← ih hrest, hstop,
      Position.offset_advance, Nat.add_assoc]

end Contiguous

theorem tokenize_contiguous (source : String) :
    Contiguous .origin (tokenize source) (Position.origin.advance source) :=
  Stream.ofSource_contiguous source {}

namespace Token

variable {source : String} {t u : Token}

theorem start_lt_stop (ht : t ∈ tokenize source) : t.start.offset < t.stop.offset :=
  (tokenize_contiguous source).start_lt_stop t ht

/-- Tokens of a text that overlap are the same one. -/
theorem eq_of_overlap (ht : t ∈ tokenize source) (hu : u ∈ tokenize source)
    (h : t.start.offset < u.stop.offset) (h' : u.start.offset < t.stop.offset) : t = u := by
  rcases (tokenize_contiguous source).apart t ht u hu with e | hapart | hapart
  · exact e
  · omega
  · omega

theorem eq_of_start (ht : t ∈ tokenize source) (hu : u ∈ tokenize source)
    (h : t.start = u.start) : t = u := by
  have hlt := start_lt_stop ht
  have hlt' := start_lt_stop hu
  rw [h] at hlt
  exact eq_of_overlap ht hu (by rwa [h]) hlt

end Token

namespace Stream

variable {source : String} {s : Stream} {t : Token}

/-- Tokens ahead start with the next one or behind it. -/
theorem advance_start_le (h : Contiguous s.current.stop s.ahead s.stop) (ht : t ∈ s.ahead)
    (htrivia : t.kind.isTrivia = false) : s.advance.current.start.offset ≤ t.start.offset := by
  rw [← s.trivia_append_upcoming] at ht
  rcases List.mem_append.mp ht with ht | ht
  · have hskipped := List.all_eq_true.mp List.all_takeWhile t ht
    rw [htrivia] at hskipped
    cases hskipped
  · obtain ⟨m, _, hupcoming⟩ := contiguous_upcoming h
    cases hu : s.upcoming with
    | nil =>
      rw [hu] at ht
      cases ht
    | cons u us =>
      have hcurrent : s.advance.current.start = u.start := by
        simp only [advance, hu, Token.forGrammar_start]
      have hle := hupcoming.le_start t ht
      rw [hu] at hupcoming
      rwa [hcurrent, hupcoming.1]

namespace OnTokens

theorem leads {u : Stream} (h : s.OnTokens source) (hu : s.Leads u) : u.OnTokens source := by
  induction hu with
  | refl => exact h
  | tail _ hgoes ih =>
    cases hgoes with
    | advance hk => exact ih.advance hk
    | halt => exact ih.halt

theorem prev_isIn (h : s.OnTokens source) : s.prev.IsIn source := by
  rcases h.prev with e | hends
  · rw [e]
    exact ⟨"", source, String.empty_append, rfl, rfl⟩
  · exact hends.isIn

/-- Tokens that do not lie ahead end with the current one or in front of it. -/
theorem stop_le (h : s.OnTokens source) (hs : s.Sound) (ht : t ∈ tokenize source)
    (hahead : t ∉ s.ahead) : t.stop.offset ≤ s.current.stop.offset := by
  obtain ⟨behind, hbehind⟩ := h.ahead
  have hcontig := tokenize_contiguous source
  rw [← hbehind] at hcontig ht
  obtain ⟨m, hfirst, hlast⟩ := hcontig.of_append
  have hrest := hs.ahead
  rw [h.stop] at hrest
  rw [← hlast.start_eq hrest]
  exact hfirst.stop_le t ((List.mem_append.mp ht).resolve_right hahead)

/-- Only the current token starts in front of the next one and not in front of itself. -/
theorem eq_current (h : s.OnTokens source) (hs : s.Sound) (ht : t ∈ tokenize source)
    (htrivia : t.kind.isTrivia = false) (hk : s.current.kind ≠ .eof)
    (hle : s.current.start.offset ≤ t.start.offset)
    (hlt : t.start.offset < s.advance.current.start.offset) :
    s.current = t.forGrammar s.options := by
  have hahead : t ∉ s.ahead := fun ht =>
    absurd hlt (Nat.not_lt.mpr (advance_start_le hs.ahead ht htrivia))
  have hstop := h.stop_le hs ht hahead
  have hfilled := Token.start_lt_stop ht
  rcases h.current with e | ⟨u, hu, _, e⟩
  · exact absurd (congrArg Token.kind e) hk
  · rw [e, Token.forGrammar_start] at hle
    rw [e, Token.forGrammar_stop] at hstop
    rw [Token.eq_of_overlap ht hu (by omega) (by omega), e]

/-- A stream whose current token starts where one of the text does is at that token. -/
theorem at_token {before ts : List Token} (h : s.OnTokens source) (hs : s.Sound)
    (hsource : tokenize source = before ++ t :: ts) (hk : s.current.kind ≠ .eof)
    (hstart : s.current.start = t.start) : s.current = t.forGrammar s.options ∧ s.ahead = ts := by
  have ht : t ∈ tokenize source := by simp [hsource]
  obtain ⟨u, hu, hcurrent⟩ : ∃ u ∈ tokenize source, s.current = u.forGrammar s.options := by
    rcases h.current with e | ⟨u, hu, _, e⟩
    · exact absurd (congrArg Token.kind e) hk
    · exact ⟨u, hu, e⟩
  obtain rfl : u = t := Token.eq_of_start hu ht (by rw [← hstart, hcurrent, Token.forGrammar_start])
  refine ⟨hcurrent, ?_⟩
  have hcontig := tokenize_contiguous source
  rw [hsource] at hcontig
  obtain ⟨m, _, hfrom⟩ := hcontig.of_append
  have hahead : Contiguous u.stop s.ahead s.stop := by
    have hahead := hs.ahead
    rwa [hcurrent, Token.forGrammar_stop] at hahead
  rw [h.stop] at hahead
  have hts : ts <:+ tokenize source := ⟨before ++ [u], by simp [hsource]⟩
  rcases List.suffix_or_suffix_of_suffix h.ahead hts with hsuffix | hsuffix
  · exact hfrom.2.2.2.2.eq_of_suffix hahead hsuffix
  · exact (hahead.eq_of_suffix hfrom.2.2.2.2 hsuffix).symm

end OnTokens

/-! ## The text between two points -/

theorem charsBetween_drop (hi : Nat) (cs ds : List Char) (i : Nat) :
    charsBetween (i + (String.ofList cs).utf8ByteSize) hi i (cs ++ ds) =
      charsBetween (i + (String.ofList cs).utf8ByteSize) hi (i + (String.ofList cs).utf8ByteSize)
        ds := by
  induction cs generalizing i with
  | nil => rfl
  | cons c cs ih =>
    rw [String.ofList_cons, String.utf8ByteSize_append, String.utf8ByteSize_singleton]
    have hc := c.utf8Size_pos
    rw [List.cons_append, charsBetween, if_pos (by omega), ← Nat.add_assoc, ih]

theorem charsBetween_take {lo : Nat} (cs ds : List Char) {i : Nat} (h : lo ≤ i) :
    charsBetween lo (i + (String.ofList cs).utf8ByteSize) i (cs ++ ds) = cs := by
  induction cs generalizing i with
  | nil =>
    cases ds with
    | nil => rfl
    | cons d ds =>
      rw [List.nil_append, charsBetween, if_neg (Nat.not_lt.mpr h)]
      exact if_neg (Nat.lt_irrefl i)
  | cons c cs ih =>
    rw [String.ofList_cons, String.utf8ByteSize_append, String.utf8ByteSize_singleton]
    have hc := c.utf8Size_pos
    rw [List.cons_append, charsBetween, if_neg (by omega), if_pos (by omega), ← Nat.add_assoc,
      ih (by omega)]

theorem textBetween_eq {before text behind : String} (h : s.source = before ++ text ++ behind) :
    s.textBetween before.utf8ByteSize (before.utf8ByteSize + text.utf8ByteSize) = text := by
  have hdrop := charsBetween_drop (before.utf8ByteSize + text.utf8ByteSize) before.toList
    (text.toList ++ behind.toList) 0
  rw [String.ofList_toList, Nat.zero_add] at hdrop
  have htake := charsBetween_take text.toList behind.toList (Nat.le_refl before.utf8ByteSize)
  rw [String.ofList_toList] at htake
  rw [textBetween, h, String.toList_append, String.toList_append, List.append_assoc, hdrop, htake,
    String.ofList_toList]

/-- The text between two points of a source is what stands there. -/
theorem textBetween_of_encloses {p q : Position} {text : String}
    (h : Position.Encloses s.source p q text) : s.textBetween p.offset q.offset = text := by
  obtain ⟨before, behind, hsource, rfl, rfl⟩ := h
  have hbefore : (Position.origin.advance before).offset = before.utf8ByteSize := by
    rw [Position.offset_advance]
    exact Nat.zero_add _
  rw [Position.offset_advance _ text, hbefore, textBetween_eq hsource]

theorem encloses_textBetween {p q : Position} (hp : p.IsIn s.source) (hq : q.IsIn s.source)
    (h : p.offset ≤ q.offset) :
    Position.Encloses s.source p q (s.textBetween p.offset q.offset) := by
  obtain ⟨text, htext⟩ := hp.encloses hq h
  rwa [textBetween_of_encloses htext]

/-- The text between two points is as long as their offsets say. -/
theorem size_textBetween {p q : Position} (hp : p.IsIn s.source) (hq : q.IsIn s.source)
    (h : p.offset ≤ q.offset) :
    p.offset + (s.textBetween p.offset q.offset).utf8ByteSize = q.offset := by
  obtain ⟨_, _, _, _, hstop⟩ := encloses_textBetween hp hq h
  rw [← Position.offset_advance, hstop]

end Stream
end PhpSyntax
