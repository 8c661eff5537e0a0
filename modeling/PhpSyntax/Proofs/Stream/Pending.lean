import PhpSyntax.Proofs.Layout.Aligned
import PhpSyntax.Proofs.Stream.Order

namespace PhpSyntax

/-! ## Tokens in order -/

structure Token.Ordered (ts : List Token) : Prop where
  filled : ∀ t ∈ ts, t.start.offset < t.stop.offset
  pairwise : ts.Pairwise fun t u => t.stop.offset ≤ u.start.offset

theorem Contiguous.ordered {p q : Position} {ts : List Token} (h : Contiguous p ts q) :
    Token.Ordered ts := by
  refine ⟨h.start_lt_stop, ?_⟩
  induction ts generalizing p with
  | nil => exact .nil
  | cons t ts ih =>
    obtain ⟨_, _, _, _, hrest⟩ := h
    exact .cons hrest.le_start (ih hrest)

/-- The tokens that the grammar sees are in the order of their text. -/
theorem grammarTokens_ordered (o : Options) (source : String) :
    Token.Ordered (grammarTokens o source) := by
  have h := (tokenize_contiguous source).ordered
  refine ⟨?_, ?_⟩
  · intro t ht
    obtain ⟨u, hu, rfl⟩ := List.mem_map.mp ht
    rw [Token.forGrammar_start, Token.forGrammar_stop]
    exact h.filled u (List.mem_of_mem_filter hu)
  · rw [grammarTokens, List.pairwise_map]
    simp only [Token.forGrammar_start, Token.forGrammar_stop]
    exact h.pairwise.filter _

namespace Token.Ordered

variable {ts us : List Token} {t : Token}

theorem head_le (h : Ordered ts) (ht : ts.head? = some t) :
    ∀ u ∈ ts, t.start.offset ≤ u.start.offset := by
  intro u hu
  obtain ⟨more, rfl⟩ := List.head?_eq_some_iff.mp ht
  rcases List.mem_cons.mp hu with rfl | hmore
  · exact Nat.le_refl _
  · have hle := (List.pairwise_cons.mp h.pairwise).1 u hmore
    have hlt := h.filled t List.mem_cons_self
    omega

theorem le_getLast (h : Ordered ts) (ht : ts.getLast? = some t) :
    ∀ u ∈ ts, u.stop.offset ≤ t.stop.offset := by
  intro u hu
  obtain ⟨init, rfl⟩ := List.getLast?_eq_some_iff.mp ht
  rcases List.mem_append.mp hu with hinit | hone
  · have hle := (List.pairwise_append.mp h.pairwise).2.2 u hinit t (by simp)
    have hlt := h.filled t (by simp)
    omega
  · rw [List.mem_singleton.mp hone]

theorem append (h : Ordered (ts ++ us)) :
    Ordered ts ∧ Ordered us ∧ ∀ t ∈ ts, ∀ u ∈ us, t.stop.offset ≤ u.start.offset := by
  obtain ⟨hts, hus, hboth⟩ := List.pairwise_append.mp h.pairwise
  exact ⟨⟨fun t ht => h.filled t (List.mem_append_left _ ht), hts⟩,
    ⟨fun t ht => h.filled t (List.mem_append_right _ ht), hus⟩, hboth⟩

end Token.Ordered

namespace Span

variable {span : Span}

def inside (span : Span) (ts : List Token) : List Token :=
  ts.filter fun t => span.start.offset ≤ t.start.offset && t.stop.offset ≤ span.stop.offset

def behind (span : Span) (ts : List Token) : List Token :=
  ts.filter fun t => span.stop.offset ≤ t.start.offset

/-- Where a span starts with one of the tokens and stops with one, those in between lie in it,
and those that come after them lie behind it. -/
theorem inside_split {before ts after : List Token} {first last : Token}
    (h : Token.Ordered (before ++ (ts ++ after))) (hfirst : ts.head? = some first)
    (hlast : ts.getLast? = some last) (hstart : span.start = first.start)
    (hstop : span.stop = last.stop) :
    span.inside (before ++ (ts ++ after)) = ts ∧ span.behind (before ++ (ts ++ after)) = after := by
  obtain ⟨hbefore, hrest, hleft⟩ := h.append
  obtain ⟨hts, hafter, hright⟩ := hrest.append
  have hfirstIn : first ∈ ts := List.mem_of_mem_head? hfirst
  have hlastIn : last ∈ ts := List.mem_of_mem_getLast? hlast
  -- a token in front, in between and behind, with its two ends
  have hfront : ∀ t ∈ before,
      t.start.offset < t.stop.offset ∧ t.stop.offset ≤ span.start.offset := by
    intro t ht
    rw [hstart]
    exact ⟨hbefore.filled t ht, hleft t ht first (List.mem_append_left _ hfirstIn)⟩
  have hmiddle : ∀ t ∈ ts, t.start.offset < t.stop.offset ∧
      span.start.offset ≤ t.start.offset ∧ t.stop.offset ≤ span.stop.offset := by
    intro t ht
    rw [hstart, hstop]
    exact ⟨hts.filled t ht, hts.head_le hfirst t ht, hts.le_getLast hlast t ht⟩
  have hback : ∀ t ∈ after,
      t.start.offset < t.stop.offset ∧ span.stop.offset ≤ t.start.offset := by
    intro t ht
    rw [hstop]
    exact ⟨hafter.filled t ht, hright last hlastIn t ht⟩
  have hspan := hmiddle first hfirstIn
  constructor
  · rw [inside, List.filter_append, List.filter_append, List.filter_eq_nil_iff.mpr,
      List.filter_eq_self.mpr, List.filter_eq_nil_iff.mpr, List.nil_append, List.append_nil]
    all_goals
      intro t ht
      rw [Bool.and_eq_true, decide_eq_true_eq, decide_eq_true_eq]
    · have hends := hback t ht
      omega
    · exact (hmiddle t ht).2
    · have hends := hfront t ht
      omega
  · rw [behind, List.filter_append, List.filter_append, List.filter_eq_nil_iff.mpr,
      List.filter_eq_nil_iff.mpr, List.filter_eq_self.mpr, List.nil_append, List.nil_append]
    all_goals
      intro t ht
      rw [decide_eq_true_eq]
    · exact (hback t ht).2
    · have hends := hmiddle t ht
      omega
    · have hends := hfront t ht
      omega

end Span

/-! ## Streams -/

namespace Stream

variable {source : String} {s : Stream}

def pending (s : Stream) : List Token := if s.current.isEof then [] else s.current :: s.onward

theorem pending_of_eof (hk : s.current.kind = .eof) : s.pending = [] := by
  simp [pending, Token.isEof, hk]

/-- Advancing reads the first of them. -/
theorem pending_advance (hs : s.Sound) (hk : s.current.kind ≠ .eof) :
    s.pending = s.current :: s.advance.pending := by
  have hhere : s.pending = s.current :: s.onward := by simp [pending, Token.isEof, hk]
  rw [hhere, onward_eq]
  obtain ⟨m, _, hupcoming⟩ := contiguous_upcoming hs.ahead
  cases hu : s.upcoming with
  | nil => rw [pending_of_eof (by simp [advance, hu, Token.eof])]
  | cons t ts =>
    rw [hu] at hupcoming
    have hnext : s.advance.current = t.forGrammar s.options := by simp [advance, hu]
    have hne : (t.forGrammar s.options).isEof = false :=
      decide_eq_false (Token.forGrammar_ne_eof s.options hupcoming.2.2.2.1)
    simp [pending, hne, hnext]

theorem pending_cons (hs : s.Sound) {t : Token} {ts : List Token} (h : s.pending = t :: ts) :
    t = s.current ∧ ts = s.advance.pending := by
  have hk : s.current.kind ≠ .eof := by
    intro hk
    rw [pending_of_eof hk] at h
    cases h
  rw [pending_advance hs hk] at h
  obtain ⟨e, e'⟩ := List.cons.inj h
  exact ⟨e.symm, e'.symm⟩

/-- They are the last ones of the text. -/
theorem OnTokens.pending_suffix (h : s.OnTokens source) (hs : s.Sound) {o : Options}
    (ho : s.options = o.effective) : s.pending <:+ grammarTokens o source := by
  by_cases hk : s.current.kind = .eof
  · rw [pending_of_eof hk]
    exact List.nil_suffix
  · obtain ⟨t, ht, htrivia, hcurrent⟩ := h.current.resolve_left fun e => hk (congrArg Token.kind e)
    obtain ⟨before, ts, hsource⟩ := List.append_of_mem ht
    have hstart : s.current.start = t.start := by rw [hcurrent, Token.forGrammar_start]
    obtain ⟨_, hahead⟩ := h.at_token hs hsource hk hstart
    have hhere : s.pending = s.current :: s.onward := by simp [pending, Token.isEof, hk]
    refine ⟨(before.filter (!·.kind.isTrivia)).map (·.forGrammar o.effective), ?_⟩
    rw [hhere, hcurrent, onward, hahead, ho, grammarTokens, hsource, List.filter_append,
      List.map_append, List.filter_cons_of_pos (by simp [htrivia]), List.map_cons]

end Stream

end PhpSyntax
