/-
Names and the tokens that they are made of.

In strict mode a name of a program is what its rule yields from some state, or a keyword
(`Production.Formed`).  The rule is followed from token to token: what it consumes is the
keyword of a relative name or the separator of a fully qualified one, if there is any, then
an identifier, and then separators with an identifier behind each (`Segments`).  It stops
where no such pair comes next, so the tokens in the span of a name are all of them.
-/
import PhpSyntax.Proofs.Account.Passage
import PhpSyntax.Proofs.Scanner.Words
import PhpSyntax.Proofs.Span.Reading
import PhpSyntax.Proofs.Stream.Pending
import PhpSyntax.Proofs.Typing.Tree

namespace PhpSyntax

/-! ## Names and tokens -/

/-- What the tokens of a name make of it: the first one, or else how many segments there
are. -/
def NameResolution.ofTokens (ts : List Token) : NameResolution :=
  match ts.head?.map Token.kind with
  | some .kwNamespace => .relative
  | some .nsSeparator => .fullyQualified
  | _ => if 1 < ts.countP (·.kind = .identifier) then .qualified else .unqualified

structure Token.SpellName (ts : List Token) (word : String) (r : NameResolution) : Prop where
  /-- Their texts are the name. -/
  absolute : r ≠ .relative → String.join (ts.map Token.text) = word
  /-- A relative name stands behind the keyword and a separator. -/
  relative : r = .relative → ∃ keyword rest, ts = keyword :: rest ∧
    IsSpelled "namespace" keyword.text.toList ∧ String.join (rest.map Token.text) = "\\" ++ word
  resolution : r = .ofTokens ts

def TokenKind.nameParts : List TokenKind := [.kwNamespace, .nsSeparator, .identifier]

inductive Segments : List Token → List String → Prop
  | nil : Segments [] []
  | cons {separator word : Token} {ts : List Token} {words : List String}
    (hseparator : separator.kind = .nsSeparator) (hmark : separator.text = "\\")
    (hword : word.kind = .identifier) (hrest : Segments ts words) :
    Segments (separator :: word :: ts) (word.text :: words)

theorem intercalate_cons (word : String) (words : List String) :
    "\\".intercalate (word :: words) = word ++ String.join (words.map ("\\" ++ ·)) := by
  induction words generalizing word with
  | nil => rw [String.intercalate_singleton, List.map_nil, String.join_nil, String.append_empty]
  | cons next words ih =>
    rw [String.intercalate_cons_cons, ih, List.map_cons, String.join_cons, String.append_assoc,
      String.append_assoc]

namespace Segments

variable {first separator keyword : Token} {ts : List Token} {words : List String}

theorem join (h : Segments ts words) :
    String.join (ts.map Token.text) = String.join (words.map ("\\" ++ ·)) := by
  induction h with
  | nil => rfl
  | cons _ hmark _ _ ih =>
    rw [List.map_cons, List.map_cons, List.map_cons, String.join_cons, String.join_cons,
      String.join_cons, ih, hmark, String.append_assoc]

theorem mem_nameParts (h : Segments ts words) : ∀ t ∈ ts, t.kind ∈ TokenKind.nameParts := by
  induction h with
  | nil => exact List.forall_mem_nil _
  | cons hseparator _ hword _ ih =>
    refine List.forall_mem_cons.mpr ⟨?_, List.forall_mem_cons.mpr ⟨?_, ih⟩⟩
    · simp [hseparator, TokenKind.nameParts]
    · simp [hword, TokenKind.nameParts]

theorem countP (h : Segments ts words) : ts.countP (·.kind = .identifier) = words.length := by
  induction h with
  | nil => rfl
  | cons hseparator _ hword _ ih => simp [hseparator, hword, ih]

/-- The first segment and the others are the text of the name. -/
theorem join_cons (h : Segments ts words) :
    String.join ((first :: ts).map Token.text) = "\\".intercalate (first.text :: words) := by
  rw [List.map_cons, String.join_cons, h.join, intercalate_cons]

/-- Where nothing is in front of the segments, their number decides. -/
theorem spell (h : Segments ts words) (hfirst : first.kind = .identifier) :
    Token.SpellName (first :: ts) ("\\".intercalate (first.text :: words))
      (if words.isEmpty then .unqualified else .qualified) where
  absolute := fun _ => h.join_cons
  relative := by
    split
    all_goals exact nofun
  resolution := by
    cases words with
    | nil => simp [NameResolution.ofTokens, hfirst, h.countP]
    | cons => simp [NameResolution.ofTokens, hfirst, h.countP]

theorem spell_separator (h : Segments ts words) (first : Token) (hk : separator.kind = .nsSeparator)
    (hmark : separator.text = "\\") :
    Token.SpellName (separator :: first :: ts)
      ("\\" ++ "\\".intercalate (first.text :: words)) .fullyQualified where
  absolute := fun _ => by rw [List.map_cons, String.join_cons, hmark, h.join_cons]
  relative := nofun
  resolution := by simp [NameResolution.ofTokens, hk]

theorem spell_keyword (h : Segments ts words) (first : Token) (hk : keyword.kind = .kwNamespace)
    (hword : IsSpelled "namespace" keyword.text.toList) (hmark : separator.text = "\\") :
    Token.SpellName (keyword :: separator :: first :: ts)
      ("\\".intercalate (first.text :: words)) .relative where
  absolute := fun hne => absurd rfl hne
  relative := fun _ => ⟨keyword, _, rfl, hword, by
    rw [List.map_cons, String.join_cons, hmark, h.join_cons]⟩
  resolution := by simp [NameResolution.ofTokens, hk]

end Segments

/-! ## Consuming tokens -/

namespace Stream.OnTokens

variable {source : String} {s : Stream}

/-- The current token is spelled as one of the text of the same kind. -/
theorem genuine_text (h : s.OnTokens source) (hk : s.current.kind ∉ .eof :: TokenKind.assumed) :
    ∃ t ∈ tokenize source, t.kind = s.current.kind ∧ t.text = s.current.text := by
  obtain ⟨heof, hassumed⟩ := List.ne_and_not_mem_of_not_mem_cons hk
  obtain ⟨t, ht, e⟩ := h.token heof
  rw [e] at hassumed ⊢
  have hkind := (Token.forGrammar_kind s.options t).resolve_right hassumed
  exact ⟨t, ht, hkind.symm, by rw [Token.forGrammar_text]⟩

theorem text_separator (h : s.OnTokens source) (hk : s.current.kind = .nsSeparator) :
    s.current.text = "\\" := by
  obtain ⟨t, ht, hkind, htext⟩ := h.genuine_text (by rw [hk]; decide)
  rw [hk] at hkind
  obtain ⟨spelling, hmem, hkind', htext'⟩ :=
    tokenize_symbol ht (by rw [hkind]; rfl) (by rw [hkind]; nofun)
  have hall : ∀ e ∈ symbols, e.2 = .nsSeparator → e.1 = "\\" := by decide
  rw [← htext, htext']
  exact hall _ hmem (hkind'.symm.trans hkind)

theorem text_namespace (h : s.OnTokens source) (hk : s.current.kind = .kwNamespace) :
    IsSpelled "namespace" s.current.text.toList := by
  obtain ⟨t, ht, hkind, htext⟩ := h.genuine_text (by rw [hk]; decide)
  rw [hk] at hkind
  have hkeyword : Lexeme.keyword? t.text.toList = some .kwNamespace := by
    rw [← hkind]
    exact (tokenize_spelled ht).reserved (by rw [hkind]; decide)
  have hall : ∀ e ∈ keywords, e.2 = .kwNamespace → e.1 = "namespace" := by decide
  rw [← htext, ← hall _ (Lexeme.mem_of_lookup hkeyword) rfl]
  exact Lexeme.isSpelled_lower _

end Stream.OnTokens

namespace ParseState

/-- From the state `s` to the state `t` the tokens `ts` are consumed, none of which ends a
statement. -/
structure Consumes (source : String) (s : ParseState) (ts : List Token) (t : ParseState) :
    Prop where
  reading : t.Reading source
  options : t.stream.options = s.stream.options
  pending : s.stream.pending = ts ++ t.stream.pending
  prev : t.stream.prev = (ts.getLast?.map Token.stop).getD s.stream.prev

namespace Consumes

variable {source : String} {s t u : ParseState} {ts us : List Token}

theorem here (h : s.Reading source) : s.Consumes source [] s := ⟨h, rfl, rfl, rfl⟩

theorem advance (h : s.Reading source) (hk : s.kind ≠ .eof) (hne : s.kind ≠ .semicolon) :
    s.Consumes source [s.stream.current] s.advance where
  reading := h.advance hk
  options := rfl
  pending := Stream.pending_advance h.sound hk
  prev := by
    have htag : s.stream.atTag = false := by
      rw [Stream.atTag, show decide (s.stream.current.kind = .semicolon) = false from
        decide_eq_false hne, Bool.false_and]
    show s.stream.advance.prev = s.stream.current.stop
    simp [Stream.advance, htag]

/-- Nothing is consumed where the stream stays as it is. -/
theorem same (h : t.Consumes source ts u) (ht : t.stream = s.stream) :
    s.Consumes source ts u where
  reading := h.reading
  options := ht ▸ h.options
  pending := ht ▸ h.pending
  prev := ht ▸ h.prev

theorem sameEnd (h : s.Consumes source ts u) (hu : t.stream = u.stream) :
    s.Consumes source ts t where
  reading := h.reading.same hu
  options := hu ▸ h.options
  pending := hu ▸ h.pending
  prev := hu ▸ h.prev

theorem trans (h : s.Consumes source ts t) (h' : t.Consumes source us u) :
    s.Consumes source (ts ++ us) u where
  reading := h'.reading
  options := h'.options.trans h.options
  pending := by rw [h.pending, h'.pending, List.append_assoc]
  prev := by
    rw [h'.prev, h.prev, List.getLast?_append]
    cases us.getLast? <;> rfl

end Consumes

def EndsName (s : ParseState) : Prop := ¬(s.kind = .nsSeparator ∧ s.stream.peek = .identifier)

end ParseState

/-! ## The rules -/

namespace Grammar

variable {source : String} {s t : ParseState}

theorem segments_eq :
    segments = (Parser.isAt .nsSeparator >>= fun mark => Parser.peek >>= fun next =>
      if mark && decide (next = .identifier) then
        Parser.advance >>= fun _ => Parser.text >>= fun word => Parser.advance >>= fun _ =>
          Parser.call .segments >>= fun rest => pure (word :: rest)
      else pure []) := rfl

/-- Segments are read as long as there are any. -/
theorem segments_yields (hs : s.Reading source) {words : List String}
    (h : segments.Yields s words t) :
    ∃ ts, s.Consumes source ts t ∧ Segments ts words ∧ t.EndsName := by
  induction words generalizing s with
  | nil =>
    rw [segments_eq, Parser.yields_isAt_bind, Parser.peek, Parser.yields_read_bind] at h
    split at h
    · rw [Parser.yields_advance_bind] at h
      obtain ⟨rest, u, _, h⟩ := Parser.yields_bind.mp (Parser.yields_advance_bind.mp h)
      cases (Parser.yields_pure.mp h).1
    · next hnone =>
      obtain ⟨_, rfl⟩ := Parser.yields_pure.mp h
      refine ⟨[], .here hs, .nil, fun ⟨hk, hp⟩ => hnone ?_⟩
      rw [decide_eq_true hk, Bool.true_and]
      exact decide_eq_true hp
  | cons word words ih =>
    rw [segments_eq, Parser.yields_isAt_bind, Parser.peek, Parser.yields_read_bind] at h
    split at h
    · next hmore =>
      rw [Bool.and_eq_true, decide_eq_true_eq, decide_eq_true_eq] at hmore
      obtain ⟨hk, hpeek⟩ := hmore
      have hk' : s.advance.kind = .identifier := (Stream.advance_kind s.stream).trans hpeek
      have hmark := Stream.OnTokens.text_separator hs.tokens hk
      have hfirst := ParseState.Consumes.advance hs (by simp [hk]) (by simp [hk])
      have hsecond := ParseState.Consumes.advance hfirst.reading (by simp [hk']) (by simp [hk'])
      rw [Parser.yields_advance_bind] at h
      obtain ⟨rest, u, hrest, h⟩ := Parser.yields_bind.mp (Parser.yields_advance_bind.mp h)
      obtain ⟨e, rfl⟩ := Parser.yields_pure.mp h
      obtain ⟨rfl, rfl⟩ := List.cons.inj e
      obtain ⟨ts, hts, hsegments, hends⟩ := ih hsecond.reading (Parser.yields_call.mp hrest)
      exact ⟨_, (hfirst.trans hsecond).trans hts, .cons hk hmark hk' hsegments, hends⟩
    · cases (Parser.yields_pure.mp h).1

/-- What a name is from its first segment on. -/
theorem nameFrom_yields (hs : s.Reading source) {o : Opened} {lead : String} {r : NameResolution}
    {n : Node} (h : (nameFrom o lead r).Yields s n t) :
    ∃ first ts words u, first.kind = .identifier ∧ s.Consumes source (first :: ts) u ∧
      Segments ts words ∧ u.EndsName ∧ t.stream = u.stream ∧
      n = ⟨(u.finishNode o).1, .name (lead ++ "\\".intercalate (first.text :: words))
        (if r = .unqualified && !words.isEmpty then .qualified else r)⟩ := by
  rw [nameFrom, Parser.yields_isAt_bind] at h
  split at h
  · next hk =>
    have hk : s.kind = .identifier := of_decide_eq_true hk
    have hfirst := ParseState.Consumes.advance hs (by simp [hk]) (by simp [hk])
    rw [Parser.text, Parser.yields_read_bind, Parser.yields_advance_bind] at h
    obtain ⟨words, u, hwords, h⟩ := Parser.yields_bind.mp h
    obtain ⟨ts, hts, hsegments, hends⟩ :=
      segments_yields hfirst.reading (Parser.yields_call.mp hwords)
    obtain ⟨hn, rfl⟩ := Parser.yields_finish.mp h
    exact ⟨_, ts, words, u, hk, hfirst.trans hts, hsegments, hends, rfl, hn⟩
  · obtain ⟨_, _, hmissing, _⟩ := Parser.yields_bind.mp h
    exact absurd hmissing (Parser.not_yields_missing hs.strict)

/-- There is no name at the end of the text. -/
theorem kind_ne_eof_of_name (hs : s.tolerates = false) {n : Node} (h : name.Yields s n t) :
    s.kind ≠ .eof := by
  intro hk
  have hk : s.openNode.2.kind = .eof := hk
  rw [name, Parser.yields_openNode_bind, Parser.yields_isAt_bind, hk] at h
  obtain ⟨b, v, hv, h⟩ := Parser.yields_bind.mp h
  rcases Parser.yields_eat.mp hv with ⟨hk', _⟩ | ⟨_, rfl, rfl⟩
  · rw [hk] at hk'
    cases hk'
  · rw [if_neg Bool.false_ne_true, nameFrom, Parser.yields_isAt_bind, hk] at h
    obtain ⟨_, _, hmissing, _⟩ := Parser.yields_bind.mp h
    exact Parser.not_yields_missing (s := s.openNode.2) hs hmissing

/-- The tokens of a name are consumed from its state on. -/
theorem name_yields (hs : s.Reading source) {n : Node} (h : name.Yields s n t) :
    ∃ ts u word r, ts ≠ [] ∧ s.Consumes source ts u ∧ u.EndsName ∧ t.stream = u.stream ∧
      (∀ part ∈ ts, part.kind ∈ TokenKind.nameParts) ∧ Token.SpellName ts word r ∧
      n = ⟨(u.finishNode s.openNode.1).1, .name word r⟩ := by
  have hopen : s.openNode.2.Reading source := hs.same rfl
  have hsame {ts : List Token} {u : ParseState} (h : s.openNode.2.Consumes source ts u) :
      s.Consumes source ts u := h.same rfl
  have hpart {part : Token} {k : TokenKind} (h : part.kind = k) (hk : k ∈ TokenKind.nameParts) :
      part.kind ∈ TokenKind.nameParts := h ▸ hk
  have hparts {first : Token} {ts : List Token} {words : List String}
      (hfirst : first.kind = .identifier) (h : Segments ts words) :
      ∀ part ∈ first :: ts, part.kind ∈ TokenKind.nameParts :=
    List.forall_mem_cons.mpr ⟨hpart hfirst (by decide), h.mem_nameParts⟩
  rw [name, Parser.yields_openNode_bind, Parser.yields_isAt_bind] at h
  split at h
  · next hk =>
    have hk : s.openNode.2.kind = .kwNamespace := of_decide_eq_true hk
    have hword := Stream.OnTokens.text_namespace hopen.tokens hk
    have hkeyword := ParseState.Consumes.advance hopen (by simp [hk]) (by simp [hk])
    rw [Parser.yields_advance_bind] at h
    obtain ⟨_, v, hv, h⟩ := Parser.yields_bind.mp h
    obtain ⟨hk', rfl⟩ := (Parser.yields_require hkeyword.reading.strict).mp hv
    have hmark := Stream.OnTokens.text_separator hkeyword.reading.tokens hk'
    have hseparator := ParseState.Consumes.advance hkeyword.reading (by simp [hk']) (by simp [hk'])
    obtain ⟨first, ts, words, u, hfirst, hts, hsegments, hends, ht, rfl⟩ :=
      nameFrom_yields hseparator.reading h
    have hname := hsegments.spell_keyword first hk hword hmark
    refine ⟨_, u, _, _, by simp, hsame ((hkeyword.trans hseparator).trans hts), hends, ht, ?_,
      hname, ?_⟩
    · exact List.forall_mem_cons.mpr ⟨hpart hk (by decide),
        List.forall_mem_cons.mpr ⟨hpart hk' (by decide), hparts hfirst hsegments⟩⟩
    · simp
  · obtain ⟨b, v, hv, h⟩ := Parser.yields_bind.mp h
    rcases Parser.yields_eat.mp hv with ⟨hk, rfl, rfl⟩ | ⟨_, rfl, rfl⟩
    · have hmark := Stream.OnTokens.text_separator hopen.tokens hk
      have hseparator := ParseState.Consumes.advance hopen (by simp [hk]) (by simp [hk])
      obtain ⟨first, ts, words, u, hfirst, hts, hsegments, hends, ht, rfl⟩ :=
        nameFrom_yields hseparator.reading h
      have hname := hsegments.spell_separator first hk hmark
      refine ⟨_, u, _, _, by simp, hsame (hseparator.trans hts), hends, ht, ?_, hname, ?_⟩
      · exact List.forall_mem_cons.mpr ⟨hpart hk (by decide), hparts hfirst hsegments⟩
      · simp
    · obtain ⟨first, ts, words, u, hfirst, hts, hsegments, hends, ht, rfl⟩ :=
        nameFrom_yields hopen h
      refine ⟨_, u, _, _, by simp, hsame hts, hends, ht, hparts hfirst hsegments,
        hsegments.spell hfirst, ?_⟩
      cases words <;> simp

end Grammar

/-! ## Spans -/

/-- The tokens `inside` a name make its text `word` and its resolution, and no more segments
come `behind` it. -/
structure Token.MakeName (inside behind : List Token) (word : String) (r : NameResolution) :
    Prop where
  spelled : Token.SpellName inside word r
  ends : ∀ t u more, behind = t :: u :: more → ¬(t.kind = .nsSeparator ∧ u.kind = .identifier)

namespace ParseState

variable {source : String} {s t : ParseState} {ts : List Token}

theorem EndsName.pending (h : s.EndsName) (hs : s.stream.Sound) :
    ∀ t u more, s.stream.pending = t :: u :: more →
      ¬(t.kind = .nsSeparator ∧ u.kind = .identifier) := by
  intro t u more hpending ⟨ht, hu⟩
  obtain ⟨rfl, hrest⟩ := Stream.pending_cons hs hpending
  obtain ⟨rfl, _⟩ := Stream.pending_cons (Stream.advance_sound hs) hrest.symm
  rw [Stream.advance_kind] at hu
  exact h ⟨ht, hu⟩

/-- The tokens that are consumed while a node is open are those in its span. -/
theorem Consumes.inside (h : s.Consumes source ts t) (hs : s.Reading source) {o : Options}
    (ho : s.stream.options = o.effective) (hne : ts ≠ []) :
    let span := (t.finishNode s.openNode.1).1.span
    span.inside (grammarTokens o source) = ts ∧
      span.behind (grammarTokens o source) = t.stream.pending := by
  obtain ⟨before, hbefore⟩ := hs.tokens.pending_suffix hs.sound ho
  have hordered := grammarTokens_ordered o source
  rw [← hbefore, h.pending] at hordered ⊢
  obtain ⟨first, more, rfl⟩ := List.exists_cons_of_ne_nil hne
  obtain ⟨rfl, _⟩ := Stream.pending_cons hs.sound h.pending
  obtain ⟨last, hlast⟩ : ∃ last, (s.stream.current :: more).getLast? = some last :=
    ⟨_, List.getLast?_eq_some_getLast hne⟩
  have hprev : t.stream.prev = last.stop := by rw [h.prev, hlast]; rfl
  have hts := hordered.append.2.1.append.1
  have hle : s.stream.current.start.offset ≤ t.stream.prev.offset := by
    have hhead := hts.filled _ List.mem_cons_self
    have hstop := hts.le_getLast hlast _ List.mem_cons_self
    rw [hprev]
    omega
  have hstop : (t.finishNode s.openNode.1).1.span.stop = last.stop := by
    rw [← hprev]
    exact if_pos hle
  exact Span.inside_split hordered rfl hlast rfl hstop

end ParseState

/-- A keyword that stands for a name is the only token in its span. -/
theorem Span.IsKeyword.inside {span : Span} {source : String} {o : Options}
    (h : span.IsKeyword (.outermost source o)) :
    ∃ k, span.inside (grammarTokens o source) = [k] ∧ k.kind ∈ TokenKind.nameKeywords := by
  obtain ⟨s, ho, hsound, htokens, hk, hstart, hstop⟩ := h
  have htokens : s.OnTokens source := htokens
  have heof : s.current.kind ≠ .eof := by
    intro e
    rw [e] at hk
    exact absurd hk (by decide)
  obtain ⟨before, hbefore⟩ := htokens.pending_suffix hsound ho
  have hordered := grammarTokens_ordered o source
  rw [← hbefore, Stream.pending_advance hsound heof] at hordered ⊢
  have hsplit : span.inside (before ++ ([s.current] ++ s.advance.pending)) = [s.current] :=
    (inside_split hordered rfl rfl hstart hstop).1
  exact ⟨s.current, hsplit, hk⟩

def Production.nameOf? {α : Type} : Production α → Option (String × NameResolution)
  | .name word r => some (word, r)
  | _ => none

theorem Production.nameOf?_eq {α : Type} {p : Production α} {word : String}
    {r : NameResolution} : p.nameOf? = some (word, r) ↔ p = .name word r := by
  cases p <;> simp [nameOf?]

theorem Production.nameOf?_map {α β : Type} (f : α → β) (p : Production α) :
    (p.map f).nameOf? = p.nameOf? := by
  cases p <;> rfl

/-- A name that its rule yields is made of the tokens in its span. -/
theorem Node.Named.makeName {n : Node} {source : String} {o : Options} {word : String}
    {r : NameResolution} (h : n.Named (.outermost source o)) (hs : o.suppressErrors = false)
    (hp : n.production = .name word r) :
    Token.MakeName (n.span.inside (grammarTokens o source))
      (n.span.behind (grammarTokens o source)) word r := by
  obtain ⟨s, t, ho, hmode, hsound, htokens, hyields⟩ := h
  have hstrict : s.tolerates = false := by
    rw [hmode, Scope.outermost_strict source hs]
    rfl
  have hreading : s.Reading source :=
    ⟨hstrict, hsound, htokens (Grammar.kind_ne_eof_of_name hstrict hyields)⟩
  obtain ⟨ts, u, word', r', hne, hts, hends, _, _, hname, rfl⟩ :=
    Grammar.name_yields hreading hyields
  cases hp
  obtain ⟨hinside, hbehind⟩ := hts.inside hreading ho hne
  rw [hinside, hbehind]
  exact ⟨hname, hends.pending hts.reading.sound⟩

/-- In strict mode a name is made of the tokens in its span, unless it is a keyword: their texts
put together are the name, behind the keyword and a separator if it is relative, they tell how
it is resolved, and no separator with an identifier behind it comes next. -/
theorem names_reconstructed {source : String} {fileName : Option String} {o : Options}
    {p : Program} (h : parse source fileName o = .ok p) (hs : o.suppressErrors = false) :
    ∀ n ∈ p.tree, ∀ word r, n.production = .name word r →
      (∀ k, n.span.inside (grammarTokens o source) = [k] → k.kind ∉ TokenKind.nameKeywords) →
      Token.MakeName (n.span.inside (grammarTokens o source))
        (n.span.behind (grammarTokens o source)) word r := by
  obtain ⟨children, s, hstatements, rfl⟩ := parse_statements h
  intro n hn word r hp hkeyword
  rw [ParseState.completed_tree] at hn
  obtain ⟨m, hm, rfl⟩ := List.mem_map.mp hn
  have hproduction : m.production = .name word r := by
    rw [Node.production_mapInfo, ← Production.nameOf?_eq, Production.nameOf?_map] at hp
    exact Production.nameOf?_eq.mp hp
  have hformed := statementsFrom_wellFormed hstatements m hm
  rw [Node.span_mapInfo (Trivia.span_deliver _)] at hkeyword ⊢
  rcases hformed.named (by rw [hproduction]; rfl) with ⟨k, hnamed, hk, hspan⟩ | hone
  · rw [← hspan]
    exact hnamed.makeName hs (hk.trans hproduction)
  · obtain ⟨k, hinside, hk⟩ := hone.inside
    exact absurd hk (hkeyword k hinside)

/-- A relative name in capitals with a comment in it. -/
theorem names_reconstructed_relative :
    ∃ p, parse "<?php NAMESPACE\\A /* b */ \\c\n();" none {} = .ok p ∧
      ∃ n ∈ p.tree, n.production = .name "A\\c" .relative ∧
        (n.span.inside (grammarTokens {} "<?php NAMESPACE\\A /* b */ \\c\n();")).map Token.text =
          ["NAMESPACE", "\\", "A", "\\", "c"] ∧
        Token.MakeName (n.span.inside (grammarTokens {} "<?php NAMESPACE\\A /* b */ \\c\n();"))
          (n.span.behind (grammarTokens {} "<?php NAMESPACE\\A /* b */ \\c\n();")) "A\\c"
          .relative := by
  have hrun : ((parse "<?php NAMESPACE\\A /* b */ \\c\n();" none {}).toOption.any fun p =>
      p.tree.any fun n =>
        decide (n.production.nameOf? = some ("A\\c", .relative)) &&
        decide ((n.span.inside (grammarTokens {} "<?php NAMESPACE\\A /* b */ \\c\n();")).map
          Token.text = ["NAMESPACE", "\\", "A", "\\", "c"])) = true := by
    rw [parse_eq, statementsFrom_eq]
    decide +kernel
  obtain ⟨p, hp, hany⟩ := parse_of_any hrun
  obtain ⟨n, hn, hboth⟩ := List.any_eq_true.mp hany
  obtain ⟨hname, htexts⟩ := Bool.and_eq_true_iff.mp hboth
  have htexts := of_decide_eq_true htexts
  have hproduction : n.production = .name "A\\c" .relative :=
    Production.nameOf?_eq.mp (of_decide_eq_true hname)
  refine ⟨p, hp, n, hn, hproduction, htexts, ?_⟩
  refine names_reconstructed hp rfl n hn _ _ hproduction fun k hone => ?_
  rw [hone] at htexts
  exact absurd (congrArg List.length htexts) (show ¬1 = 5 by decide)

end PhpSyntax
