/-
The anchors of counted loops.

In strict mode a counted loop has four anchors, one for each token of its header.  Each
lies behind its token, in the column where the token starts (`Token.anchor`), unless the
token is a closing tag that stands for a semicolon: a closing tag moves no boundary, and
its anchor lies behind the last token in front of it that is none.

A loop of a program is what its rule yields from some state (`Production.Formed`), so the
rule is followed from token to token, and what is read in between lies between the tokens.
-/
import PhpSyntax.Proofs.Span.Reading
import PhpSyntax.Proofs.Typing.Tree

namespace PhpSyntax

structure Token.Separates (t : Token) (p : Position) : Prop where
  kind : t.kind = .semicolon ∨ t.kind = .closeTag
  exact : t.kind = .semicolon → p = t.anchor
  tag : t.kind = .closeTag → p.offset ≤ t.start.offset

/-- The tokens in the header of a counted loop, and the anchors of the separators. -/
structure Header where
  leftParen : Token
  first : Token
  second : Token
  rightParen : Token
  firstAnchor : Position
  secondAnchor : Position

namespace Header

def tokens (h : Header) : List Token := [h.leftParen, h.first, h.second, h.rightParen]

def anchors (h : Header) : List (Anchor × Position) :=
  [(.leftParen, h.leftParen.anchor), (.firstSemicolon, h.firstAnchor),
    (.secondSemicolon, h.secondAnchor), (.rightParen, h.rightParen.anchor)]

structure Heads (h : Header) (source : String) (span : Span) (init test increment : List Node)
    (body : Node) : Prop where
  tokens : ∀ t ∈ h.tokens, t ∈ tokenize source
  leftParen : h.leftParen.kind = .lParen
  first : h.first.Separates h.firstAnchor
  second : h.second.Separates h.secondAnchor
  rightParen : h.rightParen.kind = .rParen
  start : span.start.offset < h.leftParen.start.offset
  init : Between h.leftParen h.first init
  test : Between h.first h.second test
  increment : Between h.second h.rightParen increment
  body : h.rightParen.stop.offset ≤ body.span.start.offset
  stop : h.rightParen.stop.offset ≤ span.stop.offset
  anchors : span.anchors = h.anchors
  ordered : h.leftParen.stop.offset ≤ h.firstAnchor.offset ∧
    h.firstAnchor.offset ≤ h.secondAnchor.offset ∧
      h.secondAnchor.offset ≤ h.rightParen.start.offset

end Header

/-! ## Marks -/

/-- A mark in a header is one character. -/
theorem Token.isPlain_of_mark {source : String} {t : Token} (ht : t ∈ tokenize source)
    (hk : t.kind ∈ TokenKind.headerMarks) : t.IsPlain 1 := by
  have hmark := (tokenize_spelled ht).mark hk
  have hk' : t.kind = .lParen ∨ t.kind = .semicolon ∨ t.kind = .rParen := by
    simpa [TokenKind.headerMarks] using hk
  have hone {c : Char} (hc : c.utf8Size = 1 ∧ c ≠ '\n') (hmark : some t.text.toList = some [c]) :
      t.IsPlain 1 := by
    have htext := Option.some.inj hmark
    exact ⟨htext ▸ List.forall_mem_singleton.mpr hc, htext ▸ rfl⟩
  rcases hk' with hk | hk | hk
  all_goals
    rw [hk] at hmark
    exact hone (by decide) hmark.symm

namespace Stream.OnTokens

variable {source : String} {s : Stream}

/-- A parenthesis that is consumed has its anchor at the boundary. -/
theorem paren (h : s.OnTokens source) (hk : s.current.kind = .lParen ∨ s.current.kind = .rParen) :
    ∃ t ∈ tokenize source, t.kind = s.current.kind ∧ t.start = s.current.start ∧
      t.stop = s.current.stop ∧ s.advance.prev.back 1 = t.anchor := by
  have hne : s.current.kind ∉ .eof :: TokenKind.assumed := by
    rcases hk with hk | hk <;> simp [hk, TokenKind.assumed]
  obtain ⟨t, ht, hkind, hstart, hstop, hanchor, _⟩ := h.anchor hne fun t ht hkind => by
    refine Token.isPlain_of_mark ht ?_
    rw [hkind]
    rcases hk with hk | hk <;> simp [TokenKind.headerMarks, hk]
  exact ⟨t, ht, hkind, hstart, hstop, hanchor⟩

/-- A separator that is consumed has its anchor at the boundary. -/
theorem separator (h : s.OnTokens source) (hs : s.Sound) (hk : s.current.kind = .semicolon) :
    ∃ t ∈ tokenize source, t.start = s.current.start ∧ t.stop = s.current.stop ∧
      t.Separates (s.advance.prev.back 1) := by
  obtain ⟨t, ht, e⟩ := h.token (by simp [hk])
  have hstart : t.start = s.current.start := by rw [e, Token.forGrammar_start]
  have hstop : t.stop = s.current.stop := by rw [e, Token.forGrammar_stop]
  have hkind : t.kind = .semicolon ∨ t.kind = .closeTag := by
    rw [e] at hk
    unfold Token.forGrammar at hk
    repeat' split at hk
    all_goals simp_all
  refine ⟨t, ht, hstart, hstop, hkind, fun hmark => ?_, fun htag => ?_⟩
  · have hin : t.kind ∈ TokenKind.headerMarks := by simp [TokenKind.headerMarks, hmark]
    have htext : s.current.text = ";" := by
      have hspell := (tokenize_spelled ht).mark hin
      rw [hmark] at hspell
      have hsame : s.current.text = t.text := by rw [e]; simp [Token.forGrammar, hmark]
      rw [hsame]
      exact String.toList_inj.mp (Option.some.inj hspell).symm
    have hprev : s.advance.prev = t.stop := by simp [Stream.advance, atTag, htext, hstop]
    rw [hprev]
    exact ((Token.isPlain_of_mark ht hin).back_stop ht).1
  · have htext : s.current.text ≠ ";" := by
      have hsame : s.current.text = t.text := by rw [e]; simp [Token.forGrammar, htag]
      rw [hsame]
      exact fun h' => (tokenize_spelled ht).closing htag (by rw [h']; rfl)
    have hprev : s.advance.prev = s.prev := by simp [Stream.advance, atTag, hk, htext]
    rw [hprev, hstart]
    exact hs.prev_le

end Stream.OnTokens

/-! ## Parts of the rule -/

namespace Grammar

variable {source : String} {s t : ParseState}

/-- A part of the header is read up to its mark, and its anchor is that of the mark. -/
theorem forPart_yields (hs : s.Reading source) {close : TokenKind} {ns : List Node}
    {a : Option Position} (h : (forPart close).Yields s (ns, a) t) :
    ∃ u, s.Reads source ns u ∧ u.kind = close ∧ a = some (u.advance.stream.prev.back 1) ∧
      t = u.advance := by
  have hrest {ms : List Node} {u : ParseState} (hu : s.Reads source ms u)
      (h : (anchored close 1 >>= fun anchor => pure (ms, anchor)).Yields u (ns, a) t) :
      ∃ u, s.Reads source ns u ∧ u.kind = close ∧ a = some (u.advance.stream.prev.back 1) ∧
        t = u.advance := by
    obtain ⟨b, v, hb, h⟩ := Parser.yields_bind.mp h
    obtain ⟨hk, rfl, rfl⟩ := (anchored_yields hu.reading.strict).mp hb
    obtain ⟨e, rfl⟩ := Parser.yields_pure.mp h
    cases e
    exact ⟨u, hu, hk, rfl, rfl⟩
  rw [forPart, Parser.yields_isAt_bind] at h
  split at h
  · exact hrest hs.here h
  · obtain ⟨ms, u, hms, h⟩ := Parser.yields_bind.mp h
    have hmoves := ((separated_sat ⟨by decide, rfl⟩ hs.stage (by decide)).of_yields hs.sound hms).moves
    exact hrest (hs.reads hmoves) h

/-- The states at the marks of the header, and behind the body, from which a loop is put
together that the rule yields. -/
theorem forStatement_yields {n : Node} (hopen : s.openNode.2.advance.Reading source)
    (h : forStatement.Yields s n t) :
    ∃ u v w x init test increment body shortform,
      s.openNode.2.advance.kind = .lParen ∧
      s.openNode.2.advance.advance.Reads source init u ∧ u.kind = .semicolon ∧
      u.advance.Reads source test v ∧ v.kind = .semicolon ∧
      v.advance.Reads source increment w ∧ w.kind = .rParen ∧
      w.advance.Reads source [body] x ∧
      n = withAnchors ⟨(x.finishNode s.openNode.1).1, .for init test increment body shortform⟩
        [(.leftParen, some (s.openNode.2.advance.advance.stream.prev.back 1)),
          (.firstSemicolon, some (u.advance.stream.prev.back 1)),
          (.secondSemicolon, some (v.advance.stream.prev.back 1)),
          (.rightParen, some (w.advance.stream.prev.back 1))] := by
  rw [forStatement, Parser.yields_openNode_bind, Parser.yields_advance_bind] at h
  obtain ⟨leftParen, s₁, hmark, h⟩ := Parser.yields_bind.mp h
  obtain ⟨hl, rfl, rfl⟩ := (anchored_yields hopen.strict).mp hmark
  obtain ⟨⟨init, first⟩, s₂, hinit, h⟩ := Parser.yields_bind.mp h
  obtain ⟨u, hu, huk, rfl, rfl⟩ := forPart_yields (hopen.advance (by simp [hl])) hinit
  obtain ⟨⟨test, second⟩, s₃, htest, h⟩ := Parser.yields_bind.mp h
  obtain ⟨v, hv, hvk, rfl, rfl⟩ := forPart_yields (hu.reading.advance (by simp [huk])) htest
  obtain ⟨⟨increment, rightParen⟩, s₄, hincrement, h⟩ := Parser.yields_bind.mp h
  obtain ⟨w, hw, hwk, rfl, rfl⟩ := forPart_yields (hv.reading.advance (by simp [hvk])) hincrement
  obtain ⟨⟨body, shortform⟩, x, hbody, h⟩ := Parser.yields_bind.mp h
  have hx := loopBody_yields (hw.reading.advance (by simp [hwk])) (by decide) hbody
  obtain ⟨m, y, hm, h⟩ := Parser.yields_bind.mp h
  obtain ⟨rfl, rfl⟩ := Parser.yields_finish.mp hm
  obtain ⟨rfl, rfl⟩ := Parser.yields_pure.mp h
  exact ⟨u, v, w, x, init, test, increment, body, shortform, hl, hu, huk, hv, hvk, hw, hwk, hx, rfl⟩

/-- The header of a loop that the rule yields. -/
theorem forStatement_heads (hs : s.Reading source) (hk : s.kind = .kwFor) {n : Node}
    (h : forStatement.Yields s n t) :
    ∃ init test increment body shortform header,
      n.production = .for init test increment body shortform ∧
        Header.Heads header source n.span init test increment body := by
  have hfor : s.kind ≠ .eof := by simp [hk]
  have hopen := hs.opened hfor
  obtain ⟨u, v, w, x, init, test, increment, body, shortform, hlk, hu, huk, hv, hvk, hw, hwk, hx,
    rfl⟩ := forStatement_yields hopen h
  obtain ⟨l, hl, hlkind, hlstart, hlstop, hlanchor⟩ := hopen.tokens.paren (Or.inl hlk)
  obtain ⟨f, hf, hfstart, hfstop, hfseparates⟩ := hu.reading.tokens.separator hu.reading.sound huk
  obtain ⟨g, hg, hgstart, hgstop, hgseparates⟩ := hv.reading.tokens.separator hv.reading.sound hvk
  obtain ⟨r, hr, hrkind, hrstart, hrstop, hranchor⟩ := hw.reading.tokens.paren (Or.inr hwk)
  have hlanchor : s.openNode.2.advance.advance.stream.prev.back 1 = l.anchor := hlanchor
  have hranchor : w.advance.stream.prev.back 1 = r.anchor := hranchor
  have hlprev : s.openNode.2.advance.advance.stream.prev.offset = l.stop.offset :=
    (congrArg Position.offset hlanchor : _)
  have hrprev : w.advance.stream.prev.offset = r.stop.offset :=
    (congrArg Position.offset hranchor : _)
  have hlbehind := hopen.stop_le hlstop
  have hfbehind := hu.reading.stop_le hfstop
  have hgbehind := hv.reading.stop_le hgstop
  have hrbehind := hw.reading.stop_le hrstop
  refine ⟨init, test, increment, body, shortform,
    ⟨l, f, g, r, u.advance.stream.prev.back 1, v.advance.stream.prev.back 1⟩, rfl,
    { tokens := ?_
      leftParen := hlkind.trans hlk
      first := hfseparates
      second := hgseparates
      rightParen := hrkind.trans hwk
      start := ?_
      init := hu.between hlbehind hfstart
      test := hv.between hfbehind hgstart
      increment := hw.between hgbehind hrstart
      body := Nat.le_trans hrbehind (hx.starts body List.mem_cons_self)
      stop := ?_
      anchors := ?_
      ordered := ?_ }⟩
  · simpa [Header.tokens] using ⟨hl, hf, hg, hr⟩
  · rw [withAnchors, (Span.setAnchors_ends _ _).1, hlstart]
    exact hs.lt_advance hfor
  · have hstop := x.finishNode_stop s.openNode.1
    have hprev := hx.prev_le
    rw [withAnchors, (Span.setAnchors_ends _ _).2, hstop]
    show r.stop.offset ≤ _
    omega
  · rw [hranchor, hlanchor]
    rfl
  · have hone := hu.prev_le
    have htwo : u.stream.prev.offset ≤ u.advance.stream.prev.offset :=
      Stream.prev_le_advance hu.reading.sound
    have hthree := hv.prev_le
    have hfour : v.stream.prev.offset ≤ v.advance.stream.prev.offset :=
      Stream.prev_le_advance hv.reading.sound
    have hfive := hw.prev_le
    have hlast : w.stream.prev.offset ≤ r.start.offset := hrstart ▸ hw.reading.sound.prev_le
    refine ⟨?_, ?_, Nat.le_trans hfive hlast⟩
    · show l.stop.offset ≤ u.advance.stream.prev.offset
      omega
    · exact Nat.le_trans hthree hfour

end Grammar

/-! ## Programs -/

namespace Header

variable {h : Header} {source : String} {span : Span} {init test increment : List Node}
  {body : Node}

/-- Delivering comments moves nothing. -/
theorem Heads.mapInfo (hh : h.Heads source span init test increment body)
    {g : NodeInfo → NodeInfo} (hg : ∀ info, (g info).span = info.span) :
    h.Heads source span (init.map (Node.mapInfo g)) (test.map (Node.mapInfo g))
      (increment.map (Node.mapInfo g)) (Node.mapInfo g body) := by
  exact { hh with
    init := hh.init.mapInfo hg
    test := hh.test.mapInfo hg
    increment := hh.increment.mapInfo hg
    body := by
      rw [Node.span_mapInfo hg]
      exact hh.body }

/-- The anchors of a loop lie within it, in the order of the tokens. -/
theorem Heads.ascending (hh : h.Heads source span init test increment body) :
    (h.anchors.map (·.2.offset)).Pairwise (· ≤ ·) ∧
      ∀ e ∈ h.anchors, span.start.offset < e.2.offset ∧ e.2.offset ≤ span.stop.offset := by
  obtain ⟨hone, htwo, hthree⟩ := hh.ordered
  have hl := Token.start_lt_stop (hh.tokens h.leftParen (by simp [Header.tokens]))
  have hr := Token.start_lt_stop (hh.tokens h.rightParen (by simp [Header.tokens]))
  have hstart := hh.start
  have hstop := hh.stop
  simp only [Header.anchors, Token.anchor, List.map_cons, List.map_nil, List.pairwise_cons,
    List.mem_cons, List.not_mem_nil, or_false, forall_eq_or_imp, forall_eq]
  refine ⟨⟨⟨?_, ?_, ?_⟩, ⟨?_, ?_⟩, ?_, fun _ hno => hno.elim, .nil⟩, ⟨?_, ?_⟩, ⟨?_, ?_⟩, ⟨?_, ?_⟩, ?_, ?_⟩
  all_goals omega

/-- Where both separators are semicolons, every anchor is that of its token, and no two
are at the same offset. -/
theorem Heads.exact (hh : h.Heads source span init test increment body)
    (hf : h.first.kind = .semicolon) (hg : h.second.kind = .semicolon) :
    h.anchors = [(.leftParen, h.leftParen.anchor), (.firstSemicolon, h.first.anchor),
        (.secondSemicolon, h.second.anchor), (.rightParen, h.rightParen.anchor)] ∧
      (h.anchors.map (·.2.offset)).Pairwise (· < ·) := by
  have hone := hh.init.le
  have htwo := hh.test.le
  have hthree := hh.increment.le
  have hf' := Token.start_lt_stop (hh.tokens h.first (by simp [Header.tokens]))
  have hg' := Token.start_lt_stop (hh.tokens h.second (by simp [Header.tokens]))
  have hr' := Token.start_lt_stop (hh.tokens h.rightParen (by simp [Header.tokens]))
  rw [Header.anchors, hh.first.exact hf, hh.second.exact hg]
  refine ⟨rfl, ?_⟩
  simp only [Token.anchor, List.map_cons, List.map_nil, List.pairwise_cons, List.mem_cons,
    List.not_mem_nil, or_false, forall_eq_or_imp, forall_eq]
  refine ⟨⟨?_, ?_, ?_⟩, ⟨?_, ?_⟩, ?_, fun _ hno => hno.elim, .nil⟩
  all_goals omega

end Header

/-- In strict mode the anchors of a counted loop are those of the four tokens of its
header, with the three lists of expressions in between.  They lie within the loop and never
go back.  A separator that is a closing tag has its anchor in front of it; where there is
none, every anchor lies behind its token and all of them lie apart. -/
theorem loops_anchored {source : String} {fileName : Option String} {o : Options} {p : Program}
    (h : parse source fileName o = .ok p) (hs : o.suppressErrors = false) :
    ∀ n ∈ p.tree, ∀ init test increment body shortform,
      n.production = .for init test increment body shortform →
      ∃ header : Header, header.Heads source n.span init test increment body ∧
        (n.span.anchors.map (·.2.offset)).Pairwise (· ≤ ·) ∧
        (∀ e ∈ n.span.anchors, n.span.start.offset < e.2.offset ∧
          e.2.offset ≤ n.span.stop.offset) ∧
        (header.first.kind = .semicolon → header.second.kind = .semicolon →
          n.span.anchors = [(.leftParen, header.leftParen.anchor),
            (.firstSemicolon, header.first.anchor), (.secondSemicolon, header.second.anchor),
            (.rightParen, header.rightParen.anchor)] ∧
          (n.span.anchors.map (·.2.offset)).Pairwise (· < ·)) := by
  intro n hn init test increment body shortform hp
  obtain ⟨g, hg, maker, hmaker, k, s, t, hreading, _, hkind, hyields, hproduction, hspan⟩ :=
    parse_read h hs hn (by simp [hp, Production.makers])
  rw [hp] at hmaker hproduction
  obtain rfl := List.mem_singleton.mp hmaker
  obtain ⟨init', test', increment', body', shortform', header, hk, hheads⟩ :=
    Grammar.forStatement_heads hreading (List.mem_singleton.mp hkind) hyields
  rw [hk] at hproduction
  cases hproduction
  rw [hspan, hheads.anchors]
  exact ⟨header, hheads.mapInfo hg, hheads.ascending.1, hheads.ascending.2, hheads.exact⟩

/-- The second separator is a closing tag, and its anchor is at the offset of the first. -/
theorem loops_anchored_tag :
    ∃ p, parse "<?php for ($i = 0; ?><?php ) {}" none {} = .ok p ∧
      (∃ n ∈ p.tree, n.span.anchors = [(.leftParen, ⟨1, 10, 11⟩), (.firstSemicolon, ⟨1, 17, 18⟩),
        (.secondSemicolon, ⟨1, 17, 18⟩), (.rightParen, ⟨1, 27, 28⟩)]) ∧
      ∀ n ∈ p.tree, ∀ init test increment body shortform,
        n.production = .for init test increment body shortform →
        ∃ header : Header,
          header.Heads "<?php for ($i = 0; ?><?php ) {}" n.span init test increment body ∧
          (n.span.anchors.map (·.2.offset)).Pairwise (· ≤ ·) ∧
          (∀ e ∈ n.span.anchors, n.span.start.offset < e.2.offset ∧
            e.2.offset ≤ n.span.stop.offset) ∧
          (header.first.kind = .semicolon → header.second.kind = .semicolon →
            n.span.anchors = [(.leftParen, header.leftParen.anchor),
              (.firstSemicolon, header.first.anchor), (.secondSemicolon, header.second.anchor),
              (.rightParen, header.rightParen.anchor)] ∧
            (n.span.anchors.map (·.2.offset)).Pairwise (· < ·)) := by
  have hrun : ((parse "<?php for ($i = 0; ?><?php ) {}" none {}).toOption.any fun p =>
      p.tree.any fun n => decide (n.span.anchors = [(.leftParen, ⟨1, 10, 11⟩),
        (.firstSemicolon, ⟨1, 17, 18⟩), (.secondSemicolon, ⟨1, 17, 18⟩),
        (.rightParen, ⟨1, 27, 28⟩)])) = true := by
    rw [parse_eq, statementsFrom_eq]
    decide +kernel
  obtain ⟨p, hp, hany⟩ := parse_of_any hrun
  obtain ⟨n, hn, hanchors⟩ := List.any_eq_true.mp hany
  exact ⟨p, hp, ⟨n, hn, of_decide_eq_true hanchors⟩, loops_anchored hp rfl⟩

end PhpSyntax
