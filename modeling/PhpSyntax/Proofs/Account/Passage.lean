/-
What is noted on the way through a text.

A passage leads from one place of a text to a later one and notes what has been met: each
token that is a node of its own, a block that is kept as it is written, the text behind the
end of the code, and the constructs of a version of the language (`Passes`).  In strict mode
no token that is a node of its own is passed without a note, and in a text without arrow
functions no construct is met that the options do not admit.  The order of notes does not
matter, so passages are put together by adding them up.

In such a text the versions of the language make no difference to the tokens
(`Stream.modern_advance`), so a passage stays one where both are switched on.
-/
import PhpSyntax.Proofs.Account.Note
import PhpSyntax.Proofs.Stream.OnTokens
import PhpSyntax.Proofs.Stream.Progress

namespace PhpSyntax

structure Text where
  source : String
  strict : Bool

namespace Text

def HasNoFn (x : Text) : Prop := ∀ t ∈ tokenize x.source, t.kind ≠ .kwFn

/-- The text is read in strict mode, and the versions of the language do not change its
tokens. -/
def IsPlain (x : Text) : Prop := x.strict = true ∧ x.HasNoFn

/-- In strict mode a token that has no node of its own starts at `p`. -/
def Marks (x : Text) (p : Position) : Prop := x.strict = true →
  ∃ t ∈ tokenize x.source, t.kind.isTrivia = false ∧ t.kind.isLeaf = false ∧ t.start = p

end Text

/-! ## Tokens as the grammar sees them -/

namespace Token

variable (o : Options) (t : Token)

@[simp] theorem forGrammar_text : (t.forGrammar o).text = t.text := by
  unfold forGrammar
  split <;> try rfl
  split <;> rfl

/-- The grammar takes no token that is a node of its own for another one. -/
theorem forGrammar_isLeaf : (t.forGrammar o).kind.isLeaf = t.kind.isLeaf := by
  unfold forGrammar
  split
  · next h => rw [h]; rfl
  · next h => rw [h]; rfl
  · next h =>
    split
    · rfl
    · rw [h]
      rfl
  · rfl

theorem forGrammar_of_isLeaf {t : Token} (h : t.kind.isLeaf = true) : t.forGrammar o = t := by
  unfold forGrammar
  split
  all_goals first | rfl | next hk => rw [hk] at h; cases h

end Token

def Options.modern (o : Options) : Options := { o with php7 := true, php74 := true }

theorem Token.forGrammar_modern {t : Token} (h : t.kind ≠ .kwFn) (o : Options) :
    t.forGrammar o.modern = t.forGrammar o := by
  unfold forGrammar
  split
  all_goals first | rfl | contradiction

theorem Gate.isOpen_modern (o : Options) (g : Gate) : g.isOpen o.modern = true := by
  cases g <;> rfl

/-! ## Places of a text -/

namespace Stream

structure Of (x : Text) (s : Stream) : Prop where
  sound : s.Sound
  filled : s.Filled
  tokens : s.OnTokens x.source
  source : s.source = x.source
  mode : s.options.suppressErrors = !x.strict

def modern (s : Stream) : Stream := { s with options := s.options.modern }

variable {x : Text} {s : Stream}

namespace Of

theorem advance (h : s.Of x) (hk : s.current.kind ≠ .eof) : s.advance.Of x where
  sound := advance_sound h.sound
  filled := advance_filled_of h.sound.ahead
  tokens := h.tokens.advance hk
  source := h.source
  mode := h.mode

theorem halt (h : s.Of x) : s.halt.2.Of x where
  sound := halt_sound h.sound
  filled := fun hk => absurd rfl hk
  tokens := h.tokens.halt
  source := h.source
  mode := h.mode

/-- What the current token is a token of. -/
theorem token (h : s.Of x) (hk : s.current.kind ≠ .eof) :
    ∃ t ∈ tokenize x.source, t.kind.isTrivia = false ∧ s.current = t.forGrammar s.options := by
  rcases h.tokens.current with e | ht
  · exact absurd (congrArg Token.kind e) hk
  · exact ht

/-- A token without a node of its own is current. -/
theorem marks (h : s.Of x) (hk : s.current.kind.isMark = true) : x.Marks s.current.start := by
  obtain ⟨t, ht, htrivia, e⟩ := h.token (TokenKind.ne_eof_of_isMark hk)
  refine fun _ => ⟨t, ht, htrivia, ?_, ?_⟩
  · rw [← Token.forGrammar_isLeaf s.options, ← e]
    exact TokenKind.isLeaf_of_isMark hk
  · rw [e, Token.forGrammar_start]

/-- A current token that is a node of its own is a token of the text as it is. -/
theorem leaf_mem (h : s.Of x) (hk : s.current.kind.isLeaf = true) :
    s.current ∈ tokenize x.source := by
  obtain ⟨t, ht, _, e⟩ := h.token (TokenKind.ne_eof_of_isLeaf hk)
  rw [e, Token.forGrammar_isLeaf] at hk
  rwa [e, Token.forGrammar_of_isLeaf _ hk]

theorem ahead_mem (h : s.Of x) {t : Token} (ht : t ∈ s.ahead) : t ∈ tokenize x.source :=
  h.tokens.ahead.subset ht

end Of

/-! ## Both versions of the language switched on -/

/-- Where no arrow function lies ahead the next token is the same one. -/
theorem modern_advance_of (h : ∀ t ∈ s.ahead, t.kind ≠ .kwFn) :
    s.modern.advance = s.advance.modern := by
  have hnext : s.modern.advance.current = s.advance.current := by
    have hupcoming : s.modern.upcoming = s.upcoming := rfl
    simp only [advance, hupcoming]
    cases hu : s.upcoming with
    | nil => rfl
    | cons t ts =>
      have ht : t ∈ s.upcoming := hu ▸ List.mem_cons_self
      exact Token.forGrammar_modern (h t (List.dropWhile_subset _ ht)) _
  have hrest : s.modern.advance = { s.advance.modern with current := s.modern.advance.current } :=
    rfl
  rw [hrest, hnext]
  rfl

theorem modern_advance (h : s.Of x) (hx : x.HasNoFn) : s.modern.advance = s.advance.modern :=
  modern_advance_of fun _ ht => hx _ (h.ahead_mem ht)

theorem peek_modern (h : s.Of x) (hx : x.HasNoFn) : s.modern.peek = s.peek := by
  rw [← advance_kind, ← advance_kind, modern_advance h hx]
  rfl

theorem Of.modern (h : s.Of x) (hx : x.HasNoFn) : s.modern.Of x where
  sound := ⟨h.sound.prev_le, h.sound.start_le, h.sound.ahead, h.sound.atEnd⟩
  filled := h.filled
  tokens := by
    refine ⟨h.tokens.text, h.tokens.stop, ?_, h.tokens.ahead, h.tokens.prev⟩
    rcases h.tokens.current with e | ⟨t, ht, htrivia, e⟩
    · exact Or.inl e
    · refine Or.inr ⟨t, ht, htrivia, ?_⟩
      show s.current = t.forGrammar s.options.modern
      rw [e, Token.forGrammar_modern (hx t ht)]
  source := h.source
  mode := h.mode

end Stream

/-! ## Passages -/

/-- The stream passes from one place to another, and what has been noted on the way. -/
inductive Passes (x : Text) : Stream → Notes → Stream → Prop
  | refl {s} : Passes x s 0 s
  | trans {s t u e f} (h : Passes x s e t) (h' : Passes x t f u) : Passes x s (e + f) u
  | mark {s} (hk : s.current.kind ≠ .eof)
      (hm : x.strict = true → s.current.kind.isLeaf = false) : Passes x s 0 s.advance
  /-- A token is consumed that is a node of its own. -/
  | leaf {s l} (hl : l.Keeps s.current) :
    Passes x s {.bare s.current.start s.current.stop l} s.advance
  /-- A node without children is no token of its own, but stands where a mark does. -/
  | free {s p q l} (hl : l.isLiteral = false) (hp : x.Marks p) :
    Passes x s {.bare p q l} s
  | gate {s g} (hg : x.IsPlain → g.isOpen s.options = true) : Passes x s {.gate g} s
  | skip {s} (hk : s.current.kind ≠ .eof) :
    Passes x s {.skipped s.current.stop.offset} s.advance
  /-- Tokens that have been skipped are kept as they are written. -/
  | quote {s t e} (h : Passes x s e t)
      (he : ∀ n ∈ e, ∃ k, n = .skipped k ∧ (x.strict = true → k ≤ t.prev.offset))
      (hle : s.current.start.offset ≤ t.prev.offset) :
    Passes x s {.block (t.textBetween s.current.start.offset t.prev.offset) t.prev.offset} t
  /-- The code ends behind a token that has been consumed, in strict mode at a semicolon. -/
  | halt {s t} (h : Passes x s 0 t) (hk : s.current.kind ≠ .eof)
      (hm : x.strict = true → t.current.kind = .semicolon) :
    Passes x s {.tail t.halt.1} t.halt.2

namespace Passes

variable {x : Text} {s t : Stream} {e : Notes}

theorem leads (h : Passes x s e t) : s.Leads t := by
  induction h with
  | refl | free | gate => exact .refl
  | trans _ _ ih ih' => exact ih.trans ih'
  | mark hk | skip hk => exact .single (.advance hk)
  | leaf hl => exact .single (.advance (TokenKind.ne_eof_of_isLeaf hl.isLeaf))
  | quote _ _ _ ih => exact ih
  | halt _ _ _ ih => exact ih.tail .halt

theorem of (h : Passes x s e t) (hs : s.Of x) : t.Of x := by
  induction h with
  | refl | free | gate => exact hs
  | trans _ _ ih ih' => exact ih' (ih hs)
  | mark hk | skip hk => exact hs.advance hk
  | leaf hl => exact hs.advance (TokenKind.ne_eof_of_isLeaf hl.isLeaf)
  | quote _ _ _ ih => exact ih hs
  | halt _ _ _ ih => exact (ih hs).halt

theorem options (h : Passes x s e t) : t.options = s.options := by
  induction h with
  | trans _ _ ih ih' => exact ih'.trans ih
  | quote _ _ _ ih | halt _ _ _ ih => exact ih
  | _ => rfl

/-- With both versions switched on the passage is the same. -/
theorem modern (h : Passes x s e t) (hs : s.Of x) (hx : x.IsPlain) :
    Passes x s.modern e t.modern := by
  induction h with
  | refl => exact refl
  | trans h _ ih ih' => exact (ih hs).trans (ih' (h.of hs))
  | mark hk hm =>
    rw [← Stream.modern_advance hs hx.2]
    exact mark hk hm
  | leaf hl =>
    rw [← Stream.modern_advance hs hx.2]
    exact leaf hl
  | free hl hp => exact free hl hp
  | gate => exact gate fun _ => Gate.isOpen_modern _ _
  | skip hk =>
    rw [← Stream.modern_advance hs hx.2]
    exact skip hk
  | quote _ he hle ih => exact quote (ih hs) he hle
  | halt _ hk hm ih => exact halt (ih hs) hk hm

end Passes
end PhpSyntax
