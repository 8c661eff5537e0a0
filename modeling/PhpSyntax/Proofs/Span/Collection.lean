/-
The anchors of loops over a collection.

In strict mode the header of such a loop has an anchor for each of its tokens: the
parentheses, the keyword, and the arrow where there is a key.  Whatever the first variable
turns out to be, it lies behind the keyword and in front of the token that decides it, so
the parts of the loop lie between the tokens in the order of the header.

A loop of a program is what its rule yields from some state (`Production.Formed`), so the
rule is followed from token to token.
-/
import PhpSyntax.Proofs.Span.Anchors

namespace PhpSyntax

/-! ## Headers -/

structure CollectionHeader where
  leftParen : Token
  keyword : Token
  arrow : Option Token
  rightParen : Token

namespace CollectionHeader

def tokens (h : CollectionHeader) : List Token :=
  [h.leftParen, h.keyword] ++ h.arrow.toList ++ [h.rightParen]

def anchors (h : CollectionHeader) : List (Anchor × Position) :=
  [(.leftParen, h.leftParen.anchor), (.as, h.keyword.anchor)] ++
    h.arrow.toList.map (fun t => (.arrow, t.anchor)) ++ [(.rightParen, h.rightParen.anchor)]

/-- The key and the value lie behind the keyword, with the arrow between them. -/
inductive Holds (h : CollectionHeader) : Option Node → Node → Prop
  | value {value : Node} (harrow : h.arrow = none)
    (hvalue : Between h.keyword h.rightParen [value]) : h.Holds none value
  | pair {key value : Node} {arrow : Token} (harrow : h.arrow = some arrow)
    (hkind : arrow.kind = .doubleArrow) (hwidth : arrow.stop.offset = arrow.start.offset + 2)
    (hkey : Between h.keyword arrow [key]) (hvalue : Between arrow h.rightParen [value]) :
    h.Holds (some key) value

structure Heads (h : CollectionHeader) (source : String) (span : Span) (collection : Node)
    (key : Option Node) (value body : Node) : Prop where
  tokens : ∀ t ∈ h.tokens, t ∈ tokenize source
  leftParen : h.leftParen.kind = .lParen
  keyword : h.keyword.kind = .kwAs
  width : h.keyword.stop.offset = h.keyword.start.offset + 2
  rightParen : h.rightParen.kind = .rParen
  collection : Between h.leftParen h.keyword [collection]
  holds : h.Holds key value
  body : h.rightParen.stop.offset ≤ body.span.start.offset
  anchors : span.anchors = h.anchors

end CollectionHeader

/-! ## Tokens of two characters -/

namespace Grammar

variable {source : String} {s t : ParseState}

end Grammar

/-! ## Programs -/

namespace CollectionHeader

variable {h : CollectionHeader} {source : String} {span : Span} {collection value body : Node}
  {key : Option Node}

theorem Holds.mapInfo (hh : h.Holds key value) {g : NodeInfo → NodeInfo}
    (hg : ∀ info, (g info).span = info.span) :
    h.Holds (key.map (Node.mapInfo g)) (Node.mapInfo g value) := by
  cases hh with
  | value harrow hvalue => exact .value harrow (hvalue.mapInfo hg)
  | pair harrow hkind hwidth hkey hvalue =>
    exact .pair harrow hkind hwidth (hkey.mapInfo hg) (hvalue.mapInfo hg)

/-- Delivering comments moves nothing. -/
theorem Heads.mapInfo (hh : h.Heads source span collection key value body)
    {g : NodeInfo → NodeInfo} (hg : ∀ info, (g info).span = info.span) :
    h.Heads source span (Node.mapInfo g collection) (key.map (Node.mapInfo g))
      (Node.mapInfo g value) (Node.mapInfo g body) := by
  exact { hh with
    collection := hh.collection.mapInfo hg
    holds := hh.holds.mapInfo hg
    body := by
      rw [Node.span_mapInfo hg]
      exact hh.body }

/-- The parts of a loop stand between its anchors. -/
structure Ordered (h : CollectionHeader) (collection : Node) (key : Option Node)
    (value body : Node) : Prop where
  leftParen : h.leftParen.anchor.offset ≤ collection.span.start.offset
  keyword : collection.span.stop.offset + 2 ≤ h.keyword.anchor.offset
  first : h.keyword.anchor.offset ≤ (key.getD value).span.start.offset
  arrow : ∀ k ∈ key, ∀ a ∈ h.arrow, k.span.stop.offset + 2 ≤ a.anchor.offset ∧
    a.anchor.offset ≤ value.span.start.offset
  rightParen : value.span.stop.offset + 1 ≤ h.rightParen.anchor.offset
  body : h.rightParen.anchor.offset ≤ body.span.start.offset

theorem Heads.ordered (hh : h.Heads source span collection key value body) :
    h.Ordered collection key value body := by
  have hcollection := hh.collection.stops collection List.mem_cons_self
  have hwidth := hh.width
  have hr := Token.start_lt_stop (hh.tokens h.rightParen (by simp [CollectionHeader.tokens]))
  have hholds := hh.holds
  refine ⟨hh.collection.starts collection List.mem_cons_self, ?_, ?_, ?_, ?_, hh.body⟩
  · show collection.span.stop.offset + 2 ≤ h.keyword.stop.offset
    omega
  · cases hholds with
    | value _ hvalue => exact hvalue.starts value List.mem_cons_self
    | pair _ _ _ hkey => exact hkey.starts _ List.mem_cons_self
  · rintro k ⟨⟩ a ha
    cases hholds with
    | @pair _ _ arrow harrow _ hwidth hkey hvalue =>
      obtain rfl : arrow = a := Option.some.inj (harrow.symm.trans ha)
      have hstop := hkey.stops k List.mem_cons_self
      refine ⟨?_, hvalue.starts value List.mem_cons_self⟩
      show k.span.stop.offset + 2 ≤ arrow.stop.offset
      omega
  · have hstop : value.span.stop.offset ≤ h.rightParen.start.offset := by
      cases hholds with
      | value _ hvalue => exact hvalue.stops value List.mem_cons_self
      | pair _ _ _ _ hvalue => exact hvalue.stops value List.mem_cons_self
    show value.span.stop.offset + 1 ≤ h.rightParen.stop.offset
    omega

end CollectionHeader

end PhpSyntax
