/-
Loops in braces and in the short form.

Two texts of a loop part twice: where the body starts, with a brace or with a colon, and where
it ends, with a brace or with a keyword and a mark (`Fork.Around`).  The headers are the same,
and the body is a list of statements that ends at a fork.  So the second parse has the same
loop, in the short form.
-/
import PhpSyntax.Proofs.Fork.Body
import PhpSyntax.Proofs.Layout.Yields

namespace PhpSyntax

/-! ## Both forms -/

def Production.inShortForm {α : Type} : Production α → Production α
  | .while test body _ => .while test body true
  | .for init test increment body _ => .for init test increment body true
  | .foreach source key value body _ => .foreach source key value body true
  | p => p

def Node.inShortForm (n : Node) : Node := { n with production := n.production.inShortForm }

def Production.loopBody? {α : Type} : Production α → Option α
  | .while _ body _ | .for _ _ _ body _ | .foreach _ _ _ body _ => some body
  | _ => none

/-- The keywords of loops, with those that end their short forms. -/
def loopForms : List (TokenKind × TokenKind) :=
  [(.kwWhile, .kwEndWhile), (.kwFor, .kwEndFor), (.kwForeach, .kwEndForeach)]

/-- Forks in front of the body of a loop and behind it.  In the second text a mark is all that
follows. -/
structure Fork.Around (F E : Fork) (body : List Token) : Prop where
  first : F.first.kind = .lBrace
  second : F.second.kind = .colon
  start : F.second.start = F.first.start
  stop : F.second.stop = F.first.stop
  firstAhead : F.firstAhead = body ++ E.first :: E.firstAhead
  secondAhead : F.secondAhead = body ++ E.second :: E.secondAhead
  shuts : E.Shuts
  shutsStop : E.second.stop = E.first.stop
  firstEnd : E.firstAhead.filter (!·.kind.isTrivia) = []
  secondEnd : ∃ mark : Token, E.secondAhead = [mark] ∧ mark.kind = .semicolon ∧
    mark.stop = E.first.stop
  surplus : F.surplus = 0 ∧ E.surplus = 0

variable {F E : Fork} {body : List Token} {s t u : ParseState} {n : Node}

/-! ## Images without their layout -/

def NodeInfo.lower (k : Nat) (info : NodeInfo) : NodeInfo := { info with id := info.id - k }

theorem Fork.info_eq (hF : F.surplus = 0) (info : NodeInfo) :
    (Echo.forked F).info () info = info := by
  show NodeInfo.mk (info.id - F.surplus) _ _ _ = info
  rw [hF]
  rfl

theorem Fork.adjust_like (p : Production Node) : ((Echo.forked F).adjust p).Like p := by
  cases p <;> rfl

/-- An image is the same node with a lower identity, but for the text behind the end of the
code. -/
theorem Fork.erased_image_lower (n : Node) :
    (F.image n).erased = (Node.mapInfo (.lower F.surplus) n).erased := by
  induction n using Node.induction with
  | step n ih =>
    obtain ⟨info, p⟩ := n
    rw [image_mk, Node.mapInfo_eq]
    refine Node.mk_erased rfl ((adjust_like _).trans ?_)
    show ((p.map F.image).map Node.erased).erased =
      ((p.map (Node.mapInfo (.lower F.surplus))).map Node.erased).erased
    rw [Production.map_map, Production.map_map]
    exact congrArg Production.erased (Production.map_congr ih)

/-- Where both parses make the same nodes, identities are the same. -/
theorem Fork.erased_image (hF : F.surplus = 0) (n : Node) : (F.image n).erased = n.erased := by
  rw [erased_image_lower, hF, Node.mapInfo_id (g := .lower 0) fun _ => rfl]

theorem Fork.map_erased_image (hF : F.surplus = 0) (ns : List Node) :
    (ns.map F.image).map Node.erased = ns.map Node.erased := by
  rw [List.map_map]
  exact List.map_congr_left fun n _ => erased_image hF n

/-! ## Bodies -/

theorem Fork.Shuts.hides (h : E.Shuts) (k : TokenKind) : E.Hides k := by
  intro j hj
  have hne : j ≠ .rBrace ∧ j ∉ loopEnds := by
    revert j
    unfold TokenKind.sought
    split <;> simp [loopEnds]
  rw [h.first]
  exact iff_of_false (fun he => hne.2 (he ▸ h.second)) (fun he => hne.1 he.symm)

namespace ParseState.AtFork

theorem openNode (h : s.AtFork F t) (hstart : F.second.start = F.first.start) :
    t.openNode.1 = s.openNode.1 ∧ s.openNode.2.AtFork F t.openNode.2 := by
  constructor
  · show Opened.mk t.stream.current.start (t.trivia.unread t.stream.comments) =
      ⟨s.stream.current.start, s.trivia.unread s.stream.comments⟩
    rw [h.stream.first, h.stream.second, h.stream.comments.1, h.stream.comments.2,
      Trivia.unread_of_nothing, Trivia.unread_of_nothing, hstart]
  · exact ⟨h.stream, h.sound, h.deferred, h.nextId, h.namespaceDepth⟩

/-- Behind the first tokens of both bodies there are tokens in common, or the other fork. -/
theorem enter (h : s.AtFork F t) (hF : F.Around E body) :
    s.advance.Inside E t.advance ∨ s.advance.AtFork E t.advance := by
  have hid : s.nextId = t.nextId + E.surplus := by
    rw [h.nextId, hF.surplus.1, hF.surplus.2]
  have hprev : t.stream.advance.prev = s.stream.advance.prev := by
    have hfirst : s.stream.atTag = false := by
      rw [Stream.atTag, h.stream.first, hF.first]
      rfl
    have hsecond : t.stream.atTag = false := by
      rw [Stream.atTag, h.stream.second, hF.second]
      rfl
    simp only [Stream.advance, hfirst, hsecond, h.stream.first, h.stream.second, hF.stop]
    rfl
  have hahead : E.Ahead s.stream t.stream :=
    .intro body (h.stream.firstAhead.trans hF.firstAhead)
      (h.stream.secondAhead.trans hF.secondAhead) (hF.shuts.hides _)
  exact forked_of_ahead h.sound h.stands.ne_eof h.stream.options h.stream.strict
    h.stream.extractDoc h.stream.source h.stream.stop hprev h.stream.comments h.deferred hid
    h.namespaceDepth hahead

end ParseState.AtFork

structure ParseState.Through (E : Fork) (s t : ParseState) : Prop where
  beside : s.Beside E t
  ended : t.kind = .eof

theorem ParseState.Through.finishNode (h : s.Through E t) (o : Opened) :
    (s.finishNode o).2.Through E (t.finishNode o).2 ∧
      (Echo.forked E).info () (s.finishNode o).1 = (t.finishNode o).1 := by
  obtain ⟨hbeside, hinfo⟩ := h.beside.finishNode o
  exact ⟨⟨hbeside, h.ended⟩, hinfo⟩

/-- Behind the last tokens of both bodies nothing follows. -/
theorem ParseState.AtFork.leave (h : s.AtFork E t) (hF : F.Around E body) :
    t.kind = E.second.kind ∧ t.advance.kind = .semicolon ∧
      s.advance.Through E t.advance.advance := by
  obtain ⟨mark, hahead, hkind, hstop⟩ := hF.secondEnd
  have htrivia : mark.kind.isTrivia = false := by
    rw [hkind]
    rfl
  have hmark : mark.forGrammar t.stream.options = mark := by
    rw [Token.forGrammar, hkind]
  have hup : t.stream.upcoming = [mark] := by
    rw [Stream.upcoming, h.stream.secondAhead, hahead,
      List.dropWhile_cons_of_neg (by simp [htrivia])]
  have hcurrent : t.stream.advance.current = mark := by
    simp only [Stream.advance, hup, hmark]
  have hnone : t.stream.advance.ahead = [] := by
    simp only [Stream.advance, hup, List.drop_succ_cons, List.drop_zero]
  have hprev : t.stream.advance.prev = E.first.stop := by
    have htag : t.stream.atTag = false := by
      have hne : E.second.kind ≠ .semicolon := hF.shuts.second_ne (by decide)
      simp [Stream.atTag, h.stream.second, hne]
    simp only [Stream.advance, htag, h.stream.second, hF.shutsStop]
    rfl
  have hprev' : s.stream.advance.prev = E.first.stop := by
    have htag : s.stream.atTag = false := by
      simp [Stream.atTag, h.stream.first, hF.shuts.first]
    simp only [Stream.advance, htag, h.stream.first]
    rfl
  refine ⟨h.kind, ?_, ⟨?_, ?_, h.deferred, h.nextId⟩, ?_⟩
  · show t.stream.advance.current.kind = _
    rw [hcurrent, hkind]
  · show t.stream.advance.advance.prev = s.stream.advance.prev
    rw [hprev']
    rw [Stream.advance]
    simp only [hcurrent, hprev, hstop, ite_self]
  · have hdoc := h.stream.extractDoc
    have hdoc' : t.stream.advance.options.extractDoc = false := h.stream.options ▸ hdoc
    exact ⟨Stream.advance_silent hdoc h.stream.comments.1, Stream.advance_silent hdoc'
      (Stream.advance_silent (h.stream.options ▸ hdoc) h.stream.comments.2)⟩
  · show t.stream.advance.advance.current.kind = _
    rw [Stream.advance_current, Stream.onward, hnone]
    rfl

namespace Grammar

/-- The body in braces, and the body in the short form, with the same statements. -/
theorem shortBlock_yields (hF : F.Around E body) (hs : s.AtFork F t) (h : block.Yields s n u)
    (hend : u.stream.rest = 0)
    (hlast : ∀ children, n.production = .block children → ∀ m ∈ children.getLast?, ¬m.Dangles) :
    ∃ m v, (shortBlock E.second.kind).Yields t m v ∧ m.erased = n.erased ∧ u.Through E v := by
  obtain ⟨hopen, hs'⟩ := hs.openNode hF.start
  have hk : s.kind = .lBrace := hs.stands.kind.trans hF.first
  have hk' : t.openNode.2.kind = .colon := hs'.kind.trans hF.second
  rw [block, Parser.yields_isAt_bind, decide_eq_true hk, if_pos rfl, Parser.yields_openNode_bind,
    Parser.yields_advance_bind] at h
  obtain ⟨ns, r, hns, h⟩ := Parser.yields_bind.mp h
  obtain ⟨_, w, hw, h⟩ := Parser.yields_bind.mp h
  obtain ⟨rfl, rfl⟩ := Parser.yields_finish.mp h
  have hadvance : s.openNode.2.stream.GoesOn s.openNode.2.advance.stream := .advance hs'.sound
  have hstrict : s.openNode.2.advance.tolerates = false := hs'.stream.strict
  have hr := (Follows.statements (F := E) closeBrace).onward hstrict hadvance.sound hns
  obtain ⟨hbrace, rfl⟩ := (Parser.yields_require (hr.strict hstrict)).mp hw
  have hne : r.kind ≠ .eof := hbrace ▸ by decide
  have hrest : r.stream.rest = E.left := by
    have hadvance : r.advance.stream.rest + 1 = r.stream.rest := Stream.rest_advance hr.sound hne
    have hend : r.advance.stream.rest = 0 := hend
    rw [Fork.left, hF.firstEnd, ← hadvance, hend]
    rfl
  obtain ⟨r', hr', hat⟩ : ∃ r', (statements (.ofList [E.second.kind])).Yields t.openNode.2.advance
      (ns.map E.image) r' ∧ r.AtFork E r' := by
    have hns := Parser.yields_call.mp hns
    rcases hs'.enter hF with hin | hat
    · exact statements_land hF.shuts hin hns hrest (hlast ns rfl)
    · exact statements_settle (G := fun _ => True) hF.shuts hat hns hrest trivial
  obtain ⟨hclose, hmark, hthrough⟩ := hat.leave hF
  obtain ⟨hthrough, hinfo⟩ := hthrough.finishNode s.openNode.1
  rw [Fork.info_eq hF.surplus.2] at hinfo
  refine ⟨⟨(r'.advance.advance.finishNode s.openNode.1).1, .block (ns.map E.image)⟩, _, ?_, ?_,
    hthrough⟩
  · have hstrict' : r'.tolerates = false := hat.strict
    rw [shortBlock, Parser.yields_openNode_bind]
    refine Parser.yields_bind.mpr ⟨(), t.openNode.2.advance, ?_, ?_⟩
    · exact (Parser.yields_require hs'.strict).mpr ⟨hk', rfl⟩
    refine Parser.yields_bind.mpr ⟨ns.map E.image, r', Parser.yields_call.mpr hr', ?_⟩
    refine Parser.yields_bind.mpr ⟨(), r'.advance, ?_, ?_⟩
    · exact (Parser.yields_require hstrict').mpr ⟨hclose, rfl⟩
    refine Parser.yields_bind.mpr ⟨(), r'.advance.advance, ?_, ?_⟩
    · exact (Parser.yields_endStatement (s := r'.advance) hstrict').mpr (Or.inl ⟨hmark, rfl⟩)
    · rw [hopen]
      exact Parser.yields_finish.mpr ⟨rfl, rfl⟩
  · refine Node.mk_erased (congrArg NodeInfo.erased hinfo.symm) ?_
    exact congrArg (fun ns => (Production.block ns).erased) (Fork.map_erased_image hF.surplus.2 ns)

/-- A loop body starts at the current token, whatever form it has. -/
theorem loopBody_start {close : TokenKind} {r : Node × Bool}
    (h : (loopBody close).Yields s r u) {children : List Node}
    (hn : r.1.production = .block children) :
    s.kind ≠ .eof ∧ r.1.span.start = s.stream.current.start := by
  rw [loopBody, Parser.yields_isAt_bind] at h
  split at h
  case isTrue hk =>
    have hk : s.kind = .colon := of_decide_eq_true hk
    obtain ⟨n, t, hshort, h⟩ := Parser.yields_bind.mp h
    obtain ⟨rfl, _⟩ := Parser.yields_pure.mp h
    rw [shortBlock, Parser.yields_openNode_bind] at hshort
    obtain ⟨_, _, _, hshort⟩ := Parser.yields_bind.mp hshort
    obtain ⟨_, _, _, hshort⟩ := Parser.yields_bind.mp hshort
    obtain ⟨_, _, _, hshort⟩ := Parser.yields_bind.mp hshort
    obtain ⟨_, _, _, hshort⟩ := Parser.yields_bind.mp hshort
    obtain ⟨rfl, _⟩ := Parser.yields_finish.mp hshort
    exact ⟨hk ▸ by decide, rfl⟩
  case isFalse =>
    obtain ⟨n, t, hstatement, h⟩ := Parser.yields_bind.mp h
    obtain ⟨rfl, _⟩ := Parser.yields_pure.mp h
    obtain ⟨hk, hblock⟩ := statement_block (Parser.yields_call.mp hstatement) hn
    rw [block, Parser.yields_isAt_bind, decide_eq_true hk, if_pos rfl,
      Parser.yields_openNode_bind] at hblock
    obtain ⟨_, _, _, hblock⟩ := Parser.yields_bind.mp hblock
    obtain ⟨_, _, _, hblock⟩ := Parser.yields_bind.mp hblock
    obtain ⟨_, _, _, hblock⟩ := Parser.yields_bind.mp hblock
    obtain ⟨rfl, _⟩ := Parser.yields_finish.mp hblock
    exact ⟨hk ▸ by decide, rfl⟩

theorem loopBody_yields_short (hF : F.Around E body) (hs : s.AtFork F t) {r : Node × Bool}
    (h : (loopBody E.second.kind).Yields s r u) {children : List Node}
    (hn : r.1.production = .block children) (hend : u.stream.rest = 0)
    (hlast : ∀ m ∈ children.getLast?, ¬m.Dangles) :
    r.2 = false ∧ ∃ m v, (loopBody E.second.kind).Yields t (m, true) v ∧ m.erased = r.1.erased ∧
      u.Through E v := by
  have hk : s.kind ≠ .colon := by
    rw [hs.stands.kind, hF.first]
    decide
  rw [loopBody, Parser.yields_isAt_bind, decide_eq_false hk, if_neg Bool.false_ne_true] at h
  obtain ⟨n, w, hstatement, h⟩ := Parser.yields_bind.mp h
  obtain ⟨rfl, rfl⟩ := Parser.yields_pure.mp h
  obtain ⟨_, hblock⟩ := statement_block (Parser.yields_call.mp hstatement) hn
  refine ⟨rfl, ?_⟩
  obtain ⟨m, v, hm, herased, hthrough⟩ :=
    shortBlock_yields hF hs hblock hend fun ms hms => Production.block.inj (hn.symm.trans hms) ▸ hlast
  refine ⟨m, v, ?_, herased, hthrough⟩
  have hk' : t.kind = .colon := hs.kind.trans hF.second
  rw [loopBody, Parser.yields_isAt_bind, decide_eq_true hk', if_pos rfl]
  exact Parser.yields_bind.mpr ⟨m, v, hm, Parser.yields_pure.mpr ⟨rfl, rfl⟩⟩

/-! ## Loops -/

/-- A loop, as what stands in front of its body and what it makes of it. -/
structure LoopRule where
  Head : Type
  head : Parser (Opened × Head)
  close : TokenKind
  production : Head → Node → Bool → Production Node
  anchors : Head → List (Anchor × Option Position)

open PhpSyntax.Parser in
def LoopRule.statement (l : LoopRule) : Parser Node :=
  l.head >>= fun (o, h) => loopBody l.close >>= fun v =>
    finish o (l.production h v.1 v.2) >>= fun n => pure (withAnchors n (l.anchors h))

open PhpSyntax.Parser in
def whileLoop : LoopRule where
  Head := Node
  head := openNode >>= fun o => advance >>= fun _ => condition >>= fun test => pure (o, test)
  close := .kwEndWhile
  production := .while
  anchors := fun _ => []

structure ForHead where
  init : List Node
  test : List Node
  increment : List Node
  anchors : List (Anchor × Option Position)

open PhpSyntax.Parser in
def forLoop : LoopRule where
  Head := ForHead
  head :=
    openNode >>= fun o => advance >>= fun _ => anchored .lParen 1 >>= fun leftParen =>
      forPart .semicolon >>= fun init => forPart .semicolon >>= fun test =>
        forPart .rParen >>= fun increment => pure (o, ⟨init.1, test.1, increment.1,
          [(.leftParen, leftParen), (.firstSemicolon, init.2), (.secondSemicolon, test.2),
           (.rightParen, increment.2)]⟩)
  close := .kwEndFor
  production := fun h => .for h.init h.test h.increment
  anchors := ForHead.anchors

structure ForeachHead where
  source : Node
  vars : LoopVariables
  leftParen : Option Position
  rightParen : Option Position

open PhpSyntax.Parser in
def foreachLoop : LoopRule where
  Head := ForeachHead
  head :=
    openNode >>= fun o => advance >>= fun _ => anchored .lParen 1 >>= fun leftParen =>
      expression >>= fun source => loopVariables >>= fun vs =>
        if vs.key.any isList then
          fatal .listAsKey "Fatal Error : Cannot use list as key element"
        else anchored .rParen 1 >>= fun rightParen => pure (o, ⟨source, vs, leftParen, rightParen⟩)
  close := .kwEndForeach
  production := fun h => .foreach h.source h.vars.key h.vars.value
  anchors := fun h =>
    [(.leftParen, h.leftParen), (.as, h.vars.asAnchor), (.arrow, h.vars.arrowAnchor),
     (.rightParen, h.rightParen)]

theorem whileStatement_eq : whileStatement = whileLoop.statement := by
  simp only [LoopRule.statement, whileLoop, Parser.bind_bind]
  rfl

theorem forStatement_eq : forStatement = forLoop.statement := by
  simp only [LoopRule.statement, forLoop, Parser.bind_bind]
  rfl

theorem foreachStatement_eq : foreachStatement = foreachLoop.statement := by
  simp only [LoopRule.statement, foreachLoop, Parser.bind_bind]
  refine congrArg (Bind.bind Parser.openNode) (funext fun o => ?_)
  refine congrArg (Bind.bind Parser.advance) (funext fun _ => ?_)
  refine congrArg (Bind.bind (anchored .lParen 1)) (funext fun leftParen => ?_)
  refine congrArg (Bind.bind Parser.expression) (funext fun source => ?_)
  refine congrArg (Bind.bind loopVariables) (funext fun vs => ?_)
  split
  · rfl
  · rw [Parser.bind_bind]
    rfl

/-- The header of a loop is the same in front of a fork, and closes at one. -/
structure LoopRule.Closes (F : Fork) (l : LoopRule) (ψ : l.Head → l.Head) : Prop where
  head : PhpSyntax.Closes F (fun _ => True) (Prod.map id ψ) l.head l.head
  anchors : ∀ h, l.anchors (ψ h) = l.anchors h
  body : ∀ h n c, (l.production h n c).loopBody? = some n
  like : ∀ h m n, m.erased = n.erased →
    (l.production (ψ h) m true).Like (l.production h n false).inShortForm

theorem condition_closes {G : Node → Prop} : Closes F G F.image condition condition := by
  refine .skip (takes_require _).follows (.before .expression fun n => ?_)
  exact .pure (K := fun _ => True) (f := fun _ => n) ((takes_require _).closes id)
    (fun _ _ => trivial) fun _ => rfl

theorem anchored_closes {G : Option Position → Prop} {k : TokenKind} (hk : k ≠ .eof) (width : Nat) :
    Closes F G id (anchored k width) (anchored k width) where
  onward := (anchored_follows (F := F) hk width).onward
  needs := by
    intro s u a hs hy
    obtain ⟨_, _, rfl⟩ := (anchored_yields hs.strict).mp hy
    exact hs.passes
  lands := by
    intro s t u a hs hy hrest _
    obtain ⟨hkind, rfl, rfl⟩ := (anchored_yields hs.strict).mp hy
    have hat := hs.arrive hrest
    refine ⟨t.advance, ?_, hat⟩
    refine (anchored_yields hs.tolerates).mpr ⟨hs.kind.trans hkind, ?_, rfl⟩
    exact congrArg (fun p : Position => some (p.back width)) hat.stream.prev.symm

theorem forPart_closes {G : List Node × Option Position → Prop} {close : TokenKind}
    (hclose : close ≠ .eof) :
    Closes F G (Prod.map (List.map F.image) id) (forPart close) (forPart close) := by
  have hrest (ns : List Node) : Closes F G (Prod.map (List.map F.image) id)
      (anchored close 1 >>= fun anchor => pure (ns, anchor))
      (anchored close 1 >>= fun anchor => pure (ns.map F.image, anchor)) :=
    .pure (K := fun _ => True) (f := fun anchor => (ns, anchor)) (anchored_closes hclose 1)
      (fun _ _ => trivial) fun _ => rfl
  exact .isAt (hrest []) (.before (separated_follows (by decide) rfl) hrest)

theorem whileLoop_closes (hF : F.surplus = 0) : whileLoop.Closes F F.image where
  head := .begin fun o => .pure (K := fun _ => True) (f := fun test => (o, test)) condition_closes
    (fun _ _ => trivial) fun _ => rfl
  anchors := fun _ => rfl
  body := fun _ _ _ => rfl
  like := fun (test : Node) m n h => by
    show (Production.while (F.image test).erased m.erased true).erased =
      (Production.while test.erased n.erased true).erased
    rw [Fork.erased_image hF, h]

def ForHead.image (F : Fork) (h : ForHead) : ForHead where
  init := h.init.map F.image
  test := h.test.map F.image
  increment := h.increment.map F.image
  anchors := h.anchors

theorem forLoop_closes (hF : F.surplus = 0) : forLoop.Closes F (ForHead.image F) where
  head := by
    refine .begin fun o => .before (anchored_follows (by decide) 1) fun leftParen => ?_
    refine .before (forPart_follows (by decide)) fun init => ?_
    refine .before (forPart_follows (by decide)) fun test => ?_
    refine .pure (K := fun _ => True) (forPart_closes ?_) (fun _ _ => trivial) fun _ => rfl
    decide
  anchors := fun _ => rfl
  body := fun _ _ _ => rfl
  like := fun head m n h => by
    show (Production.for ((head.init.map F.image).map Node.erased)
        ((head.test.map F.image).map Node.erased) ((head.increment.map F.image).map Node.erased)
        m.erased true).erased =
      (Production.for (head.init.map Node.erased) (head.test.map Node.erased)
        (head.increment.map Node.erased) n.erased true).erased
    rw [Fork.map_erased_image hF, Fork.map_erased_image hF, Fork.map_erased_image hF, h]

def ForeachHead.image (F : Fork) (h : ForeachHead) : ForeachHead :=
  { h with source := F.image h.source, vars := h.vars.image F }

theorem foreachLoop_closes (hF : F.surplus = 0) : foreachLoop.Closes F (ForeachHead.image F) where
  head := by
    refine .begin fun o => .before (anchored_follows (by decide) 1) fun leftParen => ?_
    refine .before .expression fun source => .before loopVariables_follows fun vs => ?_
    have hlist : (vs.image F).key.any isList = vs.key.any isList := Echo.any_isList_image vs.key
    rw [hlist]
    refine .ite (.never fun _ hy => ?_) ?_
    · obtain ⟨_, hfatal⟩ := hy
      cases hfatal
    · exact .pure (K := fun _ => True)
        (f := fun rightParen => (o, ForeachHead.mk source vs leftParen rightParen))
        (anchored_closes (k := .rParen) (by decide) 1) (fun _ _ => trivial) fun _ => rfl
  anchors := fun _ => rfl
  body := fun _ _ _ => rfl
  like := fun head m n h => by
    have hkey : (head.vars.key.map F.image).map Node.erased = head.vars.key.map Node.erased := by
      rw [Option.map_map]
      exact Option.map_congr fun n _ => Fork.erased_image hF n
    show (Production.foreach (F.image head.source).erased
        ((head.vars.key.map F.image).map Node.erased) (F.image head.vars.value).erased m.erased
        true).erased =
      (Production.foreach head.source.erased (head.vars.key.map Node.erased)
        head.vars.value.erased n.erased true).erased
    rw [Fork.erased_image hF, Fork.erased_image hF, hkey, h]

/-- A loop in braces, and the same loop in the short form. -/
theorem LoopRule.Closes.yields_short {l : LoopRule} {ψ : l.Head → l.Head} {source : String}
    {before : List Token} {m : Node} {children : List Node} (hl : l.Closes F ψ)
    (hF : F.Around E body) (hclose : l.close = E.second.kind) (hs : s.Inside F t)
    (htokens : s.stream.OnTokens source)
    (hsource : tokenize source = before ++ F.first :: F.firstAhead)
    (h : l.statement.Yields s n u) (hbody : n.production.loopBody? = some m)
    (hstart : m.span.start = F.first.start) (hm : m.production = .block children)
    (hlast : ∀ c ∈ children.getLast?, ¬c.Dangles) (hend : u.stream.rest = 0) :
    ∃ n' v, l.statement.Yields t n' v ∧ n'.erased = n.inShortForm.erased ∧ u.Through E v := by
  obtain ⟨⟨o, head⟩, c, hhead, h⟩ := Parser.yields_bind.mp h
  obtain ⟨⟨m', shortform⟩, w, hw, h⟩ := Parser.yields_bind.mp h
  obtain ⟨_, _, hfinish, h⟩ := Parser.yields_bind.mp h
  obtain ⟨rfl, rfl⟩ := Parser.yields_finish.mp hfinish
  obtain ⟨rfl, rfl⟩ := Parser.yields_pure.mp h
  obtain rfl : m' = m := Option.some.inj ((hl.body head m' shortform).symm.trans hbody)
  have hw : (loopBody E.second.kind).Yields c (m', shortform) w := hclose ▸ hw
  -- The body starts at the brace, so that is where the header ends.
  obtain ⟨hne, hcurrent⟩ := loopBody_start hw hm
  have hgo := hl.head.onward hs.strict hs.sound hhead
  have hleads := hgo.leads.resolve_right fun hrest => hne ((Stream.rest_eq_zero hgo.sound).mp hrest)
  have hat := (htokens.leads hleads).at_token hgo.sound hsource hne (hcurrent.symm.trans hstart)
  have hrest : c.stream.rest = F.left := by
    have hne : ¬c.stream.current.kind = .eof := hne
    rw [Stream.rest, Token.isEof, decide_eq_false hne, hat.2, Fork.left]
    exact Nat.add_comm 1 _
  obtain ⟨c', hhead', hat⟩ := hl.head.lands hs hhead hrest trivial
  obtain ⟨rfl, m, v, hm', herased, hthrough⟩ := loopBody_yields_short hF hat hw hm hend hlast
  obtain ⟨hthrough, hinfo⟩ := hthrough.finishNode o
  rw [Fork.info_eq hF.surplus.2] at hinfo
  refine ⟨withAnchors ⟨(v.finishNode o).1, l.production (ψ head) m true⟩ (l.anchors (ψ head)), _,
    ?_, ?_, hthrough⟩
  · refine Parser.yields_bind.mpr ⟨(o, ψ head), c', hhead', ?_⟩
    refine Parser.yields_bind.mpr ⟨(m, true), v, hclose ▸ hm', ?_⟩
    refine Parser.yields_bind.mpr ⟨_, _, Parser.yields_finish.mpr ⟨rfl, rfl⟩, ?_⟩
    exact Parser.yields_pure.mpr ⟨rfl, rfl⟩
  · rw [hl.anchors, ← hinfo]
    exact Node.mk_erased rfl (hl.like head m m' herased)

end Grammar
end PhpSyntax
