import PhpSyntax.Proofs.Account.Tells

namespace PhpSyntax

variable {α β : Type} {x : Text} {e d : Notes} {s : ParseState}
  {Q R : Notes → α → ParseState → Prop}

/-! ## Notes of single nodes -/

namespace Node

/-- A node that is not bare answers for what its production does. -/
theorem notes_of_not_isBare {n : Node} (h : n.isBare = false) :
    n.notes = n.production.due n.span.stop.offset := by
  rw [notes_eq, bare, h]
  exact zero_add _

/-- Nodes of the same production that stand at the same place answer for the same. -/
theorem notes_congr {m n : Node} (hstart : m.span.start = n.span.start)
    (hstop : m.span.stop = n.span.stop) (hp : m.production = n.production) :
    m.notes = n.notes := by
  have hbare : m.bare = n.bare := by
    rw [bare, bare, isBare, isBare, children, children, hstart, hstop, hp]
  rw [notes_eq, notes_eq, hbare, hstop, hp]

end Node

@[simp] theorem Opened.notes_handTo (o : Opened) (n : Node) : (o.handTo n).notes = n.notes :=
  Node.notes_congr rfl rfl rfl

theorem ParseState.errorNode_notes (s : ParseState) (message : String) (ex : Expected) :
    (s.errorNode message ex).notes = 0 := by
  rw [Node.notes_of_not_isBare]
  · simp [errorNode]
  · simp [Node.isBare, errorNode, Production.leaf, Leaf.isLiteral, Span.between]

/-- A node that begins where nothing has been consumed since stands for no text. -/
theorem ParseState.finishNode_empty {o : Opened} (hs : s.stream.Sound)
    (ho : s.offset ≤ o.start.offset) :
    ¬(s.finishNode o).1.span.start.offset < (s.finishNode o).1.span.stop.offset := by
  have hprev : s.stream.prev.offset ≤ s.offset := hs.prev_le
  show ¬o.start.offset <
    (if o.start.offset ≤ s.stream.prev.offset then s.stream.prev else o.start).offset
  split
  all_goals omega

/-! ## Where a part ends -/

/-- A part that ends where it began has consumed nothing, and any other one has. -/
structure ParseState.Onward (s t : ParseState) : Prop where
  moved : (t.stream = s.stream ∨ t.stream = s.stream.modern) ∨
    (t.stream.rest < s.stream.rest ∧ s.offset < t.offset)
  prev_le : s.stream.prev.offset ≤ t.stream.prev.offset

namespace ParseState.Onward

variable {t : ParseState}

theorem of_passes {f : Notes} (h : Passes x s.stream f t.stream) (hs : s.stream.Of x) :
    s.Onward t where
  moved := by
    rcases h.leads.forward hs.sound hs.filled with e | hlt
    · exact Or.inl (Or.inl e)
    · exact Or.inr hlt
  prev_le := h.leads.prev_le hs.sound

theorem of_modern {f : Notes} (h : Passes x s.modern.stream f t.stream) (hs : s.stream.Of x)
    (hx : x.HasNoFn) : s.Onward t where
  moved := by
    have hmodern := hs.modern hx
    rcases h.leads.forward hmodern.sound hmodern.filled with e | hlt
    · exact Or.inl (Or.inr e)
    · exact Or.inr hlt
  prev_le := h.leads.prev_le (hs.modern hx).sound

theorem rest_le (h : s.Onward t) : t.stream.rest ≤ s.stream.rest := by
  rcases h.moved with (e | e) | ⟨hlt, _⟩
  · rw [e]
  · rw [e]
    exact Nat.le_refl _
  · omega

theorem offset_le (h : s.Onward t) : s.offset ≤ t.offset := by
  rcases h.moved with (e | e) | ⟨_, hlt⟩
  · rw [ParseState.offset, ParseState.offset, e]
  · rw [ParseState.offset, ParseState.offset, e]
    exact Nat.le_refl _
  · omega

end ParseState.Onward

namespace Tells

theorem onward {p : Parser α} (h : Tells x e p s Q) :
    Tells x e p s fun f a t => Q f a t ∧ s.Onward t := by
  intro answer ha hs
  have htold := h answer ha hs
  refine ⟨fun ho => ?_, htold.lift, fun hx _ _ _ ho hm => ?_⟩
  · obtain ⟨f, hpass, hq⟩ := htold.ok ho
    exact ⟨f, hpass, hq, .of_passes hpass hs⟩
  · obtain ⟨f, hpass, hq, hgate⟩ := htold.shut hx ho hm
    exact ⟨f, hpass, ⟨hq, .of_modern hpass hs hx.2⟩, hgate⟩

/-- What is consumed by the first part of a body is consumed by the body. -/
theorem bindKeen {c : Prop} {p : Parser α} {f : α → Parser β}
    {Q' : Notes → β → ParseState → Prop}
    (h : Tells x e p s fun f a t => Q f a t ∧ (c → s.Eats x t))
    (hf : ∀ e' a t, Q e' a t → Tells x e' (f a) t Q') :
    Tells x e (p >>= f) s fun f a t => Q' f a t ∧ (c → s.Eats x t) := by
  refine .bind h fun e' a t ⟨hq, heats⟩ => (hf e' a t hq).onward.mono fun g b u ⟨hq', hon⟩ => ?_
  refine ⟨hq', fun hc hstrict hleaf => ?_⟩
  have hlt := heats hc hstrict hleaf
  have hle := hon.rest_le
  omega

theorem bindEats {p : Parser α} {f : α → Parser β} {Q' : Notes → β → ParseState → Prop}
    (h : Tells x e p s fun f a t => Q f a t ∧ s.Eats x t)
    (hf : ∀ e' a t, Q e' a t → Tells x e' (f a) t Q') :
    Tells x e (p >>= f) s fun f a t => Q' f a t ∧ s.Eats x t :=
  (bindKeen (c := True) (h.mono fun _ _ _ ⟨hq, heats⟩ => ⟨hq, fun _ => heats⟩) hf).mono
    fun _ _ _ ⟨hq, heats⟩ => ⟨hq, heats trivial⟩

/-- What the last part of a body consumes if the others have not is consumed by the body. -/
theorem bindLast {p : Parser α} {f : α → Parser β} {Q' : Notes → β → ParseState → Prop}
    (h : Tells x e p s Q)
    (hf : ∀ e' a t, Q e' a t → Tells x e' (f a) t fun f b u => Q' f b u ∧ t.Eats x u) :
    Tells x e (p >>= f) s fun f a t => Q' f a t ∧ s.Eats x t := by
  refine .bind h.onward fun e' a t ⟨hq, hon⟩ =>
    (hf e' a t hq).onward.mono fun g b u ⟨⟨hq', heats⟩, hon'⟩ => ⟨hq', fun hstrict hleaf => ?_⟩
  have hle := hon'.rest_le
  rcases hon.moved with (he | he) | ⟨hlt, _⟩
  · have hkind : t.kind = s.kind := by rw [ParseState.kind, he, ParseState.kind]
    rw [← he]
    exact heats hstrict (hkind ▸ hleaf)
  · have hkind : t.kind = s.kind := by
      rw [ParseState.kind, he]
      rfl
    have hlt := heats hstrict (hkind ▸ hleaf)
    rwa [he] at hlt
  · omega

/-- A body that begins at a mark need not consume anything. -/
theorem atMark {p : Parser α} (hk : s.kind.isMark = true) (h : Tells x e p s Q) :
    Tells x e p s fun f a t => Q f a t ∧ s.Eats x t :=
  h.mono fun _ _ _ hq => ⟨hq, .of_isMark hk⟩

/-! ## Consuming tokens -/

/-- A token that has no node of its own is consumed. -/
theorem pass {p : Parser α} (hk : s.kind.isMark = true)
    (h : ∀ t, t = s.advance → Tells x e p t Q) :
    Tells x e (Parser.advance >>= fun _ => p) s Q := by
  refine .bind (Q := fun e' _ t => e' = e ∧ t = s.advance) ?_ fun e' _ t ⟨he, ht⟩ => he ▸ h t ht
  refine of_advance (f := 0) (.mark (TokenKind.ne_eof_of_isMark hk) fun _ => ?_) ⟨add_zero e, rfl⟩
  exact TokenKind.isLeaf_of_isMark hk

theorem advanceMark (hk : s.kind.isMark = true) :
    Tells x e Parser.advance s fun f _ t => f = e ∧ t = s.advance := by
  refine of_advance (f := 0) (.mark (TokenKind.ne_eof_of_isMark hk) fun _ => ?_) ⟨add_zero e, rfl⟩
  exact TokenKind.isLeaf_of_isMark hk

/-! ## Opening and finishing nodes -/

protected theorem openNode {f : Opened → Parser α}
    (h : Tells x e (f s.openNode.1) s.openNode.2 Q) : Tells x e (Parser.openNode >>= f) s Q :=
  .bind (Q := fun e' o t => e' = e ∧ o = s.openNode.1 ∧ t = s.openNode.2)
    (of_update rfl rfl ⟨rfl, rfl, rfl⟩) fun _ _ _ ⟨he, ho, ht⟩ => he ▸ ho ▸ ht ▸ h

/-- A node opened at a token that has no node of its own, which is consumed. -/
theorem begin {f : Opened → Parser α} (hk : s.kind.isMark = true)
    (hf : ∀ o t, x.Marks o.start → o.start.offset ≤ t.offset → Tells x e (f o) t Q) :
    Tells x e (Parser.openNode >>= fun o => Parser.advance >>= fun _ => f o) s Q :=
  .of fun hs => .openNode <| .pass hk fun t ht => by
    refine hf _ t (hs.marks hk) ?_
    rw [ht]
    exact Stream.start_le_advance hs.sound

protected theorem openAt {p : Position} {f : Opened → Parser α}
    (h : ∀ o t, o.start = p → t.stream = s.stream → Tells x e (f o) t Q) :
    Tells x e (Parser.openAt p >>= f) s Q :=
  .bind (Q := fun e' o t => e' = e ∧ o.start = p ∧ t.stream = s.stream)
    (of_update rfl rfl ⟨rfl, rfl, rfl⟩) fun _ o t ⟨he, ho, ht⟩ => he ▸ h o t ho ht

/-- A node opened in front of what has been read, and a token that has no node of its own. -/
theorem extend {p : Position} {f : Opened → Parser α} (hk : s.kind.isMark = true)
    (hf : ∀ o t, Tells x e (f o) t Q) :
    Tells x e (Parser.openAt p >>= fun o => Parser.advance >>= fun _ => f o) s Q :=
  .openAt fun o t _ ht => .pass (by rwa [ParseState.kind, ht]) fun u _ => hf o u

/-- The comments of a node that is not needed are handed over. -/
theorem abandon {o : Opened} {n : Node} (he : e = d + n.notes) :
    Tells x e (Parser.abandon o n) s fun f m t =>
      f = d + m.notes ∧ m.after? = n.after? ∧ t.stream = s.stream :=
  of_update rfl rfl ⟨by rw [he]; rw [ParseState.abandon, Opened.notes_handTo], rfl, rfl⟩

/-- A node may be finished that has children, or begins at a mark, or is empty. -/
theorem finishAs {o : Opened} {p : Production Node}
    (hb : p.children ≠ [] ∨ x.Marks o.start ∨ s.offset ≤ o.start.offset)
    (hl : p.leaf.isLiteral = false) (he : e = d + p.due (s.finishNode o).1.span.stop.offset) :
    Tells x e (Parser.finish o p) s fun f n t =>
      f = d + n.notes ∧ n.production = p ∧ t.stream = s.stream := by
  intro answer _ hs
  show Told x e s _ (.ok (Node.mk (s.finishNode o).1 p, (s.finishNode o).2)) _
  by_cases hbare : (Node.mk (s.finishNode o).1 p).isBare = true
  · refine .of_ok (f := (Node.mk (s.finishNode o).1 p).bare) ?_ ?_
    · rw [Node.bare, if_pos hbare]
      refine .free hl ?_
      obtain ⟨hchildren, hwidth⟩ := Bool.and_eq_true_iff.mp hbare
      rcases hb with hne | hmark | hempty
      · exact absurd (List.isEmpty_iff.mp hchildren) hne
      · exact hmark
      · simp [hl, s.finishNode_empty hs.sound hempty] at hwidth
    · rw [he, Node.notes_eq]
      exact ⟨by abel, rfl, rfl⟩
  · refine .of_ok (f := 0) .refl ?_
    rw [add_zero, he, Node.notes_of_not_isBare (Bool.eq_false_iff.mpr hbare)]
    exact ⟨rfl, rfl, rfl⟩

theorem finish {o : Opened} {p : Production Node}
    (hb : p.children ≠ [] ∨ x.Marks o.start ∨ s.offset ≤ o.start.offset)
    (hl : p.leaf.isLiteral = false) (he : e = d + p.due (s.finishNode o).1.span.stop.offset) :
    Tells x e (Parser.finish o p) s fun f n _ => f = d + n.notes :=
  (finishAs hb hl he).mono fun _ _ _ h => h.1

/-- A node is finished that does not end the code. -/
theorem finishInert {o : Opened} {p : Production Node}
    (hb : p.children ≠ [] ∨ x.Marks o.start ∨ s.offset ≤ o.start.offset)
    (hl : p.leaf.isLiteral = false) (ha : (Node.mk default p).after? = none)
    (he : e = d + p.due (s.finishNode o).1.span.stop.offset) :
    Tells x e (Parser.finish o p) s fun f n _ => f = d + n.notes ∧ n.after? = none :=
  (finishAs hb hl he).mono fun f n _ ⟨hf, hp, _⟩ => ⟨hf, by rw [Node.after?, hp]; exact ha⟩

/-- A token that is a node of its own is consumed, and the node finished. -/
theorem leafInert {o : Opened} {p : Production Node} (ho : o.start = s.stream.current.start)
    (hl : p.leaf.Keeps s.stream.current) (hchildren : p.children = [])
    (hdue : ∀ k, p.due k = 0) :
    Tells x e (Parser.advance >>= fun _ => Parser.finish o p) s fun f n t =>
      (f = e + n.notes ∧ n.after? = none) ∧ s.Eats x t := by
  refine .of fun hs => ?_
  have hleaf : s.kind.isLeaf = true := hl.isLeaf
  have hne : s.kind ≠ .eof := TokenKind.ne_eof_of_isLeaf hleaf
  have hfilled : s.stream.current.start.offset < s.stream.current.stop.offset := hs.filled hne
  have htag : s.stream.atTag = false := by
    have hkind : s.stream.current.kind ≠ .semicolon := fun hk => by
      rw [ParseState.kind, hk] at hleaf
      cases hleaf
    simp [Stream.atTag, hkind]
  have hstop : (s.advance.finishNode o).1.span.stop = s.stream.current.stop := by
    have hprev : s.advance.stream.prev = s.stream.current.stop := by
      simp [ParseState.advance, Stream.advance, htag]
    have hle : o.start.offset ≤ s.stream.current.stop.offset := by
      rw [ho]
      omega
    show (if o.start.offset ≤ s.advance.stream.prev.offset then s.advance.stream.prev
      else o.start) = _
    rw [hprev, if_pos hle]
  have hnotes : (Node.mk (s.advance.finishNode o).1 p).notes =
      {.bare s.stream.current.start s.stream.current.stop p.leaf} := by
    have hstart : (s.advance.finishNode o).1.span.start = s.stream.current.start := ho
    have hbare : (Node.mk (s.advance.finishNode o).1 p).isBare = true := by
      rw [Node.isBare, Node.children, hchildren, hstart, hstop]
      simp [hfilled]
    rw [Node.notes_eq, Node.bare, if_pos hbare, hdue, hstart, hstop, add_zero]
  refine .bind (of_advance (Q := fun e' _ t => t = s.advance ∧
    e' = e + {.bare s.stream.current.start s.stream.current.stop p.leaf}) (.leaf hl)
    ⟨rfl, rfl⟩) fun e' _ t h => ?_
  obtain ⟨rfl, he⟩ := h
  refine of_update rfl rfl ⟨⟨?_, ?_⟩, fun _ _ => ?_⟩
  · rw [he, ← hnotes]
  · cases p with
    | haltCompiler => exact hl.elim
    | _ => rfl
  · have hrest := Stream.rest_advance hs.sound hne
    show s.stream.advance.rest < s.stream.rest
    omega

theorem leafNode {o : Opened} {p : Production Node} (ho : o.start = s.stream.current.start)
    (hl : p.leaf.Keeps s.stream.current) (hchildren : p.children = [])
    (hdue : ∀ k, p.due k = 0) :
    Tells x e (Parser.advance >>= fun _ => Parser.finish o p) s fun f n t =>
      f = e + n.notes ∧ s.Eats x t :=
  (leafInert ho hl hchildren hdue).mono fun _ _ _ ⟨⟨hf, _⟩, heats⟩ => ⟨hf, heats⟩

/-! ## Errors -/

/-- In strict mode an error ends the parse. -/
theorem raise {cause : Cause} {message : String} {ex : Expected}
    {Q : Notes → Node → ParseState → Prop}
    (hQ : x.strict = false → Q e (s.errorNode message ex) (s.record message ex)) :
    Tells x e (Parser.raise cause message ex) s Q := by
  intro answer _ hs
  have hmode := hs.mode
  cases hstrict : x.strict with
  | true =>
    have hmode : s.stream.options.suppressErrors = false := by simp [hmode, hstrict]
    have hmodern : s.modern.stream.options.suppressErrors = false := hmode
    simp only [Parser.raise, hmode, hmodern, Bool.false_eq_true, if_false]
    exact .of_error
  | false =>
    have hmode : s.stream.options.suppressErrors = true := by simp [hmode, hstrict]
    have hmodern : s.modern.stream.options.suppressErrors = true := hmode
    simp only [Parser.raise, hmode, hmodern, if_true]
    refine .of_ok (f := 0) .refl ?_
    rw [add_zero]
    exact hQ hstrict

/-- What is missing is not there in strict mode, and answers for nothing. -/
structure Lacks (x : Text) (s t : ParseState) (n : Node) : Prop where
  tolerant : x.strict = false
  notes : n.notes = 0
  after : n.after? = none
  stream : t.stream = s.stream

theorem Lacks.marks {t : ParseState} {n : Node} (h : Lacks x s t n) {p : Position} : x.Marks p :=
  fun hx => by
    rw [h.tolerant] at hx
    cases hx

theorem missing {ex : Expected} :
    Tells x e (Parser.missing ex) s fun f n t => f = e ∧ Lacks x s t n :=
  .read (raise fun hx => ⟨rfl, hx, s.errorNode_notes _ _, rfl, rfl⟩) fun _ _ => rfl

/-- An error node in the place of what is missing. -/
theorem missingNode {ex : Expected} :
    Tells x e (Parser.missing ex) s fun f n t => f = e + n.notes ∧ s.Eats x t :=
  missing.mono fun _ _ _ ⟨hf, hn⟩ => ⟨by rw [hf, hn.notes, add_zero], .of_tolerant hn.tolerant⟩

/-- A token that nothing can be made of is skipped behind an error, unless it closes
something. -/
theorem skip {n : Node} (hx : x.strict = false) :
    Tells x e (Parser.kind >>= fun j =>
      if (!TokenSet.closers.contains j) = true then Parser.advance >>= fun _ => pure n
      else pure n) s fun f m _ => f = e ∧ m = n := by
  refine .kind (.ite (fun hc => ?_) fun _ => .pure ⟨rfl, rfl⟩)
  have hne : s.kind ≠ .eof := fun hk => by
    rw [hk] at hc
    exact absurd hc (by decide)
  refine .bind (Q := fun f _ _ => f = e) ?_ fun f _ t hf => .pure ⟨hf, rfl⟩
  refine of_advance (f := 0) (.mark hne fun hstrict => ?_) (add_zero e)
  rw [hx] at hstrict
  cases hstrict

/-- What is missing answers for nothing. -/
theorem omission {ex : Expected} :
    Tells x e (Parser.missing ex) s fun f n _ => f = e + n.notes :=
  missingNode.mono fun _ _ _ h => h.1

theorem omissionInert {ex : Expected} :
    Tells x e (Parser.missing ex) s fun f n _ => f = e + n.notes ∧ n.after? = none :=
  missing.mono fun _ _ _ ⟨hf, hn⟩ => ⟨by rw [hf, hn.notes, add_zero], hn.after⟩

theorem objection {cause : Cause} {message : String} :
    Tells x e (Parser.objection cause message) s fun f _ t =>
      f = e ∧ x.strict = false ∧ t.stream = s.stream :=
  raise fun hx => ⟨rfl, hx, rfl⟩

theorem fatal {cause : Cause} {message : String} : Tells x e (Parser.fatal cause message) s Q :=
  fun _ _ _ => .of_error

/-- Syntax of a version of the language is noted where the options are looked at. -/
theorem requireOption {opt : Options → Bool} (g : Gate) (hg : ∀ o, opt o = g.isOpen o) :
    Tells x e (Parser.requireOption opt) s fun f _ t =>
      f = e + {.gate g} ∧ t.stream.current = s.stream.current ∧ t.stream.peek = s.stream.peek := by
  intro answer ha hs
  have heval (u : ParseState) : (Parser.requireOption opt u).eval answer =
      if g.isOpen u.stream.options = true then .ok ((), u)
      else ((Parser.unavailable >>= fun _ => pure ()) u).eval answer := by
    rw [← hg]
    show ((if opt u.stream.options = true then pure ()
      else Parser.unavailable >>= fun _ => pure ()) u : Step Unit).eval answer = _
    split
    all_goals rfl
  have hmodern : (Parser.requireOption opt s.modern).eval answer = .ok ((), s.modern) := by
    rw [heval]
    exact if_pos (g.isOpen_modern _)
  rw [hmodern, heval]
  by_cases hopen : g.isOpen s.stream.options = true
  · rw [if_pos hopen]
    exact .of_ok (.gate fun _ => hopen) ⟨rfl, rfl, rfl⟩
  · rw [if_neg hopen]
    have hnote : Tells x e (Parser.unavailable >>= fun _ => pure ()) s fun f _ t =>
        f = e ∧ x.strict = false ∧ t.stream = s.stream :=
      .bind (.read (raise fun hx => ⟨rfl, hx, rfl⟩) fun _ _ => rfl) fun _ _ _ h => .pure h
    refine ⟨fun ho => ?_, fun hx _ _ ho => ?_, fun hx _ _ _ ho hm => ?_⟩
    · obtain ⟨f, _, hf, hx, hstream⟩ := (hnote answer ha hs).ok ho
      refine ⟨{.gate g}, ?_, rfl, by rw [hstream], by rw [hstream]⟩
      rw [hstream]
      exact .gate fun ⟨hplain, _⟩ => by
        rw [hx] at hplain
        cases hplain
    · obtain ⟨f, _, hf, hstrict, _⟩ := (hnote answer ha hs).ok ho
      rw [hx.1] at hstrict
      cases hstrict
    · cases hm
      refine ⟨{.gate g}, .gate fun _ => g.isOpen_modern _,
        ⟨rfl, rfl, Stream.peek_modern hs hx.2⟩, g, ?_, ?_⟩
      · exact Multiset.mem_singleton_self _
      · exact Bool.eq_false_iff.mpr hopen

/-- A construct that has been read is noted, where the options admit it. -/
theorem note {p : Parser α} (g : Gate) (c : α → Bool) (h : Tells x e p s Q)
    (hg : x.IsPlain → g.isOpen s.stream.options = true) :
    Tells x e p s fun f a t => ∃ f', Q f' a t ∧ f = f' + g.due (c a) := by
  have hpass (a : α) (t : ParseState) (ht : x.IsPlain → g.isOpen t.stream.options = true) :
      Passes x t.stream (g.due (c a)) t.stream := by
    cases c a with
    | false => exact .refl
    | true => exact .gate ht
  intro answer ha hs
  have htold := h answer ha hs
  refine ⟨fun {a t} ho => ?_, htold.lift, fun hx _ a t ho hm => ?_⟩
  · obtain ⟨f, hp, hq⟩ := htold.ok ho
    have hgate := hpass a t fun hx => by
      rw [hp.options]
      exact hg hx
    exact ⟨f + g.due (c a), hp.trans hgate, e + f, hq, (add_assoc ..).symm⟩
  · obtain ⟨f, hp, hq, g', hmem, hshut⟩ := htold.shut hx ho hm
    have hgate := hpass a t fun _ => by
      rw [hp.options]
      exact g.isOpen_modern _
    refine ⟨f + g.due (c a), hp.trans hgate, ⟨e + f, hq, (add_assoc ..).symm⟩, g', ?_, hshut⟩
    exact Multiset.mem_add.mpr (Or.inl hmem)

/-! ## Tokens that have to be there or may be there -/

theorem eat {j : TokenKind} (hj : j.isMark = true) :
    Tells x e (Parser.eat j) s fun f c t =>
      f = e ∧ ((c = true ∧ s.kind = j ∧ t = s.advance) ∨ (c = false ∧ s.kind ≠ j ∧ t = s)) :=
  .isAt (fun hk => .pass (hk ▸ hj) fun _ ht => .pure ⟨rfl, Or.inl ⟨rfl, hk, ht⟩⟩)
    fun hk => .pure ⟨rfl, Or.inr ⟨rfl, hk, rfl⟩⟩

/-- A token that may be there, where nothing depends on it. -/
theorem eatAny {j : TokenKind} (hj : j.isMark = true) :
    Tells x e (Parser.eat j) s fun f _ _ => f = e :=
  (eat hj).mono fun _ _ _ h => h.1

theorem ifEat {j : TokenKind} {p q : Parser α} (hj : j.isMark = true)
    (hp : s.kind = j → ∀ t, t = s.advance → Tells x e p t Q) (hq : s.kind ≠ j → Tells x e q s Q) :
    Tells x e (Parser.eat j >>= fun c => if c = true then p else q) s Q := by
  refine .bind (eat hj) fun f c t ⟨hf, hc⟩ => ?_
  subst hf
  rcases hc with ⟨rfl, hk, ht⟩ | ⟨rfl, hk, rfl⟩
  · exact hp hk t ht
  · exact hq hk

/-- In strict mode a token that has to be there is there. -/
theorem expect {j : TokenKind} (hj : j.isMark = true) :
    Tells x e (Parser.expect j) s fun f _ _ => f = e ∧ x.Marks s.stream.current.start :=
  .of fun hs => .ifEat hj (fun hk _ _ => .pure ⟨rfl, hs.marks (by rwa [← hk] at hj)⟩) fun _ =>
    .bind missing fun _ _ _ ⟨hf, hn⟩ => .pure ⟨hf, hn.marks⟩

theorem ifExpect {j : TokenKind} {p q : Parser α} (hj : j.isMark = true)
    (hp : ∀ t, Tells x e p t Q) (hq : ∀ t, Tells x e q t Q) :
    Tells x e (Parser.expect j >>= fun c => if c = true then p else q) s Q :=
  .bind (expect hj) fun _ _ t ⟨hf, _⟩ => hf ▸ .ite (fun _ => hp t) fun _ => hq t

theorem requireMark {j : TokenKind} (hj : j.isMark = true) :
    Tells x e (Parser.require j) s fun f _ _ => f = e ∧ x.Marks s.stream.current.start :=
  .bind (expect hj) fun _ _ _ h => .pure h

/-- A token that has to be there, where nothing depends on it. -/
theorem require {j : TokenKind} (hj : j.isMark = true) :
    Tells x e (Parser.require j) s fun f _ _ => f = e :=
  (requireMark hj).mono fun _ _ _ h => h.1

theorem endStatement : Tells x e Parser.endStatement s fun f _ _ => f = e := by
  refine .kind ?_
  split
  case h_1 hk => exact (advanceMark (hk ▸ rfl)).mono fun _ _ _ h => h.1
  case h_2 => exact .pure rfl
  case h_3 => exact .pure rfl
  case h_4 => exact .bind missing fun _ _ _ h => .pure h.1

/-! ## Parts that may be there -/

theorem optionally {c : Bool} {p : Parser Node}
    (hp : c = true → Tells x e p s fun f n _ => f = e + n.notes) :
    Tells x e (Parser.optionally c p) s fun f n _ => f = e + notesOf n.toList := by
  refine .ite (fun hc => .bind (hp hc) fun f n t hf => .pure ?_) fun _ => .pure ?_
  · simpa using hf
  · simp

theorem after {j : TokenKind} {p : Parser Node} (hj : j.isMark = true)
    (hp : ∀ t, Tells x e p t fun f n _ => f = e + n.notes) :
    Tells x e (Parser.after j p) s fun f n _ => f = e + notesOf n.toList :=
  .bind (eatAny hj) fun f _ t hf => by
    subst hf
    exact optionally fun _ => hp t

/-! ## What is kept as it is written -/

/-- The tokens of a group of braces are kept as they are written. -/
theorem quoted {p : Parser Unit} (hk : s.kind = .lBrace)
    (h : Tells x e p s fun f _ t => ∃ g, f = e + g ∧ Rule.Skips x s g t) :
    Tells x e p s fun f _ t => s.offset ≤ t.stream.prev.offset ∧
      f = e + {.block (t.stream.textBetween s.offset t.stream.prev.offset)
        t.stream.prev.offset} := by
  intro answer ha hs
  have htold := h answer ha hs
  refine ⟨fun ho => ?_, htold.lift, fun hx _ _ t ho hm => ?_⟩
  · obtain ⟨f, hpass, g, hfg, hskips⟩ := htold.ok ho
    rw [add_left_cancel hfg] at hpass
    exact ⟨_, hpass.quote hskips.skipped (hskips.opened hk), hskips.opened hk, rfl⟩
  · obtain ⟨f, _, ⟨g, hfg, hskips⟩, gate, hgate, _⟩ := htold.shut hx ho hm
    rw [add_left_cancel hfg] at hgate
    obtain ⟨k, hskip, _⟩ := hskips.skipped _ hgate
    cases hskip

/-! ## Other rules -/

theorem call {c : Shape} {r : Rule c} {Q : Notes → c.Value → ParseState → Prop}
    (hr : r.Apt s) (he : e = d + r.owes)
    (hq : ∀ f v t, r.Yields x s f v t → Q (d + f) v t) :
    Tells x e (Parser.call r) s Q := by
  intro answer ha hs
  have heval (u : ParseState) : (Parser.call r u).eval answer = answer c r u := by
    simp only [Parser.call, Step.eval]
    cases answer c r u <;> rfl
  rw [heval, heval]
  have htold := ha r s hr hs
  subst he
  refine ⟨fun ho => ?_, htold.lift, fun hx _ _ _ ho hm => ?_⟩
  · obtain ⟨f, hpass, hyields⟩ := htold.ok ho
    exact ⟨f, hpass, by rw [add_assoc]; exact hq _ _ _ hyields⟩
  · obtain ⟨f, hpass, hyields, hgate⟩ := htold.shut hx ho hm
    exact ⟨f, hpass, by rw [add_assoc]; exact hq _ _ _ hyields, hgate⟩

/-- A rule that yields a node and continues none. -/
theorem callNode {r : Rule .node} (hr : r.Apt s) (ho : r.owes = 0) :
    Tells x e (Parser.call r) s fun f n t =>
      f = e + n.notes ∧ (r.isKeen = true → s.Eats x t) :=
  call hr (by rw [ho, add_zero]) fun _ _ _ ⟨hf, hkeen, _⟩ => ⟨by rw [hf], hkeen⟩

/-- A rule that yields a statement which does not end the code. -/
theorem callInert {r : Rule .node} (hr : r.Apt s) (ho : r.owes = 0) (hi : r.isInert = true) :
    Tells x e (Parser.call r) s fun f n t =>
      (f = e + n.notes ∧ n.after? = none) ∧ (r.isKeen = true → s.Eats x t) :=
  call hr (by rw [ho, add_zero]) fun _ _ _ ⟨hf, hkeen, hinert⟩ => ⟨⟨by rw [hf], hinert hi⟩, hkeen⟩

theorem callPlain {r : Rule .node} (hp : r.isPlain = true) :
    Tells x e (Parser.call r) s fun f n t =>
      f = e + n.notes ∧ (r.isKeen = true → s.Eats x t) := by
  refine callNode ?_ ?_
  · cases r <;> trivial
  · cases r <;> first | rfl | cases hp

/-- A rule that consumes a token that is a node of its own. -/
theorem callKeen {r : Rule .node} (hp : r.isPlain = true) (hk : r.isKeen = true) :
    Tells x e (Parser.call r) s fun f n t => f = e + n.notes ∧ s.Eats x t :=
  (callPlain hp).mono fun _ _ _ ⟨hf, heats⟩ => ⟨hf, heats hk⟩

theorem expression : Tells x e Parser.expression s fun f n _ => f = e + n.notes :=
  (callPlain rfl).mono fun _ _ _ h => h.1

/-- A rule that yields a list of nodes. -/
theorem callList {r : Rule .nodes} (hr : r.Apt s) (ho : r.owes = 0)
    (hl : ∀ f ns t, r.Lists x s f ns t → f = notesOf ns) :
    Tells x e (Parser.call r) s fun f ns _ => f = e + notesOf ns :=
  call hr (by rw [ho, add_zero]) fun f ns t h => by rw [hl f ns t h]

/-- A rule that reads no node. -/
theorem callSilent {c : Shape} {r : Rule c} (hr : r.Apt s) (ho : r.owes = 0)
    (hy : ∀ f v t, r.Yields x s f v t → f = 0) :
    Tells x e (Parser.call r) s fun f _ _ => f = e :=
  call hr (by rw [ho, add_zero]) fun f v t h => by rw [hy f v t h, add_zero]

theorem separated {mark : TokenKind} {item : Rule .node}
    (hr : mark.isMark = true ∧ item.isPlain = true) :
    Tells x e (Parser.separated mark item) s fun f ns t =>
      f = e + notesOf ns ∧ ns ≠ [] ∧ (item.isKeen = true → s.Eats x t) :=
  call hr (add_zero e).symm fun _ _ _ ⟨hf, h⟩ => ⟨by rw [hf], h⟩

theorem delimited {close : TokenKind} {item : Rule .node}
    (hr : close.isMark = true ∧ item.isPlain = true) :
    Tells x e (Parser.delimited close item) s fun f ns _ => f = e + notesOf ns :=
  callList hr rfl fun _ _ _ h => h

theorem statements {stop : TokenSet} :
    Tells x e (Parser.call (.statements stop)) s fun f ns t =>
      f = e + notesOf ns ∧ (ns = [] → t.offset = s.offset) :=
  call trivial (add_zero e).symm fun _ _ _ ⟨hf, h⟩ => ⟨by rw [hf], h⟩

theorem topStatements {stop : TokenSet} :
    Tells x e (Parser.call (.topStatements stop)) s fun f ns _ =>
      f = e + (notesOf ns + tailsOf ns) :=
  call trivial (add_zero e).symm fun f ns _ (hf : f = notesOf ns + tailsOf ns) => by rw [hf]

theorem namespaceStatements :
    Tells x e (Parser.call .namespaceStatements) s fun f ns _ =>
      f = e + (notesOf ns + tailsOf ns) :=
  call trivial (add_zero e).symm fun f ns _ (hf : f = notesOf ns + tailsOf ns) => by rw [hf]

theorem braceGroup {depth : Nat} (hd : depth = 0 → s.kind = .lBrace) :
    Tells x e (Parser.call (.braceGroup depth)) s fun f _ t =>
      ∃ g, f = e + g ∧ Rule.Skips x s g t :=
  call hd (add_zero e).symm fun g _ _ h => ⟨g, rfl, h⟩

/-- Rules that go on with a node that has been read. -/
theorem infixes {min : Nat} {n : Node} (he : e = d + n.notes) :
    Tells x e (Parser.call (.infixes min n)) s fun f m _ => f = d + m.notes :=
  call trivial he fun _ _ _ ⟨hf, _⟩ => by rw [hf]

theorem lookups {n : Node} {readOnly : Bool} (he : e = d + n.notes) :
    Tells x e (Parser.call (.lookups n readOnly)) s fun f m _ => f = d + m.notes :=
  call trivial he fun _ _ _ ⟨hf, _⟩ => by rw [hf]

end Tells
end PhpSyntax
