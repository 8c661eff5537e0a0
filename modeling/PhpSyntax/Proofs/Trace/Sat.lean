/-
What the parts of a body satisfy.

`Sat b p s Q` says that the part `p` of a body, run from the state `s` by anything that
answers calls within the budget `b`, ends where `Q` holds, that the strict twin of `s`
goes along with it, and that the part keeps pace.  There is one rule for each action and
each way of composing them.  Actions that only look at the state are followed by what they
see.
-/
import PhpSyntax.Proofs.Trace.Pace

namespace PhpSyntax

variable {α β : Type} {b k l : Nat} {x : Bench × ParseState} {w : Bench} {s : ParseState}
  {Q R : α → ParseState → Prop}

def Sat (b : Nat) (p : Parser α) (s : ParseState) (Q : α → ParseState → Prop) : Prop :=
  ∀ answer : (c : Shape) → Rule c → ParseState → Outcome c.Value, Answers b answer →
    Meets s Q ((p s).eval answer) ((p s.strict).eval answer) ∧
      (p s).Paced b answer s.stream

namespace Sat

/-! ## Composition -/

theorem mono {p : Parser α} (h : Sat b p s Q) (hQ : ∀ a t, Q a t → R a t) : Sat b p s R :=
  fun answer ha => ⟨(h answer ha).1.mono hQ, (h answer ha).2⟩

protected theorem pure {a : α} (h : Q a s) : Sat b (pure a) s Q :=
  fun _ _ => ⟨.of_ok h rfl rfl, .refl⟩

protected theorem bind {p : Parser α} {f : α → Parser β} {Q' : β → ParseState → Prop}
    (h : Sat b p s Q) (hf : ∀ a t, Q a t → Sat b (f a) t Q') : Sat b (p >>= f) s Q' := by
  intro answer ha
  obtain ⟨hmeets, hpaced⟩ := h answer ha
  have hbind := hmeets.bind fun a t hq => (hf a t hq answer ha).1
  have eval (u : ParseState) : ((p >>= f) u).eval answer =
      ((p u).eval answer).andThen fun a t => (f a t).eval answer :=
    Step.eval_bind_eq answer (p u) f
  refine ⟨?_, hpaced.bind fun a t ht => (hf a t (hmeets.ok ht).1 answer ha).2⟩
  rw [eval, eval]
  exact hbind

protected theorem map {p : Parser α} {f : α → β} {Q' : β → ParseState → Prop}
    (h : Sat b p s Q) (hf : ∀ a t, Q a t → Q' (f a) t) : Sat b (f <$> p) s Q' :=
  .bind h fun a t hq => .pure (hf a t hq)

protected theorem ite {c : Prop} [Decidable c] {p q : Parser α} (hp : c → Sat b p s Q)
    (hq : ¬c → Sat b q s Q) : Sat b (if c then p else q) s Q := by
  by_cases hc : c
  · rw [if_pos hc]
    exact hp hc
  · rw [if_neg hc]
    exact hq hc

/-- What a part gives wherever it begins holds beside what it satisfies. -/
theorem given {p : Parser α} {V : α → ParseState → Prop} (h : Sat b p s Q)
    (hV : (p s).Gives V) : Sat b p s fun a t => Q a t ∧ V a t := by
  intro answer ha
  obtain ⟨hmeets, hpaced⟩ := h answer ha
  refine ⟨⟨fun ho => ?_, hmeets.error, hmeets.agrees⟩, hpaced⟩
  obtain ⟨hq, hrest⟩ := hmeets.ok ho
  exact ⟨⟨hq, hV.eval ha.gives ho⟩, hrest⟩

/-- Two ways to a value that the rest depends on. -/
protected theorem join {γ : Type} {c : Prop} [Decidable c] {p q : Parser γ} {f : γ → Parser α}
    {P : γ → ParseState → Prop} (hp : c → Sat b p s P) (hq : ¬c → Sat b q s P)
    (hf : ∀ a t, P a t → Sat b (f a) t Q) :
    Sat b (if c then p >>= f else q >>= f) s Q :=
  .ite (fun hc => .bind (hp hc) hf) fun hc => .bind (hq hc) hf

/-- A part that may be left out in front of the rest. -/
theorem possibly {γ : Type} {c : Prop} [Decidable c] {p : Parser γ} {q : Parser α}
    {P : ParseState → Prop} (hp : c → Sat b p s fun _ t => P t) (hs : ¬c → P s)
    (hq : ∀ t, P t → Sat b q t Q) : Sat b (if c then p >>= fun _ => q else q) s Q :=
  .ite (fun hc => .bind (hp hc) fun _ t ht => hq t ht) fun hc => hq s (hs hc)

/-! ## Looking at the state -/

protected theorem read {γ : Type} {g : ParseState → γ} {f : γ → Parser α}
    (h : Sat b (f (g s)) s Q) (hg : g s.strict = g s) : Sat b (Parser.read g >>= f) s Q := by
  intro answer ha
  obtain ⟨hmeets, hpaced⟩ := h answer ha
  refine ⟨?_, hpaced⟩
  show Meets s Q ((f (g s) s).eval answer) ((f (g s.strict) s.strict).eval answer)
  rw [hg]
  exact hmeets

protected theorem kind {f : TokenKind → Parser α} (h : Sat b (f s.kind) s Q) :
    Sat b (Parser.kind >>= f) s Q := .read h rfl

protected theorem text {f : String → Parser α} (h : ∀ word, Sat b (f word) s Q) :
    Sat b (Parser.text >>= f) s Q := .read (h _) rfl

protected theorem peek {f : TokenKind → Parser α} (h : Sat b (f s.stream.peek) s Q) :
    Sat b (Parser.peek >>= f) s Q := .read h rfl

protected theorem isAt {j : TokenKind} {p q : Parser α} (hp : s.kind = j → Sat b p s Q)
    (hq : s.kind ≠ j → Sat b q s Q) :
    Sat b (Parser.isAt j >>= fun c => if c = true then p else q) s Q :=
  .read (.ite (fun h => hp (of_decide_eq_true h)) fun h => hq fun e => h (decide_eq_true e)) rfl

protected theorem isIn {c : Category} {p q : Parser α}
    (hp : c.set.contains s.kind = true → Sat b p s Q)
    (hq : c.set.contains s.kind = false → Sat b q s Q) :
    Sat b (Parser.isIn c >>= fun c => if c = true then p else q) s Q :=
  .read (.ite hp fun h => hq (Bool.eq_false_iff.mpr h)) rfl

protected theorem sees {j : TokenKind} {f : Bool → Parser α}
    (h : Sat b (f (decide (s.kind = j))) s Q) : Sat b (Parser.isAt j >>= f) s Q := .read h rfl

protected theorem atEnd {f : Bool → Parser α} (h : Sat b (f (decide (s.kind = .eof))) s Q) :
    Sat b (Parser.atEnd >>= f) s Q := .read h rfl

/-! ## Changing the state -/

theorem of_update {g : ParseState → α × ParseState} (hs : g s.strict = ((g s).1, (g s).2.strict))
    (ht : (g s).2.tolerates = s.tolerates) (he : (g s).2.errors = s.errors)
    (hl : s.stream.Leads (g s).2.stream) (h : Q (g s).1 (g s).2) :
    Sat b (Parser.update g) s Q := by
  intro answer _
  refine ⟨?_, hl⟩
  show Meets s Q (.ok (g s)) (.ok (g s.strict))
  rw [hs]
  exact .of_ok h ht he

theorem of_advance {Q : Unit → ParseState → Prop} (hk : s.kind ≠ .eof) (hq : Q () s.advance) :
    Sat b Parser.advance s Q :=
  fun _ _ => ⟨.of_ok hq rfl rfl, .refl, hk, .refl⟩

theorem advance (h : Stage b k l x w s) (hk : s.kind ≠ .eof) :
    Sat b Parser.advance s fun _ t => t = s.advance ∧ Stage b 32 l x w t :=
  of_advance hk ⟨rfl, h.advance hk⟩

theorem advanceSolid (h : Stage b k l x w s) (hk : s.kind.IsSolid) :
    Sat b Parser.advance s fun _ t => Stage b 32 (max l s.offset) x w t :=
  of_advance hk.1 (h.advanceSolid hk)

/-- Consume a solid token that was looked at where nothing else has been consumed since. -/
theorem advanceFrom {t : ParseState} (ht : t.stream = s.stream) (hk : s.kind.IsSolid)
    (h : Stage b k l x w t) :
    Sat b Parser.advance t fun _ u => Stage b 32 (max l s.offset) x w u := by
  have hadvance := advanceSolid h (ParseState.kind_eq ht ▸ hk)
  rw [ParseState.offset_eq ht] at hadvance
  exact hadvance

/-- What has been gained need not be kept. -/
theorem spend {p : Parser α} {m : Nat} {u : α → Bench}
    (h : Sat b p s fun a t => Stage b m l x (u a) t) (hk : k ≤ m) :
    Sat b p s fun a t => Stage b k l x (u a) t :=
  h.mono fun _ _ h => h.spend hk

/-- The floor need not be raised. -/
theorem forget {p : Parser α} {m : Nat} {u : α → Bench}
    (h : Sat b p s fun a t => Stage b k (max l m) x (u a) t) :
    Sat b p s fun a t => Stage b k l x (u a) t :=
  h.mono fun _ _ h => h.lower (Nat.le_max_left _ _)

/-- Consume a solid token.  Any rule may be asked for behind it. -/
theorem consume {p : Parser α} {u : α → Bench} (h : Stage b k l x w s) (hk : s.kind.IsSolid)
    (hp : ∀ t, t = s.advance → Stage b 32 (max l s.offset) x w t →
      Sat b p t fun a t => Stage b 32 (max l s.offset) x (u a) t) :
    Sat b (Parser.advance >>= fun _ => p) s fun a t => Stage b k (max l s.offset) x (u a) t :=
  .bind (Q := fun _ t => t = s.advance) (of_advance hk.1 rfl)
    fun _ t ht => (hp t ht (ht ▸ h.advanceSolid hk)).spend h.limit

protected theorem openNode {f : Opened → Parser α} (h : Sat b (f s.openNode.1) s.openNode.2 Q) :
    Sat b (Parser.openNode >>= f) s Q :=
  .bind (Q := fun o t => o = s.openNode.1 ∧ t = s.openNode.2)
    (of_update s.strict_openNode rfl rfl .refl ⟨rfl, rfl⟩) fun _ _ ⟨ho, ht⟩ => ho ▸ ht ▸ h

/-- A node opened at a solid token, which is consumed. -/
theorem begin {f : Opened → Parser α} {u : α → Bench} (h : Stage b k l x w s)
    (hk : s.kind.IsSolid)
    (hf : ∀ o t, o.start.offset ≤ max l s.offset →
      Stage b 32 (max l s.offset) x (.opened o :: w) t →
      Sat b (f o) t fun a t => Stage b 32 (max l s.offset) x (u a) t) :
    Sat b (Parser.openNode >>= fun o => Parser.advance >>= fun _ => f o) s
      fun a t => Stage b k (max l s.offset) x (u a) t :=
  .openNode (consume h.openNode hk fun t _ h₁ => hf _ t (Nat.le_max_right _ _) h₁)

protected theorem openAt {n : Node} {f : Opened → Parser α}
    (h : Sat b (f (s.openAt n.span.start).1) (s.openAt n.span.start).2 Q) :
    Sat b (Parser.openAt n.span.start >>= f) s Q :=
  .bind (Q := fun o t => o = (s.openAt n.span.start).1 ∧ t = (s.openAt n.span.start).2)
    (of_update (s.strict_openAt _) rfl rfl .refl ⟨rfl, rfl⟩) fun _ _ ⟨ho, ht⟩ => ho ▸ ht ▸ h

/-- A node that continues the one read last with a solid token. -/
theorem extend {n : Node} {f : Opened → Parser α} (h : Stage b k l x (.node n :: w) s)
    (hk : s.kind.IsSolid)
    (hf : ∀ o t, o.start.offset ≤ max l s.offset →
      Stage b 32 (max l s.offset) x (.node n :: .opened o :: w) t → Sat b (f o) t Q) :
    Sat b (Parser.openAt n.span.start >>= fun o => Parser.advance >>= fun _ => f o) s Q := by
  have hn : n.span.start.offset ≤ s.offset := h.starts _ List.mem_cons_self
  refine .openAt (.bind (Q := fun _ t => Stage b 32 (max l s.offset) x
    (.node n :: .opened (.startingAt n.span.start) :: w) t) (of_advance hk.1 (h.extend hk))
    fun _ t h₁ => ?_)
  exact hf _ t (Nat.le_trans hn (Nat.le_max_right _ _)) h₁

/-- The same where something has been looked at in between. -/
theorem extendFrom {n : Node} {r : ParseState} (hr : r.stream = s.stream) (hk : s.kind.IsSolid)
    (h : Stage b k l x (.node n :: w) r) :
    Sat b Parser.advance (r.openAt n.span.start).2 fun _ t =>
      Stage b 32 (max l s.offset) x (.node n :: .opened (.startingAt n.span.start) :: w) t := by
  have hsolid : r.kind.IsSolid := ParseState.kind_eq hr ▸ hk
  have hextend := h.extend hsolid
  rw [ParseState.offset_eq hr] at hextend
  exact of_advance hsolid.1 hextend

theorem abandonInPlace {o : Opened} {n : Node}
    (h : Stage b k l x (.node n :: .opened o :: w) s) :
    Sat b (Parser.abandon o n) s fun m t =>
      t.stream = s.stream ∧ Stage b k l x (.node m :: w) t :=
  of_update (s.strict_abandon o n) rfl rfl .refl ⟨rfl, h.abandon⟩

theorem abandon {o : Opened} {n : Node} (h : Stage b k l x (.node n :: .opened o :: w) s) :
    Sat b (Parser.abandon o n) s fun m t => Stage b k l x (.node m :: w) t :=
  (abandonInPlace h).mono fun _ _ h => h.2

theorem nest (f : Nat → Nat) (h : Stage b k l x w s) :
    Sat b (Parser.modify fun s => { s with namespaceDepth := f s.namespaceDepth }) s
      fun _ t => Stage b k l x w t :=
  of_update (g := fun s => ((), { s with namespaceDepth := f s.namespaceDepth })) rfl rfl rfl
    .refl (h.nest _)

end Sat

/-! ## Nodes laid on the bench field by field -/

def layOption : Option Node → Bench → Bench
  | none, w => w
  | some n, w => .node n :: w

def Field.lay : Field Node → Bench → Bench
  | .node n, w => .node n :: w
  | .optional n, w => layOption n w
  | .nodes ns, w => stack ns w
  | .variableName (.dynamic n), w => .node n :: w
  | _, w => w

/-- The bench with the children of a production on it, in the order in which they are
read. -/
def Production.lay : Production Node → Bench → Bench
  | .do test body, w => .node test :: .node body :: w
  | .parameter ident typeHint default _ _ _, w =>
    layOption default (.node ident :: layOption typeHint w)
  | .propertyStatement properties _ typeHint _, w => stack properties (layOption typeHint w)
  | p, w => p.fields.foldl (fun w f => f.2.lay w) w

theorem mem_layOption {i : Item} {w : Bench} (n : Option Node) (h : i ∈ w) :
    i ∈ layOption n w := by
  cases n with
  | none => exact h
  | some n => exact List.mem_cons_of_mem _ h

theorem layOption_eq (n : Option Node) (w : Bench) : layOption n w = stack n.toList w := by
  cases n <;> rfl

theorem Field.lay_eq (f : Field Node) (w : Bench) : f.lay w = stack f.children w := by
  unfold lay children
  split
  · rfl
  · exact layOption_eq _ _
  · rfl
  · rfl
  · split <;> simp_all

theorem foldl_lay (fs : List (String × Field Node)) (w : Bench) :
    fs.foldl (fun w f => f.2.lay w) w = stack (fs.flatMap fun f => f.2.children) w := by
  induction fs generalizing w with
  | nil => rfl
  | cons f fs ih => rw [List.foldl_cons, ih, List.flatMap_cons, stack_append, Field.lay_eq]

theorem Production.lay_eq (p : Production Node) (w : Bench) : p.lay w = stack p.parts w := by
  cases p with
  | parameter ident typeHint default isRef isVariadic nullable =>
    simp only [lay, parts, children, layOption_eq, stack_append, stack_cons]
  | propertyStatement properties modifiers typeHint nullable =>
    simp only [lay, parts, children, layOption_eq, stack_append]
  | «do» test body => rfl
  | _ => exact foldl_lay _ _

def ParseState.finish (s : ParseState) (o : Opened) (p : Production Node) : Node × ParseState :=
  (⟨(s.finishNode o).1, p⟩, (s.finishNode o).2)

theorem ParseState.strict_finish (s : ParseState) (o : Opened) (p : Production Node) :
    s.strict.finish o p = ((s.finish o p).1, (s.finish o p).2.strict) := rfl

namespace Sat

theorem finishInPlace {o : Opened} {p : Production Node}
    (h : Stage b k l x (p.lay (.opened o :: w)) s) (hp : p.isHollow = true ∨ o.start.offset ≤ l)
    (he : p.isProper = true) :
    Sat b (Parser.finish o p) s fun n t =>
      t.stream = s.stream ∧ Stage b k l x (.node n :: w) t := by
  rw [p.lay_eq] at h
  have hbench : Stage b k l x (stack ([] ++ p.parts) (.opened o :: w)) s := h
  exact of_update (s.strict_finish o p) rfl rfl .refl ⟨rfl, hbench.finish hp he⟩

theorem finish {o : Opened} {p : Production Node} (h : Stage b k l x (p.lay (.opened o :: w)) s)
    (hp : p.isHollow = true ∨ o.start.offset ≤ l) (he : p.isProper = true) :
    Sat b (Parser.finish o p) s fun n t => Stage b k l x (.node n :: w) t :=
  (finishInPlace h hp he).mono fun _ _ h => h.2

/-- What is finished has the production that it was finished with. -/
theorem finishAs {o : Opened} {p : Production Node} (h : Stage b k l x (p.lay (.opened o :: w)) s)
    (hp : p.isHollow = true ∨ o.start.offset ≤ l) (he : p.isProper = true) :
    Sat b (Parser.finish o p) s fun n t => n.production = p ∧ Stage b k l x (.node n :: w) t := by
  rw [p.lay_eq] at h
  have hbench : Stage b k l x (stack ([] ++ p.parts) (.opened o :: w)) s := h
  exact of_update (s.strict_finish o p) rfl rfl .refl ⟨rfl, hbench.finish hp he⟩

/-- Finish a node, and leave the nodes that were read first for another parent. -/
theorem finishAbove {before : List Node} {o : Opened} {p : Production Node}
    (h : Stage b k l x (p.lay (stack before (.opened o :: w))) s)
    (hp : p.isHollow = true ∨ o.start.offset ≤ l) (he : p.isProper = true) :
    Sat b (Parser.finish o p) s fun n t => Stage b k l x (stack before (.node n :: w)) t := by
  rw [p.lay_eq, ← stack_append] at h
  exact of_update (s.strict_finish o p) rfl rfl .refl (Stage.finish h hp he)

/-! ## Errors -/

theorem raise {cause : Cause} {message : String} {e : Expected} {Q : Node → ParseState → Prop}
    (hc : cause.isFatal = false)
    (hQ : s.tolerates = true → Q (s.errorNode message e) (s.record message e)) :
    Sat b (Parser.raise cause message e) s Q := by
  refine fun answer _ => ⟨meets_raise hc hQ answer, ?_⟩
  rw [Parser.raise]
  split
  · exact Relation.ReflTransGen.refl
  · trivial

theorem objection {cause : Cause} {message : String} (hc : cause.isFatal = false)
    (h : Stage b k l x w s) :
    Sat b (Parser.objection cause message) s fun _ t =>
      t.stream = s.stream ∧ Stage b k l x w t :=
  raise hc fun hs => ⟨rfl, (h.record hs message .nothing l).drop rfl rfl rfl⟩

theorem isFatal_missing (e : Expected) :
    (if e = .category .expression then Cause.expectedExpression
      else .unexpectedToken).isFatal = false := by
  split <;> rfl

theorem missingInPlace (l' : Nat) {e : Expected} (h : Stage b k l x w s) :
    Sat b (Parser.missing e) s fun n t =>
      t.stream = s.stream ∧ Stage b k l' x (.node n :: w) t :=
  .read (raise (isFatal_missing e) fun hs => ⟨rfl, h.record hs _ e l'⟩) rfl

/-- An error node in the place of what is missing. -/
theorem missing (l' : Nat) {e : Expected} (h : Stage b k l x w s) :
    Sat b (Parser.missing e) s fun n t => Stage b k l' x (.node n :: w) t :=
  (missingInPlace l' h).mono fun _ _ h => h.2

/-- The error that something is missing, with nothing in its place. -/
theorem omitted (l' : Nat) {e : Expected} (h : Stage b k l x w s) :
    Sat b (Parser.missing e) s fun _ t => t.stream = s.stream ∧ Stage b k l' x w t :=
  .read (raise (isFatal_missing e) fun hs => ⟨rfl, (h.record hs _ e l').drop rfl rfl rfl⟩) rfl

theorem fatal {message : String} : Sat b (Parser.fatal .listAsKey message) s Q :=
  fun _ _ => ⟨.of_fatal rfl, trivial⟩

theorem requireOption {g : Options → Bool} (hg : g s.stream.options.strict = g s.stream.options)
    (h : Stage b k l x w s) :
    Sat b (Parser.requireOption g) s fun _ t => t.stream = s.stream ∧ Stage b k l x w t := by
  refine .read ?_ hg
  refine .ite (fun _ => .pure ⟨rfl, h⟩) fun _ => .bind ?_ fun _ t ht => .pure ht
  exact .read (raise rfl fun hs => ⟨rfl, (h.record hs _ .nothing l).drop rfl rfl rfl⟩) rfl

/-! ## Errors behind the opening of a node

A node that continues another is opened in front of the token that makes it longer.  What
is raised in between happens as well in front of the opening. -/

theorem omittedBehind {p : Position} {e : Expected} (h : Stage b k l x w s) :
    Sat b (Parser.missing e) (s.openAt p).2 fun _ t =>
      ∃ r, t = (r.openAt p).2 ∧ r.stream = s.stream ∧ Stage b k l x w r :=
  .read (raise (isFatal_missing e) fun hs =>
    ⟨s.record _ e, rfl, rfl, (h.record hs _ e l).drop rfl rfl rfl⟩) rfl

theorem requireOptionBehind {p : Position} {g : Options → Bool}
    (hg : g s.stream.options.strict = g s.stream.options) (h : Stage b k l x w s) :
    Sat b (Parser.requireOption g) (s.openAt p).2 fun _ t =>
      ∃ r, t = (r.openAt p).2 ∧ r.stream = s.stream ∧ Stage b k l x w r := by
  refine .read ?_ hg
  refine .ite (fun _ => .pure ⟨s, rfl, rfl, h⟩) fun _ => .bind ?_ fun _ t ht => .pure ht
  exact .read (raise rfl fun hs =>
    ⟨s.record _ .nothing, rfl, rfl, (h.record hs _ .nothing l).drop rfl rfl rfl⟩) rfl

end Sat
end PhpSyntax
