/-
What the rules make.

`Rule.Makes` says what a rule promises of its value, and `Makes` what a part of a body
comes to where calls keep those promises.  A part is followed from state to state: in
strict mode it goes on behind a missing token never, so what a rule opens in front of a
token that it requires does not start at the end of the text.
-/
import PhpSyntax.Proofs.Trace.Stage
import PhpSyntax.Proofs.Typing.Formed

namespace PhpSyntax

/-! ## States -/

namespace ParseState

structure Within (c : Scope) (s : ParseState) : Prop where
  options : s.stream.options = c.options
  mode : s.tolerates = !c.strict
  depth : s.namespaceDepth = c.depth
  stop : s.stream.stop.offset = c.stop
  sound : s.stream.Sound
  filled : s.stream.Filled
  tokens : s.kind ≠ .eof → s.stream.OnTokens c.source

/-- A state of the same scope behind `s`.  Behind the end of the text there is nothing. -/
structure Behind (c : Scope) (s t : ParseState) : Prop where
  within : t.Within c
  atEnd : s.kind = .eof → t.kind = .eof

variable {c : Scope} {s t u : ParseState}

theorem Within.here (h : s.Within c) : Behind c s s := ⟨h, id⟩

theorem Behind.trans (h : Behind c s t) (h' : Behind c t u) : Behind c s u :=
  ⟨h'.within, fun hk => h'.atEnd (h.atEnd hk)⟩

/-- A state at the same place. -/
theorem Within.same (h : s.Within c) (hs : t.stream = s.stream)
    (hd : t.namespaceDepth = s.namespaceDepth) : Behind c s t where
  within :=
    { options := by rw [hs]; exact h.options
      mode := by rw [tolerates, hs]; exact h.mode
      depth := hd.trans h.depth
      stop := by rw [hs]; exact h.stop
      sound := by rw [hs]; exact h.sound
      filled := by rw [hs]; exact h.filled
      tokens := by rw [kind_eq hs, hs]; exact h.tokens }
  atEnd := fun hk => (kind_eq hs).trans hk

/-- A token starts in front of the end of the text. -/
theorem Within.offset_lt (h : s.Within c) (hk : s.kind ≠ .eof) : s.offset < c.stop := by
  have hlt : s.offset < s.stream.current.stop.offset := h.filled hk
  have hle := h.sound.ahead.offset_le
  have hstop := h.stop
  omega

/-- Behind the end of the text there is no token. -/
theorem Within.atEnd (h : s.Within c) (hk : s.kind = .eof) : s.advance.kind = .eof := by
  have hahead := (h.sound.atEnd hk).2
  show s.stream.advance.current.kind = .eof
  rw [Stream.advance_kind, Stream.peek, Stream.upcoming, hahead]
  rfl

theorem Within.advance (h : s.Within c) : Behind c s s.advance where
  within :=
    { options := h.options
      mode := h.mode
      depth := h.depth
      stop := h.stop
      sound := Stream.advance_sound h.sound
      filled := Stream.advance_filled_of h.sound.ahead
      tokens := fun hne => by
        have hk : s.kind ≠ .eof := fun hk => hne (h.atEnd hk)
        exact (h.tokens hk).advance hk }
  atEnd := h.atEnd

theorem Within.halt (h : s.Within c) : Behind c s s.halt where
  within :=
    { options := h.options
      mode := h.mode
      depth := h.depth
      stop := h.stop
      sound := Stream.halt_sound h.sound
      filled := fun hk => absurd rfl hk
      tokens := fun hk => absurd rfl hk }
  atEnd := fun _ => rfl

end ParseState

/-! ## Nodes -/

namespace Node

/-- An expression: where it ends in an assignment, no operator follows. -/
structure Whole (c : Scope) (n : Node) (t : ParseState) : Prop where
  wellFormed : n.WellFormed c
  other : n.production.isTraitUse = false
  ends : n.EndsInAssignment → t.StopsAt 0

structure Closed (c : Scope) (n : Node) : Prop where
  wellFormed : n.WellFormed c
  other : n.production.isTraitUse = false
  closed : ¬n.EndsInAssignment

/-- The error that stands for something missing, which there is in tolerant mode only. -/
structure Missing (c : Scope) (n : Node) : Prop where
  mode : c.strict = false
  wellFormed : n.WellFormed c
  isError : n.isError = true

variable {c : Scope} {n : Node}

theorem Whole.fills {t : ParseState} (h : n.Whole c t) : n.Fills c .any :=
  h.wellFormed.fills h.other

theorem Closed.fills (h : n.Closed c) : n.Fills c .any := h.wellFormed.fills h.other

theorem Closed.fillsSlot {k : Slot} (h : n.Closed c) (hn : k.accepts n = true) : n.Fills c k :=
  ⟨h.wellFormed, hn, fun e => absurd (h.other.symm.trans e) Bool.false_ne_true⟩

theorem Closed.whole (h : n.Closed c) (t : ParseState) : n.Whole c t :=
  ⟨h.wellFormed, h.other, fun he => absurd he h.closed⟩

theorem Missing.closed (h : n.Missing c) : n.Closed c := by
  have herror := h.isError
  obtain ⟨info, p⟩ := n
  cases p with
  | error =>
    refine ⟨h.wellFormed, rfl, fun he => ?_⟩
    cases he with
    | tail htail => cases htail
  | _ => cases herror

theorem Missing.fills (h : n.Missing c) (k : Slot) : n.Fills c k :=
  h.closed.fillsSlot (by rw [Slot.accepts, h.isError, Bool.true_or])

theorem Missing.isAssigned (h : n.Missing c) : n.isAssigned = false := by
  have herror := h.isError
  obtain ⟨info, p⟩ := n
  cases p with
  | error => rfl
  | _ => cases herror

theorem Missing.handTo (h : n.Missing c) (o : Opened) : (o.handTo n).Missing c :=
  ⟨h.mode, h.wellFormed.handTo o, h.isError⟩

/-- A node that is well formed if `p` yields it from a state at a token of one of the kinds
`ks`. -/
structure Filled (c : Scope) (ks : List TokenKind) (p : Parser Node) (n : Node) : Prop where
  crafted : n.production.isCrafted = true
  maker : (ks, p) ∈ n.production.makers
  fills : ∀ e ∈ n.production.places, e.2.Fills c e.1

theorem Filled.wellFormed {ks : List TokenKind} {p : Parser Node} (h : n.Filled c ks p)
    (hn : n.Yielded c ks p) : n.WellFormed c := by
  have hmade : n.production.Made c n.span := ⟨(ks, p), h.maker, n, hn, rfl, rfl⟩
  obtain ⟨info, q⟩ := n
  exact wellFormed_mk h.fills fun hsuits => .crafted h.crafted hsuits hmade

/-- No other rule than the one for it makes the use of traits. -/
theorem Filled.other {ks : List TokenKind} {p : Parser Node} (h : n.Filled c ks p)
    (huse : TokenKind.kwUse ∉ ks) : n.production.isTraitUse = false := by
  have hmaker := h.maker
  obtain ⟨info, q⟩ := n
  cases q with
  | traitUse =>
    cases List.mem_singleton.mp hmaker
    exact absurd List.mem_cons_self huse
  | _ => rfl

end Node

/-! ## Rules -/

namespace Rule

def slot : Rule .node → Slot
  | .useItem .. => .importItem
  | .directive => .directive
  | .staticVariable => .staticVariable
  | .parameter => .parameter
  | .name => .name
  | _ => .any

def itemSlot : Rule .nodes → Slot
  | .separated _ item | .delimited _ item => item.slot
  | .handlers => .handler
  | .members => .member
  | .entries _ isPattern => if isPattern then .element else .entry
  | _ => .any

def Takes (c : Scope) {d : Shape} (r : Rule d) (s : ParseState) : Prop :=
  match r with
  | .separated _ item | .delimited _ item => item.isPlain = true
  | .infixes _ left => left.Whole c s
  | .lookups base _ => base.Closed c
  | .classFlags isAbstract isFinal => c.strict = true → (isAbstract && isFinal) = false
  | .ifStatement => s.kind ∈ [.kwIf, .kwElseIf]
  | .shortElseIf => s.kind ∈ [.kwElseIf]
  | _ => True

def Makes (c : Scope) : {d : Shape} → Rule d → ParseState → d.Value → ParseState → Prop
  | _, .operand, _, n, t => n.Whole c t
  | _, .expression min, _, n, t | _, .infixes min _, _, n, t => n.Whole c t ∧ t.StopsAt min
  | _, .variable _, s, n, _ => n.Closed c ∧ (s.kind = .amp → n.isAssigned = false)
  | _, .simpleVariable, _, n, _ | _, .lookups _ _, _, n, _ => n.Closed c
  | _, .name, _, n, _ => n.Closed c ∧ Slot.name.accepts n = true
  | _, .shortElseIf, _, n, t => (c.strict = true → t.kind ≠ .eof) → n.Fills c .any
  | _, .cases _, _, ns, _ => ∀ n ∈ ns, n.WellFormed c ∧ n.production.isCase = true
  | _, .classFlags _ _, _, flags, _ => c.strict = true → (flags.1 && flags.2) = false
  | .node, r, _, n, _ => n.Fills c r.slot
  | .nodes, r, _, ns, _ => ∀ n ∈ ns, n.Fills c r.itemSlot
  | _, _, _, _, _ => True

structure Delivers {d : Shape} (r : Rule d) (s : ParseState) (v : d.Value) (t : ParseState) :
    Prop where
  yields : Parser.Yields r.body s v t
  makes : ∀ c, s.Within c → r.Takes c s → ParseState.Behind c s t ∧ r.Makes c s v t

variable {c : Scope} {r : Rule .node} {s t : ParseState} {n : Node}

theorem takes_of_isPlain (h : r.isPlain = true) : r.Takes c s := by
  cases r with
  | ifStatement | shortElseIf | infixes | lookups => cases h
  | _ => trivial

theorem fills_of_isPlain (h : r.isPlain = true) (hn : r.Makes c s n t) : n.Fills c r.slot := by
  cases r with
  | statement | ifStatement | shortElseIf | infixes | lookups => cases h
  | operand => exact Node.Whole.fills hn
  | expression | «variable» => exact hn.1.fills
  | simpleVariable => exact Node.Closed.fills hn
  | name => exact hn.1.fillsSlot hn.2
  | _ => exact hn

end Rule

variable {α β : Type}

def Step.Keeps (V : α → ParseState → Prop) : Step α → Prop
  | .done a s => V a s
  | .stop _ => True
  | .advance s next => (next s.advance).Keeps V
  | .call r s next => ∀ v t, r.Delivers s v t → (next v t).Keeps V

namespace Step.Keeps

variable {V W : α → ParseState → Prop}

theorem mono {t : Step α} (h : t.Keeps V) (hVW : ∀ a s, V a s → W a s) : t.Keeps W := by
  induction t with
  | done a s => exact hVW a s h
  | stop => trivial
  | advance s next ih => exact ih _ h
  | call r s next ih => exact fun v t hv => ih v t (h v t hv)

theorem bind {t : Step α} {f : α → ParseState → Step β} {V' : β → ParseState → Prop}
    (h : t.Keeps V) (hf : ∀ a s, V a s → (f a s).Keeps V') : (t.bind f).Keeps V' := by
  induction t with
  | done a s => exact hf a s h
  | stop => trivial
  | advance s next ih => exact ih _ h
  | call r s next ih => exact fun v t hv => ih v t (h v t hv)

theorem eval {t : Step α} {answer : (c : Shape) → Rule c → ParseState → Outcome c.Value}
    (h : t.Keeps V)
    (ha : ∀ {c : Shape} {r : Rule c} {s t : ParseState} {v : c.Value},
      answer c r s = .ok (v, t) → r.Delivers s v t)
    {a : α} {s : ParseState} (ht : t.eval answer = .ok (a, s)) : V a s := by
  induction t with
  | done =>
    cases ht
    exact h
  | stop => cases ht
  | advance s next ih => exact ih _ h ht
  | @call c r s next ih =>
    simp only [Step.eval] at ht
    split at ht
    · next v t hv => exact ih v t (h v t (ha hv)) ht
    · cases ht

/-- What the body ends with is what it yields. -/
theorem yields {t : Step α} (h : t.Keeps V) :
    t.Keeps fun a s => V a s ∧ ∃ es, t.Runs es (.ok (a, s)) := by
  induction t with
  | done a s => exact ⟨h, [], .done⟩
  | stop => trivial
  | advance s next ih =>
    exact (ih _ h).mono fun a t ⟨hv, es, hes⟩ => ⟨hv, _, .advance hes⟩
  | call r s next ih =>
    intro v t hr
    obtain ⟨es, hes⟩ := hr.yields
    exact (ih v t (h v t hr)).mono fun a u ⟨hv, fs, hfs⟩ => ⟨hv, _, .call hes hfs⟩

end Step.Keeps

def Makes (c : Scope) (p : Parser α) (s : ParseState) (V : α → ParseState → Prop) : Prop :=
  s.Within c → (p s).Keeps fun a t => ParseState.Behind c s t ∧ V a t

namespace Makes

variable {c : Scope} {s : ParseState} {V W : α → ParseState → Prop} {U : β → ParseState → Prop}

/-! ## Composition -/

theorem mono {p : Parser α} (h : Makes c p s V) (hVW : ∀ a t, V a t → W a t) : Makes c p s W :=
  fun hs => (h hs).mono fun a t ⟨ht, hv⟩ => ⟨ht, hVW a t hv⟩

protected theorem pure {a : α} (h : V a s) : Makes c (pure a) s V := fun hs => ⟨hs.here, h⟩

/-- What follows is told whether it is at the end of the text. -/
theorem follow {p : Parser β} {f : β → Parser α} (hp : Makes c p s U)
    (hf : ∀ b t, (s.kind = .eof → t.kind = .eof) → U b t → Makes c (f b) t V) :
    Makes c (p >>= f) s V :=
  fun hs => (hp hs).bind fun b t ⟨ht, hb⟩ =>
    (hf b t ht.atEnd hb ht.within).mono fun _ _ ⟨hu, ha⟩ => ⟨ht.trans hu, ha⟩

protected theorem bind {p : Parser β} {f : β → Parser α} (hp : Makes c p s U)
    (hf : ∀ b t, U b t → Makes c (f b) t V) : Makes c (p >>= f) s V :=
  follow hp fun b t _ hb => hf b t hb

protected theorem map {p : Parser β} {f : β → α} (hp : Makes c p s U)
    (hf : ∀ b t, U b t → V (f b) t) : Makes c (f <$> p) s V :=
  .bind hp fun b t hb => .pure (hf b t hb)

protected theorem ite {q : Prop} [Decidable q] {p p' : Parser α} (hp : q → Makes c p s V)
    (hp' : ¬q → Makes c p' s V) : Makes c (if q then p else p') s V := by
  by_cases hq : q
  · rw [if_pos hq]
    exact hp hq
  · rw [if_neg hq]
    exact hp' hq

/-- Two ways to a value that the rest depends on. -/
protected theorem join {q : Prop} [Decidable q] {p p' : Parser β} {f : β → Parser α}
    (hp : q → Makes c p s U) (hp' : ¬q → Makes c p' s U)
    (hf : ∀ b t, U b t → Makes c (f b) t V) :
    Makes c (if q then p >>= f else p' >>= f) s V :=
  .ite (fun hq => .bind (hp hq) hf) fun hq => .bind (hp' hq) hf

/-- A part that may be left out in front of the rest. -/
theorem possibly {q : Prop} [Decidable q] {p : Parser β} {f : Parser α}
    (hp : q → Makes c p s fun _ _ => True) (hf : ∀ t, Makes c f t V) :
    Makes c (if q then p >>= fun _ => f else f) s V :=
  .ite (fun hq => .bind (hp hq) fun _ t _ => hf t) fun _ => hf s

/-! ## The state -/

protected theorem read {g : ParseState → β} {f : β → Parser α} (h : Makes c (f (g s)) s V) :
    Makes c (Parser.read g >>= f) s V := h

protected theorem kind {f : TokenKind → Parser α} (h : Makes c (f s.kind) s V) :
    Makes c (Parser.kind >>= f) s V := h

/-- A value that is read off the state, whatever it is. -/
theorem some {g : ParseState → β} {f : β → Parser α} (h : ∀ b, Makes c (f b) s V) :
    Makes c (Parser.read g >>= f) s V := h _

protected theorem isAt {k : TokenKind} {p q : Parser α} (hp : s.kind = k → Makes c p s V)
    (hq : s.kind ≠ k → Makes c q s V) :
    Makes c (Parser.isAt k >>= fun b => if b = true then p else q) s V :=
  .read (.ite (fun h => hp (of_decide_eq_true h)) fun h => hq fun e => h (decide_eq_true e))

theorem advance : Makes c Parser.advance s fun _ _ => True := fun hs => ⟨hs.advance, trivial⟩

/-- Consume a token, wherever that leads. -/
theorem pass {p : Parser α} (h : ∀ t, Makes c p t V) :
    Makes c (Parser.advance >>= fun _ => p) s V := .bind advance fun _ t _ => h t

/-- Consume the token that is here. -/
theorem step {p : Parser α} (h : Makes c p s.advance V) :
    Makes c (Parser.advance >>= fun _ => p) s V := fun hs =>
  (h hs.advance.within).mono fun _ _ ⟨ht, ha⟩ => ⟨hs.advance.trans ht, ha⟩

theorem eat {k : TokenKind} : Makes c (Parser.eat k) s fun b _ => b = true → s.kind = k :=
  .isAt (fun hk => pass fun _ => .pure fun _ => hk) fun _ => .pure fun h => nomatch h

theorem ifEat {k : TokenKind} {p q : Parser α} (hp : ∀ t, Makes c p t V)
    (hq : ∀ t, Makes c q t V) :
    Makes c (Parser.eat k >>= fun b => if b = true then p else q) s V :=
  .bind eat fun _ t _ => .ite (fun _ => hp t) fun _ => hq t

/-- What is opened at a token starts in front of the end of the text. -/
protected theorem openNode {f : Opened → Parser α}
    (hf : ∀ o t, t.kind = s.kind → (s.kind ≠ .eof → o.start.offset < c.stop) →
      Makes c (f o) t V) :
    Makes c (Parser.openNode >>= f) s V := by
  intro hs
  have hopen : ParseState.Behind c s s.openNode.2 := hs.same rfl rfl
  exact (hf _ s.openNode.2 rfl (fun hk => hs.offset_lt hk) hopen.within).mono
    fun _ _ ⟨ht, ha⟩ => ⟨hopen.trans ht, ha⟩

/-- What is opened here. -/
theorem openHere {f : Opened → Parser α} (hf : Makes c (f s.openNode.1) s.openNode.2 V) :
    Makes c (Parser.openNode >>= f) s V := by
  intro hs
  have hopen : ParseState.Behind c s s.openNode.2 := hs.same rfl rfl
  exact (hf hopen.within).mono fun _ _ ⟨ht, ha⟩ => ⟨hopen.trans ht, ha⟩

/-- A node whose start does not matter. -/
theorem begin {f : Opened → Parser α} (hf : ∀ o t, Makes c (f o) t V) :
    Makes c (Parser.openNode >>= f) s V := .openNode fun o t _ _ => hf o t

protected theorem openAt {p : Position} {f : Opened → Parser α}
    (hf : ∀ o t, Makes c (f o) t V) : Makes c (Parser.openAt p >>= f) s V := by
  intro hs
  have hopen : ParseState.Behind c s (s.openAt p).2 := hs.same rfl rfl
  exact (hf _ (s.openAt p).2 hopen.within).mono fun _ _ ⟨ht, ha⟩ => ⟨hopen.trans ht, ha⟩

/-- What is finished is as well formed as its production is formed. -/
theorem finishFormed {o : Opened} {p : Production Node} {V : Node → ParseState → Prop}
    (hp : ∀ e ∈ p.places, e.2.Fills c e.1)
    (hformed : (∀ e ∈ p.places, e.1.Suits e.2) →
      p.Formed c (s.finishNode o).1.span)
    (hV : ∀ info t, t.kind = s.kind → (Node.mk info p).WellFormed c → V ⟨info, p⟩ t) :
    Makes c (Parser.finish o p) s V := by
  intro hs
  exact ⟨hs.same rfl rfl, hV (s.finishNode o).1 _ rfl (Node.wellFormed_mk hp hformed)⟩

/-- Finish a node that is not formed yet. -/
theorem finishBare {o : Opened} {p : Production Node} :
    Makes c (Parser.finish o p) s fun n _ => n.production = p := fun hs => ⟨hs.same rfl rfl, rfl⟩

/-- Finish a node that the rule `q` makes. -/
theorem finishFilled {o : Opened} {p : Production Node} {ks : List TokenKind} {q : Parser Node}
    (hp : ∀ e ∈ p.places, e.2.Fills c e.1) (hcrafted : p.isCrafted = true)
    (hmaker : (ks, q) ∈ p.makers) :
    Makes c (Parser.finish o p) s fun n _ => n.Filled c ks q := by
  refine finishBare.mono fun n t hn => ?_
  subst hn
  exact ⟨hcrafted, hmaker, hp⟩

theorem finish {o : Opened} {p : Production Node} {k : Slot}
    (hp : ∀ e ∈ p.places, e.2.Fills c e.1) (hk : k.admits p = true) (ho : p.isOrdinary = true) :
    Makes c (Parser.finish o p) s fun n _ => n.Fills c k :=
  finishFormed hp (.ordinary ho) fun _ _ _ h =>
    ⟨h, Slot.suits_of_admits hk (Production.isTraitUse_of_isOrdinary ho)⟩

/-- Finish an expression that has no expression at its right end. -/
theorem finishClosed {o : Opened} {p : Production Node} (hp : ∀ e ∈ p.places, e.2.Fills c e.1)
    (ho : p.isOrdinary = true) (htail : p.tail? = none)
    (hassign : ∀ op left right, p ≠ .assign op left right) :
    Makes c (Parser.finish o p) s fun n _ => n.Closed c := by
  refine finishFormed hp (.ordinary ho) fun info t _ h =>
    ⟨h, Production.isTraitUse_of_isOrdinary ho, ?_⟩
  refine Node.not_endsInAssignment (fun op left right e => absurd e (hassign op left right)) ?_
  intro m hm
  rw [htail] at hm
  cases hm

/-- Finish an expression with another one at its right end. -/
theorem finishWhole {o : Opened} {p : Production Node} {right : Node}
    (hp : ∀ e ∈ p.places, e.2.Fills c e.1) (hformed : (∀ e ∈ p.places, e.1.Suits e.2) →
      p.Formed c (s.finishNode o).1.span) (htail : p.tail? = Option.some right) (hright : right.Whole c s) :
    Makes c (Parser.finish o p) s fun n t => n.Whole c t := by
  refine finishFormed hp hformed fun info t ht h =>
    ⟨h, Production.isTraitUse_of_tail? htail, fun he => ?_⟩
  have hends : right.EndsInAssignment := by
    cases he with
    | assign => cases htail
    | tail hm he =>
      have hm : p.tail? = _ := hm
      rw [htail] at hm
      exact Option.some.inj hm ▸ he
  intro op hop
  exact hright.ends hends op (ht ▸ hop)

theorem abandon {o : Opened} {n : Node} {V : Node → ParseState → Prop}
    (h : ∀ t, t.kind = s.kind → V (o.handTo n) t) : Makes c (Parser.abandon o n) s V :=
  fun hs => ⟨hs.same rfl rfl, h _ rfl⟩

/-- A node that is of use only where the text goes on, unless errors are tolerated. -/
theorem finishIf {o : Opened} {p : Production Node} {P : Node → Prop}
    (h : (c.strict = true → s.kind ≠ .eof) → Makes c (Parser.finish o p) s fun n _ => P n) :
    Makes c (Parser.finish o p) s fun n t => (c.strict = true → t.kind ≠ .eof) → P n := by
  by_cases hs : c.strict = true → s.kind ≠ .eof
  · exact (h hs).mono fun n t hn _ => hn
  · exact fun hw => ⟨hw.same rfl rfl, fun ht => absurd ht hs⟩

/-- What is made is what the part yields. -/
theorem yields {p : Parser α} (h : Makes c p s V) :
    Makes c p s fun a t => V a t ∧ p.Yields s a t :=
  fun hs => (h hs).yields.mono fun _ _ ⟨⟨ht, hv⟩, hy⟩ => ⟨ht, hv, hy⟩

/-- What is made from a state at a token is known to be what the part yields there. -/
theorem yielded {p : Parser Node} {ks : List TokenKind} {U V : Node → ParseState → Prop}
    (hk : s.kind ∈ ks) (hne : TokenKind.eof ∉ ks) (h : Makes c p s U)
    (hV : ∀ n t, n.Yielded c ks p → U n t → V n t) : Makes c p s V := by
  intro hs
  refine (h.yields hs).mono fun n t ⟨ht, hn, hyields⟩ => ⟨ht, hV n t ?_ hn⟩
  have hkind : s.kind ≠ .eof := fun e => hne (e ▸ hk)
  exact ⟨s, t, hs.mode, hs.options, hs.sound, hs.tokens hkind, hk, hyields⟩

/-- What fills its places is well formed where it is known to be what its rule yields. -/
theorem filled {p : Parser Node} {ks : List TokenKind} (hk : s.kind ∈ ks)
    (hne : TokenKind.eof ∉ ks) (huse : TokenKind.kwUse ∉ ks)
    (h : Makes c p s fun n _ => n.Filled c ks p) : Makes c p s fun n _ => n.Fills c .any :=
  h.yielded hk hne fun _ _ hn hfilled => (hfilled.wellFormed hn).fills (hfilled.other huse)

/-- What is known of the state may be used. -/
theorem of {p : Parser α} (h : s.Within c → Makes c p s V) : Makes c p s V := fun hs => h hs hs

/-- A part behind the start of a namespace declaration, up to its end. -/
theorem nest {p : Parser β} {f : β → Parser α} (hp : ∀ t, Makes c.deeper p t U)
    (hf : ∀ b t u, U b t → Makes c (f b) u V) :
    Makes c (do
      Parser.modify fun s => { s with namespaceDepth := s.namespaceDepth + 1 }
      let b ← p
      Parser.modify fun s => { s with namespaceDepth := s.namespaceDepth - 1 }
      f b) s V := by
  intro hs
  have hin : { s with namespaceDepth := s.namespaceDepth + 1 }.Within c.deeper :=
    ⟨hs.options, hs.mode, congrArg (· + 1) hs.depth, hs.stop, hs.sound, hs.filled, hs.tokens⟩
  refine (hp _ hin).bind fun b t ⟨ht, hb⟩ => ?_
  have hout : { t with namespaceDepth := t.namespaceDepth - 1 }.Within c :=
    ⟨ht.within.options, ht.within.mode, congrArg (· - 1) ht.within.depth, ht.within.stop,
      ht.within.sound, ht.within.filled, ht.within.tokens⟩
  have hbehind : ParseState.Behind c s { t with namespaceDepth := t.namespaceDepth - 1 } :=
    ⟨hout, ht.atEnd⟩
  exact (hf b t _ hb hout).mono fun a u ⟨hu, ha⟩ => ⟨hbehind.trans hu, ha⟩

/-! ## Errors -/

theorem raise {cause : Cause} {message : String} {e : Expected} :
    Makes c (Parser.raise cause message e) s fun n _ => n.Missing c := by
  intro hs
  rw [Parser.raise]
  split
  · next h =>
    have hmode := hs.mode
    rw [show s.tolerates = true from h] at hmode
    refine ⟨hs.same rfl rfl, by simpa using hmode.symm, ?_, rfl⟩
    exact Node.wellFormed_leaf rfl rfl
  · trivial

theorem unexpected {cause : Cause} {e : Expected} :
    Makes c (Parser.unexpected cause e) s fun n _ => n.Missing c := .read raise

theorem missing {e : Expected} : Makes c (Parser.missing e) s fun n _ => n.Missing c := unexpected

theorem objection {cause : Cause} {message : String} :
    Makes c (Parser.objection cause message) s fun _ _ => c.strict = false :=
  raise.mono fun _ _ h => h.mode

theorem fatal {cause : Cause} {message : String} : Makes c (Parser.fatal cause message) s V :=
  fun _ => trivial

theorem requireOption {f : Options → Bool} :
    Makes c (Parser.requireOption f) s fun _ _ => True :=
  .read (.ite (fun _ => .pure trivial) fun _ => .bind unexpected fun _ _ _ => .pure trivial)

/-- Where a token is not what it has to be, a strict parse ends. -/
theorem expect {k : TokenKind} :
    Makes c (Parser.expect k) s fun _ _ => c.strict = true → s.kind = k := by
  refine .bind eat fun b t hb => .ite (fun h => .pure fun _ => hb h) fun _ => ?_
  refine .bind missing fun _ _ h => .pure fun hs => ?_
  rw [h.mode] at hs
  cases hs

theorem ifExpect {k : TokenKind} {p q : Parser α} (hp : ∀ t, Makes c p t V)
    (hq : ∀ t, Makes c q t V) :
    Makes c (Parser.expect k >>= fun b => if b = true then p else q) s V :=
  .bind expect fun _ t _ => .ite (fun _ => hp t) fun _ => hq t

theorem require {k : TokenKind} :
    Makes c (Parser.require k) s fun _ _ => c.strict = true → s.kind = k :=
  .bind expect fun _ _ h => .pure h

/-- A token that has to be there, where nothing depends on it. -/
theorem demand {k : TokenKind} {p : Parser α} (h : ∀ t, Makes c p t V) :
    Makes c (Parser.require k >>= fun _ => p) s V := .bind require fun _ t _ => h t

theorem endStatement : Makes c Parser.endStatement s fun _ _ => True := by
  refine .kind ?_
  split
  · exact advance
  · exact .pure trivial
  · exact .pure trivial
  · exact .bind missing fun _ _ _ => .pure trivial

/-- The end of a statement, wherever that leads. -/
theorem close {p : Parser α} (h : ∀ t, Makes c p t V) :
    Makes c (Parser.endStatement >>= fun _ => p) s V := .bind endStatement fun _ t _ => h t

theorem forceProgress {before : Position} :
    Makes c (Parser.forceProgress before) s fun _ _ => True :=
  .read (.ite (fun _ => advance) fun _ => .pure trivial)

/-! ## Other rules -/

theorem call {d : Shape} {r : Rule d} (hr : r.Takes c s) :
    Makes c (Parser.call r) s fun v t => r.Makes c s v t :=
  fun hs _ _ h => h.makes c hs hr

theorem expression : Makes c Parser.expression s fun n t => n.Whole c t ∧ t.StopsAt 0 :=
  call (r := .expression 0) trivial

theorem expressionAny : Makes c Parser.expression s fun n _ => n.Fills c .any :=
  expression.mono fun _ _ h => h.1.fills

theorem node {r : Rule .node} (h : r.isPlain = true) :
    Makes c (Parser.call r) s fun n _ => n.Fills c r.slot :=
  (call (Rule.takes_of_isPlain h)).mono fun _ _ hn => Rule.fills_of_isPlain h hn

theorem separated {mark : TokenKind} {item : Rule .node} (h : item.isPlain = true) :
    Makes c (Parser.separated mark item) s fun ns _ => ∀ n ∈ ns, n.Fills c item.slot :=
  call (r := .separated mark item) h

theorem delimited {mark : TokenKind} {item : Rule .node} (h : item.isPlain = true) :
    Makes c (Parser.delimited mark item) s fun ns _ => ∀ n ∈ ns, n.Fills c item.slot :=
  call (r := .delimited mark item) h

theorem optionally {b : Bool} {p : Parser α} (h : Makes c p s V) :
    Makes c (Parser.optionally b p) s fun o t => ∀ a ∈ o, V a t := by
  refine .ite (fun _ => .bind h fun a t ha => .pure fun b hb => ?_) fun _ => .pure ?_
  · cases hb
    exact ha
  · rintro a ⟨⟩

theorem after {k : TokenKind} {p : Parser α} (h : ∀ t, Makes c p t V) :
    Makes c (Parser.after k p) s fun o t => ∀ a ∈ o, V a t :=
  .bind eat fun _ t _ => optionally (h t)

/-- Where the token is not there, the state is the same. -/
theorem afterOr {k : TokenKind} {p : Parser α} {P : ParseState → Prop} (hs : P s)
    (h : ∀ t, Makes c p t V) :
    Makes c (Parser.after k p) s fun o t => (∀ a ∈ o, V a t) ∧ (o = none → P t) := by
  have heat : Makes c (Parser.eat k) s fun b t => b = false → P t :=
    .isAt (fun _ => pass fun _ => .pure fun e => nomatch e) fun _ => .pure fun _ => hs
  refine .bind heat fun b t hb => .ite (fun _ => ?_) fun hf => .pure ?_
  · refine .bind (h t) fun a u ha => .pure ⟨fun b hb => ?_, fun e => ?_⟩
    · exact Option.some.inj hb ▸ ha
    · cases e
  · exact ⟨fun a ha => (nomatch ha), fun _ => hb (Bool.eq_false_iff.mpr hf)⟩

end Makes
end PhpSyntax
