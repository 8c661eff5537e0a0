/-
What rules and parts of bodies open and close.

`Balances p s awaited owed moved Q` says that the part `p` of a body, run from the state `s` of a
strict parse, closes the marks that are `awaited` there, and that it is quiet if `Q` holds of its
value.  `owed` is what the body in front of the part has to be quiet for: it has to follow from
`Q`.  Some token is consumed if none has `moved` the body before.  There is one rule for each
action and each way of composing them.  What a part awaits is known from its text, so a part
that opens a mark is followed by what awaits the other one.
-/
import PhpSyntax.Proofs.Bracket.Course
import PhpSyntax.Proofs.Progress.Yields
import PhpSyntax.Proofs.Trace.Stage

namespace PhpSyntax

/-! ## States -/

namespace ParseState

structure IsStrict (s : ParseState) : Prop where
  mode : s.tolerates = false
  sound : s.stream.Sound
  filled : s.stream.Filled

variable {s t : ParseState}

theorem IsStrict.leads (h : s.IsStrict) (ht : s.stream.Leads t.stream) : t.IsStrict where
  mode := (congrArg Options.suppressErrors ht.options).trans h.mode
  sound := ht.sound h.sound
  filled := ht.filled h.sound h.filled

theorem IsStrict.same (h : s.IsStrict) (ht : t.stream = s.stream) : t.IsStrict :=
  h.leads (ht ▸ .refl)

end ParseState

/-! ## Rules -/

namespace Rule

/-- What a rule needs to know about its parameters or about the current token. -/
def Suits {d : Shape} (r : Rule d) (s : ParseState) : Prop :=
  match r with
  | .separated mark item => (mark.isFlat = true ∨ mark = .comma) ∧ item.isPlain = true
  | .delimited close item => close ∈ TokenKind.closing ∧ item.isPlain = true
  | .entries close _ => close ∈ TokenKind.closing
  | .ifStatement | .shortElseIf => s.kind.isFlat = true
  | .braceGroup depth => depth = 0 → s.kind = .lBrace
  | _ => True

/-- What may be awaited where a rule is asked for. -/
def Awaits {d : Shape} (r : Rule d) (awaited : List TokenKind) : Prop :=
  match r with
  | .delimited close _ | .entries close _ => awaited = [close]
  | .braceGroup depth => Deep depth awaited
  | _ => awaited = []

/-- What the rules in front of a rule are quiet for. -/
def Owed {d : Shape} (r : Rule d) : Prop :=
  match r with
  | .infixes _ n | .lookups n _ => n.NamesClasses
  | _ => True

def IsStill {d : Shape} (r : Rule d) : Prop :=
  match r with
  | .statements _ | .topStatements _ | .namespaceStatements | .cases _ | .handlers | .members
  | .memberModifiers _ | .classFlags .. | .infixes .. | .lookups .. | .segments => True
  | _ => False

/-- What a rule is quiet for. -/
def Hush : {d : Shape} → Rule d → d.Value → Prop
  | _, .statement, _ | _, .ifStatement, _ | _, .shortElseIf, _ => False
  | .node, _, n => Node.NamesClasses n
  | _, .delimited .., _ | _, .entries .., _ | _, .braceGroup _, _ | _, .segments, _ => True
  | _, _, _ => False

/-- A rule that is asked for in the state `s` and ends in the state `t` has closed what is
awaited in `s`. -/
def Balances {d : Shape} (r : Rule d) (s : ParseState) (v : d.Value) (t : ParseState) : Prop :=
  s.IsStrict → r.Suits s → ∀ awaited, r.Awaits awaited →
    s.stream.Course awaited (r.Hush v) r.IsStill t.stream ∧ (r.Hush v → r.Owed)

end Rule

variable {α β : Type}

/-! ## Bodies -/

/-- Where calls close what they should, the body ends where `V` holds. -/
def Step.Balances (V : α → ParseState → Prop) : Step α → Prop
  | .done a s => V a s
  | .stop _ => True
  | .advance s next => (next s.advance).Balances V
  | .call r s next => ∀ v t, r.Balances s v t → (next v t).Balances V

namespace Step.Balances

variable {V W : α → ParseState → Prop}

theorem mono {t : Step α} (h : t.Balances V) (hVW : ∀ a s, V a s → W a s) : t.Balances W := by
  induction t with
  | done a s => exact hVW a s h
  | stop => trivial
  | advance s next ih => exact ih _ h
  | call r s next ih => exact fun v t hv => ih v t (h v t hv)

theorem bind {t : Step α} {f : α → ParseState → Step β} {V' : β → ParseState → Prop}
    (h : t.Balances V) (hf : ∀ a s, V a s → (f a s).Balances V') : (t.bind f).Balances V' := by
  induction t with
  | done a s => exact hf a s h
  | stop => trivial
  | advance s next ih => exact ih _ h
  | call r s next ih => exact fun v t hv => ih v t (h v t hv)

end Step.Balances

/-! ## Parts of bodies -/

def Balances (p : Parser α) (s : ParseState) (awaited : List TokenKind) (owed moved : Prop)
    (Q : α → Prop) : Prop :=
  s.IsStrict → (p s).Balances fun a t =>
    s.stream.Course awaited (Q a) moved t.stream ∧ (Q a → owed)

namespace Balances

variable {s : ParseState} {awaited rest : List TokenKind} {k close : TokenKind}
  {owed owed' moved moved' : Prop} {Q R : α → Prop} {U : β → Prop}

/-! ## Composition -/

theorem mono {p : Parser α} (h : Balances p s awaited owed moved Q) (ho : owed → owed')
    (hm : moved → moved') (hQ : ∀ a, R a → Q a) : Balances p s awaited owed' moved' R :=
  fun hs => (h hs).mono fun a _ ⟨ht, hq⟩ => ⟨ht.mono (hQ a) hm, fun ha => ho (hq (hQ a ha))⟩

/-- A part that moves the body may stand where it has been moved. -/
theorem moving {p : Parser α} (h : Balances p s awaited owed False Q) :
    Balances p s awaited owed moved Q := h.mono id False.elim fun _ => id

/-- Nothing is asked of what a part that is not quiet owes. -/
theorem loud {p : Parser α} (h : Balances p s awaited True moved Q) :
    Balances p s awaited owed moved fun _ => False :=
  fun hs => (h hs).mono fun _ _ ⟨ht, _⟩ => ⟨ht.mono False.elim id, False.elim⟩

protected theorem pure {a : α} (hm : moved) (h : Q a → owed) :
    Balances (pure a) s [] owed moved Q := fun _ => ⟨.here hm, h⟩

/-- What is known of the state may be used. -/
theorem of {p : Parser α} (h : s.IsStrict → Balances p s awaited owed moved Q) :
    Balances p s awaited owed moved Q := fun hs => h hs hs

/-- A part that closes what is awaited in front of it, and what follows. -/
theorem follow {p : Parser β} {f : β → Parser α} {inner : List TokenKind} {still : Prop}
    {O : β → Prop} {m : Prop} (hp : Balances p s inner owed' still U)
    (hf : ∀ b t, s.stream.Course inner (U b) still t.stream →
      Balances (f b) t awaited (O b) m Q)
    (ho : ∀ b, (U b → owed') → O b → owed ∧ (awaited = [] → U b))
    (hm : still → m → moved) : Balances (p >>= f) s (inner ++ awaited) owed moved Q :=
  fun hs => (hp hs).bind fun b t ⟨ht, hu⟩ =>
    (hf b t ht (hs.leads ht.leads)).mono fun _ _ ⟨hcourse, hq⟩ =>
      ⟨(ht.trans hcourse fun ha => (ho b hu (hq ha)).2).mono id fun h => hm h.1 h.2,
        fun ha => (ho b hu (hq ha)).1⟩

/-- A part that moves the body where nothing is awaited. -/
protected theorem bind {p : Parser β} {f : β → Parser α} (hp : Balances p s [] True False U)
    (hf : ∀ b t, Balances (f b) t [] (owed ∧ U b) True Q) :
    Balances (p >>= f) s [] owed moved Q :=
  follow hp (fun b t _ => hf b t) (fun _ _ h => ⟨h.1, fun _ => h.2⟩) fun h _ => h.elim

/-- A part that need not move the body. -/
theorem bindStill {p : Parser β} {f : β → Parser α} (hp : Balances p s [] True True U)
    (hf : ∀ b t, Balances (f b) t [] (owed ∧ U b) moved Q) :
    Balances (p >>= f) s [] owed moved Q :=
  follow hp (fun b t _ => hf b t) (fun _ _ h => ⟨h.1, fun _ => h.2⟩) fun _ => id

/-- A part inside marks. -/
theorem inside {p : Parser β} {f : β → Parser α} {still : Prop} (hp : Balances p s [] True still U)
    (hf : ∀ b t, Balances (f b) t (k :: rest) owed moved Q) :
    Balances (p >>= f) s (k :: rest) owed moved Q :=
  follow hp (fun b t _ => hf b t) (fun _ _ h => ⟨h, nofun⟩) fun _ => id

/-- A part that closes a mark. -/
theorem within {p : Parser β} {f : β → Parser α} {still : Prop}
    (hp : Balances p s [k] True still fun _ => True)
    (hf : ∀ b t, Balances (f b) t rest owed moved Q) :
    Balances (p >>= f) s (k :: rest) owed moved Q :=
  follow hp (fun b t _ => hf b t) (fun _ _ h => ⟨h, fun _ => trivial⟩) fun _ => id

/-- A part that takes over what is owed. -/
theorem chain {p : Parser β} {f : β → Parser α} (hp : Balances p s [] owed moved U)
    (hf : ∀ b t, Balances (f b) t [] (U b) True Q) : Balances (p >>= f) s [] owed moved Q :=
  follow hp (fun b t _ => hf b t) (fun _ h hu => ⟨h hu, fun _ => hu⟩) fun h _ => h

protected theorem ite {q : Prop} [Decidable q] {p p' : Parser α}
    (hp : q → Balances p s awaited owed moved Q) (hp' : ¬q → Balances p' s awaited owed moved Q) :
    Balances (if q then p else p') s awaited owed moved Q := by
  by_cases hq : q
  · rw [if_pos hq]
    exact hp hq
  · rw [if_neg hq]
    exact hp' hq

/-! ## The state -/

protected theorem read {g : ParseState → β} {f : β → Parser α}
    (h : Balances (f (g s)) s awaited owed moved Q) :
    Balances (Parser.read g >>= f) s awaited owed moved Q := h

protected theorem kind {f : TokenKind → Parser α}
    (h : Balances (f s.kind) s awaited owed moved Q) :
    Balances (Parser.kind >>= f) s awaited owed moved Q := h

/-- A value that is read off the state, whatever it is. -/
theorem some {g : ParseState → β} {f : β → Parser α}
    (h : ∀ b, Balances (f b) s awaited owed moved Q) :
    Balances (Parser.read g >>= f) s awaited owed moved Q := h _

protected theorem isAt {p q : Parser α} (hp : s.kind = k → Balances p s awaited owed moved Q)
    (hq : s.kind ≠ k → Balances q s awaited owed moved Q) :
    Balances (Parser.isAt k >>= fun b => if b = true then p else q) s awaited owed moved Q :=
  .read (.ite (fun h => hp (of_decide_eq_true h)) fun h => hq fun e => h (decide_eq_true e))

/-- An action that leaves the stream as it is. -/
theorem still {g : ParseState → β × ParseState} {f : β → Parser α}
    (hg : (g s).2.stream = s.stream) (h : ∀ b, Balances (f b) (g s).2 awaited owed moved Q) :
    Balances (Parser.update g >>= f) s awaited owed moved Q := by
  intro hs
  have hnext := h (g s).1 (hs.same hg)
  rwa [hg] at hnext

protected theorem openNode {f : Opened → Parser α}
    (h : ∀ o, Balances (f o) s.openNode.2 awaited owed moved Q) :
    Balances (Parser.openNode >>= f) s awaited owed moved Q := still rfl h

protected theorem openAt {p : Position} {f : Opened → Parser α}
    (h : ∀ o, Balances (f o) (s.openAt p).2 awaited owed moved Q) :
    Balances (Parser.openAt p >>= f) s awaited owed moved Q := still rfl h

/-- A change of the state that leaves the stream as it is. -/
theorem modify {g : ParseState → ParseState} {p : Parser α} (hg : (g s).stream = s.stream)
    (h : Balances p (g s) awaited owed moved Q) :
    Balances (Parser.modify g >>= fun _ => p) s awaited owed moved Q := by
  intro hs
  have hnext := h (hs.same hg)
  rwa [hg] at hnext

/-- What is finished is quiet if its children are. -/
theorem finish {o : Opened} {p : Production Node} (hm : moved)
    (h : p.isAnonymous = false → (∀ n ∈ p.children, n.NamesClasses) → owed) :
    Balances (Parser.finish o p) s [] owed moved Node.NamesClasses :=
  fun _ => ⟨.here hm, fun hn => h (Node.namesClasses_iff.mp hn).1 (Node.namesClasses_iff.mp hn).2⟩

/-- What is finished where nothing is asked of what was read. -/
theorem finishLoud {o : Opened} {p : Production Node} (hm : moved) :
    Balances (Parser.finish o p) s [] owed moved fun _ => False := fun _ => ⟨.here hm, False.elim⟩

/-- What is finished behind something quiet. -/
theorem finishQuiet {o : Opened} {p : Production Node} {Q : Node → Prop} (hm : moved)
    (ho : owed) : Balances (Parser.finish o p) s [] owed moved Q := fun _ => ⟨.here hm, fun _ => ho⟩

/-! ## Errors -/

/-- In strict mode nothing comes behind an error. -/
theorem raised {cause : Cause} {message : String} {e : Expected} {V : Node → ParseState → Prop}
    (hs : s.IsStrict) : (Parser.raise cause message e s).Balances V := by
  have hstop : Parser.raise cause message e s = .stop (s.fault cause message) :=
    if_neg (Bool.eq_false_iff.mp hs.mode)
  rw [hstop]
  trivial

theorem raise {cause : Cause} {message : String} {e : Expected} {f : Node → Parser α} :
    Balances (Parser.raise cause message e >>= f) s awaited owed moved Q := fun hs =>
  Step.Balances.bind (V := fun _ _ => False) (raised hs) fun _ _ h => h.elim

theorem missing {e : Expected} {f : Node → Parser α} :
    Balances (Parser.missing e >>= f) s awaited owed moved Q := raise

/-- Where nothing else can be done, there is an error. -/
theorem missingHere {e : Expected} {Q : Node → Prop} :
    Balances (Parser.missing e) s awaited owed moved Q := raised

theorem objection {cause : Cause} {message : String} {f : Node → Parser α} :
    Balances (Parser.objection cause message >>= f) s awaited owed moved Q := raise

theorem fatal {cause : Cause} {message : String} :
    Balances (Parser.fatal cause message) s awaited owed moved Q := fun _ => trivial

theorem requireOption {g : Options → Bool} {p : Parser α}
    (h : Balances p s awaited owed moved Q) :
    Balances (Parser.requireOption g >>= fun _ => p) s awaited owed moved Q := by
  rw [Parser.requireOption, Parser.bind_bind]
  refine .read ?_
  rw [Parser.ite_bind, Parser.bind_bind]
  exact .ite (fun _ => h) fun _ => raise

/-! ## Tokens -/

/-- Consume a token, whatever it opens or closes. -/
theorem advance {p : Parser α} (hk : s.kind ≠ .eof) (hbrace : s.kind = .rBrace → .rBrace ∈ awaited)
    (hempty : awaited = [] →
      s.kind ∉ TokenKind.closing ∧ (owed' → s.kind ∉ TokenKind.stops)) (ho : owed' → owed)
    (h : Balances p s.advance (s.kind.nest awaited) owed' True Q) :
    Balances (Parser.advance >>= fun _ => p) s awaited owed moved Q := fun hs =>
  (h (hs.leads (.single (.advance hk)))).mono fun _ _ ⟨ht, hq⟩ =>
    ⟨ht.cons hk hbrace fun e => ⟨(hempty e).1, fun ha => (hempty e).2 (hq ha)⟩,
      fun ha => ho (hq ha)⟩

/-- Consume a token that is no mark. -/
theorem flat {p : Parser α} (hk : s.kind.isFlat = true)
    (h : Balances p s.advance awaited owed True Q) :
    Balances (Parser.advance >>= fun _ => p) s awaited owed moved Q := by
  obtain ⟨heof, hclosing, hstops, hbrace⟩ := TokenKind.not_mem_of_isFlat hk
  refine advance heof (fun e => absurd e hbrace) (fun _ => ⟨hclosing, fun _ => hstops⟩) id ?_
  rwa [TokenKind.nest_of_isFlat hk]

/-- A node that is opened at a token that is no mark. -/
theorem begin {f : Opened → Parser α} (hk : s.kind.isFlat = true)
    (h : ∀ o, Balances (f o) s.openNode.2.advance awaited owed True Q) :
    Balances (Parser.openNode >>= fun o => Parser.advance >>= fun _ => f o) s awaited owed moved Q :=
  .openNode fun o => flat hk (h o)

/-- Consume an opening mark. -/
theorem opens {p : Parser α} (hk : s.kind = k) (hopen : k ∈ TokenKind.opening)
    (h : Balances p s.advance (k.mate :: awaited) owed True Q) :
    Balances (Parser.advance >>= fun _ => p) s awaited owed moved Q := by
  subst hk
  obtain ⟨heof, hclosing, hstops, hbrace⟩ := TokenKind.not_mem_of_mem_opening hopen
  refine advance heof (fun e => absurd e hbrace) (fun _ => ⟨hclosing, fun _ => hstops⟩) id ?_
  rwa [TokenKind.nest_open hopen]

/-- Consume the closing mark that is awaited. -/
theorem shuts {p : Parser α} (hk : s.kind = k) (hclose : k ∈ TokenKind.closing)
    (h : Balances p s.advance rest owed True Q) :
    Balances (Parser.advance >>= fun _ => p) s (k :: rest) owed moved Q := by
  subst hk
  refine advance (fun e => ?_) (fun e => e ▸ List.mem_cons_self) nofun id ?_
  · rw [e] at hclose
    exact absurd hclose (by decide)
  · rwa [TokenKind.nest_close hclose]

/-- Consume a mark between items or behind a statement. -/
theorem stop {p : Parser α} (hk : s.kind ∈ TokenKind.stops) (hq : awaited = [] → ¬owed')
    (ho : owed' → owed) (h : Balances p s.advance awaited owed' True Q) :
    Balances (Parser.advance >>= fun _ => p) s awaited owed moved Q := by
  obtain ⟨heof, hclosing, hbrace⟩ := TokenKind.not_mem_of_mem_stops hk
  refine advance heof (fun e => absurd e hbrace)
    (fun e => ⟨hclosing, fun hone => absurd hone (hq e)⟩) ho ?_
  rwa [TokenKind.nest_of_mem_stops hk]

/-- Inside other marks such a mark is not heard. -/
theorem stopInside {p : Parser α} (hk : s.kind ∈ TokenKind.stops)
    (h : Balances p s.advance (k :: rest) owed True Q) :
    Balances (Parser.advance >>= fun _ => p) s (k :: rest) owed moved Q := stop hk nofun id h

/-- Where nothing is awaited it is. -/
theorem stopLoud {p : Parser α} (hk : s.kind ∈ TokenKind.stops)
    (h : Balances p s.advance [] False True Q) :
    Balances (Parser.advance >>= fun _ => p) s [] owed moved Q := stop hk (fun _ => id) False.elim h

/-- A token that is consumed if it is there. -/
theorem eatThen {f : Bool → Parser α}
    (h : s.kind = k → Balances (Parser.advance >>= fun _ => f true) s awaited owed moved Q)
    (hnot : s.kind ≠ k → Balances (f false) s awaited owed moved Q) :
    Balances (Parser.eat k >>= f) s awaited owed moved Q := by
  rw [Parser.eat, Parser.bind_bind]
  refine .read ?_
  rw [Parser.ite_bind, Parser.bind_bind]
  exact .ite (fun e => h (of_decide_eq_true e)) fun e => hnot fun hk => e (decide_eq_true hk)

theorem ifEat {p q : Parser α}
    (h : s.kind = k → Balances (Parser.advance >>= fun _ => p) s awaited owed moved Q)
    (hnot : s.kind ≠ k → Balances q s awaited owed moved Q) :
    Balances (Parser.eat k >>= fun b => if b = true then p else q) s awaited owed moved Q :=
  eatThen h hnot

/-- A token that is no mark, whether it is there or not. -/
theorem eat {f : Bool → Parser α} (hk : k.isFlat = true)
    (h : ∀ b t, Balances (f b) t awaited owed moved Q) :
    Balances (Parser.eat k >>= f) s awaited owed moved Q :=
  eatThen (fun e => flat (e ▸ hk) ((h true _).mono id (fun _ => trivial) fun _ => id))
    fun _ => h false s

/-- A semicolon that may stand in front of the rest. -/
theorem skip {p : Parser α} (h : ∀ t, Balances p t [] False moved Q) :
    Balances (Parser.eat .semicolon >>= fun _ => p) s [] owed moved Q :=
  eatThen (fun hk => stopLoud (hk ▸ by decide) ((h _).mono id (fun _ => trivial) fun _ => id))
    fun _ => (h s).mono False.elim id fun _ => id

theorem skipInside {p : Parser α} (h : ∀ t, Balances p t (k :: rest) owed moved Q) :
    Balances (Parser.eat .semicolon >>= fun _ => p) s (k :: rest) owed moved Q :=
  eatThen (fun hk => stopInside (hk ▸ by decide) ((h _).mono id (fun _ => trivial) fun _ => id))
    fun _ => h s

/-- A token that has to be there. -/
theorem expectThen {f : Bool → Parser α}
    (h : s.kind = k → Balances (Parser.advance >>= fun _ => f true) s awaited owed moved Q) :
    Balances (Parser.expect k >>= f) s awaited owed moved Q := by
  rw [Parser.expect, Parser.bind_bind]
  refine eatThen (fun e => h e) fun _ => ?_
  rw [if_neg Bool.false_ne_true, Parser.bind_bind]
  exact raise

theorem ifExpect {p q : Parser α}
    (h : s.kind = k → Balances (Parser.advance >>= fun _ => p) s awaited owed moved Q) :
    Balances (Parser.expect k >>= fun b => if b = true then p else q) s awaited owed moved Q :=
  expectThen h

theorem require {p : Parser α}
    (h : s.kind = k → Balances (Parser.advance >>= fun _ => p) s awaited owed moved Q) :
    Balances (Parser.require k >>= fun _ => p) s awaited owed moved Q := by
  rw [Parser.require, Parser.bind_bind]
  exact expectThen h

/-- A token that is no mark and has to be there. -/
theorem demand {p : Parser α} (hk : k.isFlat = true)
    (h : ∀ t, Balances p t awaited owed True Q) :
    Balances (Parser.require k >>= fun _ => p) s awaited owed moved Q :=
  require fun e => flat (e ▸ hk) (h _)

theorem endStatement {p : Parser α} (h : ∀ t, Balances p t [] False moved Q) :
    Balances (Parser.endStatement >>= fun _ => p) s [] owed moved Q := by
  rw [Parser.endStatement, Parser.bind_bind]
  refine .kind ?_
  split
  · next hk =>
    exact stopLoud (by simp [hk, TokenKind.stops]) ((h _).mono id (fun _ => trivial) fun _ => id)
  · exact (h s).mono False.elim id fun _ => id
  · exact (h s).mono False.elim id fun _ => id
  · rw [Parser.bind_bind]
    exact missing

/-- Nothing is skipped behind a part that moves the body. -/
theorem progress {p : Parser β} {f : β → Parser α} (hp : Balances p s [] True False U)
    (hf : ∀ b t, Balances (f b) t [] (owed ∧ U b) True Q) :
    Balances (p >>= fun b => Parser.forceProgress s.stream.current.start >>= fun _ => f b) s []
      owed moved Q := by
  refine .of fun hs => follow (O := fun b => owed ∧ U b) (m := True) hp
    (fun b t ht => ?_) (fun _ _ h => ⟨h.1, fun _ => h.2⟩) fun h _ => h.elim
  rw [Parser.forceProgress, Parser.bind_bind]
  refine .read ?_
  rw [Parser.ite_bind]
  refine .ite (fun hstuck => absurd hstuck ?_) fun _ => hf b t
  rw [Bool.and_eq_true, Bool.not_eq_true', Token.isEof, decide_eq_false_iff_not,
    decide_eq_true_eq]
  rintro ⟨hk, hoffset⟩
  obtain ⟨ts, hspends, _, hmoved⟩ := ht.tokens hk
  have hlt := hspends.offset_lt hs.sound hs.filled (hmoved.resolve_left id)
  omega

/-! ## Other rules -/

theorem call {d : Shape} {r : Rule d} (hr : r.Suits s) (ha : r.Awaits awaited) :
    Balances (Parser.call r) s awaited r.Owed r.IsStill r.Hush :=
  fun hs _ _ h => h hs hr awaited ha

/-- Rules that may be asked for anywhere. -/
theorem node {r : Rule .node} (h : r.isPlain = true) :
    Balances (Parser.call r) s [] True False Node.NamesClasses := by
  cases r with
  | statement | ifStatement | shortElseIf | infixes | lookups => cases h
  | _ => exact call trivial rfl

theorem expression : Balances Parser.expression s [] True False Node.NamesClasses := node rfl

theorem statement : Balances (Parser.call .statement) s [] True False fun _ => False :=
  call (r := .statement) trivial rfl

theorem ifStatement (hk : s.kind.isFlat = true) :
    Balances (Parser.call .ifStatement) s [] True False fun _ => False :=
  call (r := .ifStatement) hk rfl

theorem shortElseIf (hk : s.kind.isFlat = true) :
    Balances (Parser.call .shortElseIf) s [] True False fun _ => False :=
  call (r := .shortElseIf) hk rfl

theorem statements {stop : TokenSet} :
    Balances (Parser.call (.statements stop)) s [] True True fun _ => False :=
  call (r := .statements stop) trivial rfl

theorem topStatements {stop : TokenSet} :
    Balances (Parser.call (.topStatements stop)) s [] True True fun _ => False :=
  call (r := .topStatements stop) trivial rfl

theorem separated {mark : TokenKind} {item : Rule .node}
    (h : (mark.isFlat = true ∨ mark = .comma) ∧ item.isPlain = true) :
    Balances (Parser.separated mark item) s [] True False fun _ => False :=
  call (r := .separated mark item) h rfl

/-- Items up to a closing mark, behind the opening one. -/
theorem items {item : Rule .node} (hk : k ∈ TokenKind.closing) (h : item.isPlain = true) :
    Balances (Parser.delimited k item) s [k] True False fun _ => True :=
  call (r := .delimited k item) ⟨hk, h⟩ rfl

theorem delimited {item : Rule .node} {f : List Node → Parser α} (hk : k ∈ TokenKind.closing)
    (h : item.isPlain = true) (hf : ∀ ns t, Balances (f ns) t rest owed moved Q) :
    Balances (Parser.delimited k item >>= f) s (k :: rest) owed moved Q :=
  within (items hk h) hf

theorem optionally {b : Bool} {p : Parser α} {still : Prop} (h : Balances p s [] True still Q) :
    Balances (Parser.optionally b p) s [] True True fun o => ∀ a ∈ o, Q a := by
  refine .ite (fun _ => ?_) fun _ => .pure trivial fun _ => trivial
  refine .chain (h.mono id (fun _ => trivial) fun _ => id) fun a t => .pure trivial fun ha => ?_
  exact ha a rfl

theorem after {p : Parser α} {still : Prop} (hk : k.isFlat = true)
    (h : ∀ t, Balances p t [] True still Q) :
    Balances (Parser.after k p) s [] True True fun o => ∀ a ∈ o, Q a :=
  .eat hk fun _ t => .optionally (h t)

end Balances
end PhpSyntax
