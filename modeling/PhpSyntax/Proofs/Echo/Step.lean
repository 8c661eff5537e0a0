/-
Bodies that are echoed.

The relation between the states of both runs is `Lawful` if each action keeps it and what the
rules read agrees.  `Step.Echoes` relates what the bodies do from there: they go through the
same steps, ask for the same rules, and end with values that are related.  The outcomes of
whole runs follow from the bodies (`Step.Echoes.eval`).
-/
import PhpSyntax.Proofs.Echo.Image
import PhpSyntax.Proofs.Progress.Termination

namespace PhpSyntax

/-! ## What is related -/

namespace Echo

variable (E : Echo) (i : E.Index)

def One (m n : Node) : Prop := E.image i m = n

def All (ms ns : List Node) : Prop := ms.map (E.image i) = ns

def Maybe (m n : Option Node) : Prop := m.map (E.image i) = n

/-- The body of a choice, which the echo may have less in. -/
def Body (m n : Node) : Prop := E.trim (E.image i m) = n

def Makes (p q : Production Node) : Prop := E.adjust (p.map (E.image i)) = q

def Both {E : Echo} {α β : Type} (U : E.Index → α → α → Prop) (V : E.Index → β → β → Prop)
    (i : E.Index) (x y : α × β) : Prop :=
  U i x.1 y.1 ∧ V i x.2 y.2

def Equal {E : Echo} {α : Type} (_ : E.Index) (a b : α) : Prop := a = b

end Echo

def Shape.Echoed (E : Echo) : (c : Shape) → E.Index → c.Value → c.Value → Prop
  | .node => E.One
  | .nodes => E.All
  | .segments | .modifiers | .classFlags | .nothing => Echo.Equal

/-- What a rule yields in both runs.  The cases of a choice are known to be cases. -/
def Rule.Echoed (E : Echo) : {c : Shape} → Rule c → E.Index → c.Value → c.Value → Prop
  | _, .cases _ => fun i ms ns => E.All i ms ns ∧ ∀ m ∈ ms, m.production.isCase = true
  | c, _ => c.Echoed E

theorem Rule.Echoed.shape {E : Echo} {c : Shape} {r : Rule c} {i : E.Index} {v w : c.Value}
    (h : r.Echoed E i v w) : c.Echoed E i v w := by
  cases r with
  | cases => exact h.1
  | _ => exact h

def Rule.rebase (f : Node → Node) : {c : Shape} → Rule c → Rule c
  | _, .infixes min left => .infixes min (f left)
  | _, .lookups base readOnly => .lookups (f base) readOnly
  | _, r => r

def ParseState.hasUnread (s : ParseState) : Bool := !(s.trivia.unread s.stream.comments).isEmpty

/-- The kinds of token that a rule looks for behind a token of this kind. -/
def TokenKind.sought : TokenKind → List TokenKind
  | .identifier => [.colon]
  | .kwStatic => [.doubleColon, .kwFunction, .kwFn]
  | .kwFunction => [.lParen]
  | .kwNamespace => [.nsSeparator]
  | .nsSeparator => [.identifier, .lBrace]
  | _ => []

/-- Behind a token of kind `k` no rule tells the two kinds apart. -/
def TokenKind.Blurs (k next next' : TokenKind) : Prop := ∀ j ∈ k.sought, next' = j ↔ next = j

/-- What the relation between the states of both runs keeps and tells. -/
class Echo.Lawful (E : Echo) : Prop where
  hear_nil : E.hear [] = []
  hear_append (cs ds : List Comment) : E.hear (cs ++ ds) = E.hear cs ++ E.hear ds
  /-- A run that has come too far does not go back. -/
  isOpen_of_leads {u v : Stream} (h : u.Leads v) (hu : u.Sound) (hv : E.IsOpen v) : E.IsOpen u
  trim_of_isCase (info : NodeInfo) (ns : List Node) (h : ∀ n ∈ ns, n.production.isCase = true) :
    E.trim ⟨info, .block ns⟩ = ⟨info, .block ns⟩
  kind {w : E.Index} {s t : ParseState} (h : E.States w s t) : t.kind = s.kind
  text {w : E.Index} {s t : ParseState} (h : E.States w s t) :
    t.stream.current.text = s.stream.current.text
  /-- The next token may be another one where the rules do not tell. -/
  peek {w : E.Index} {s t : ParseState} (h : E.States w s t) :
    s.kind.Blurs s.stream.peek t.stream.peek
  php7 {w : E.Index} {s t : ParseState} (h : E.States w s t) :
    t.stream.options.php7 = s.stream.options.php7
  php74 {w : E.Index} {s t : ParseState} (h : E.States w s t) :
    t.stream.options.php74 = s.stream.options.php74
  tolerates {w : E.Index} {s t : ParseState} (h : E.States w s t) : t.tolerates = s.tolerates
  namespaceDepth {w : E.Index} {s t : ParseState} (h : E.States w s t) :
    t.namespaceDepth = s.namespaceDepth
  start {w : E.Index} {s t : ParseState} (h : E.States w s t) :
    t.stream.current.start = E.place s.stream.current.start
  offset_iff {w : E.Index} {s t : ParseState} (h : E.States w s t) (hk : s.kind ≠ .eof)
    (p : Position) : t.offset = (E.place p).offset ↔ s.offset = p.offset
  prev {w : E.Index} {s t : ParseState} (h : E.States w s t) : t.stream.prev = s.stream.prev
  textBetween {w : E.Index} {s t : ParseState} (h : E.States w s t) (p : Position) :
    t.stream.textBetween (E.place p).offset t.stream.prev.offset =
      s.stream.textBetween p.offset s.stream.prev.offset
  advance {w : E.Index} {s t : ParseState} (h : E.States w s t)
    (hopen : E.IsOpen s.advance.stream) : E.States w s.advance t.advance
  openNode {w : E.Index} {s t : ParseState} (h : E.States w s t) :
    t.openNode.1 = E.opened s.openNode.1 ∧ E.States w s.openNode.2 t.openNode.2
  openAt {w : E.Index} {s t : ParseState} (h : E.States w s t) (p q : Position) :
    E.States w (s.openAt p).2 (t.openAt q).2
  finishNode {w : E.Index} {s t : ParseState} (h : E.States w s t) (o : Opened) :
    ∃ x, w ≤ x ∧ E.States x (s.finishNode o).2 (t.finishNode (E.opened o)).2 ∧
      ∀ i, x ≤ i → E.info i (s.finishNode o).1 = (t.finishNode (E.opened o)).1
  abandon {w : E.Index} {s t : ParseState} (h : E.States w s t) (o o' : Opened) (m n : Node) :
    E.States w (s.abandon o m).2 (t.abandon o' n).2
  record {w : E.Index} {s t : ParseState} (h : E.States w s t) (ht : s.tolerates = true)
    (message : String) (e : Expected) :
    ∃ x, w ≤ x ∧ E.States x (s.record message e) (t.record message e) ∧
      ∀ i, x ≤ i → E.image i (s.errorNode message e) = t.errorNode message e
  /-- The end of the code has text behind it only where errors end the parse. -/
  tail_empty {w : E.Index} {s t : ParseState} (h : E.States w s t) (ht : s.tolerates = true) :
    E.tail "" = ""
  fault {w : E.Index} {s t : ParseState} (h : E.States w s t) (hb : E.limit = none)
    (cause : Cause) (message : String) : s.fault cause message = t.fault cause message
  nest {w : E.Index} {s t : ParseState} (h : E.States w s t) (f : Nat → Nat) :
    E.States w { s with namespaceDepth := f s.namespaceDepth }
      { t with namespaceDepth := f t.namespaceDepth }
  /-- The code ends at a semicolon, or behind an error. -/
  halt {w : E.Index} {s t : ParseState} (h : E.States w s t)
    (hk : s.kind = .semicolon ∨ E.tail "" = "") :
    t.stream.halt.1 = E.tail s.stream.halt.1 ∧ E.States w s.halt t.halt
  /-- Where a choice has no cases, a node for comments is made in both runs or in neither of
  them, or it is made in the first run only and missing in the body of the echo. -/
  alone {w : E.Index} {s t : ParseState} (h : E.States w s t) :
    let last := s.openNode.2.finishNode s.openNode.1
    (s.hasUnread = false ∧ t.hasUnread = false) ∨
      (s.hasUnread = true ∧ t.hasUnread = true ∧ ∀ n, E.trim n = n) ∨
      (s.hasUnread = true ∧ t.hasUnread = false ∧ ∃ x, w ≤ x ∧ E.States x last.2 t ∧
        ∀ i, x ≤ i → ∀ info,
          E.trim ⟨info, .block [E.image i ⟨last.1, .noop⟩]⟩ = ⟨info, .block []⟩)

/-! ## Bodies -/

variable {E : Echo} {α β : Type}

/-- A body that another one follows, step by step.  Nothing is said about what comes behind
more than can be followed. -/
inductive Step.Echoes (E : Echo) (V : E.Index → α → α → Prop) :
    E.Index → Step α → Step α → Prop
  | done {w x : E.Index} {a b : α} {s t : ParseState} (hw : w ≤ x) (h : ∀ i, x ≤ i → V i a b)
    (hs : E.States x s t) : Echoes E V w (.done a s) (.done b t)
  | stop {w : E.Index} {f g : Fault} (h : E.limit = none → f = g) : Echoes E V w (.stop f) (.stop g)
  | advance {w : E.Index} {s t : ParseState} {next next' : ParseState → Step α}
    (h : E.IsOpen s.advance.stream → Echoes E V w (next s.advance) (next' t.advance)) :
    Echoes E V w (.advance s next) (.advance t next')
  | call {w x : E.Index} {c : Shape} {r r' : Rule c} {s t : ParseState}
    {next next' : c.Value → ParseState → Step α} (hw : w ≤ x)
    (hr : ∀ i, x ≤ i → r.rebase (E.image i) = r') (hs : E.States x s t)
    (h : ∀ y v v' u u', x ≤ y → (∀ i, y ≤ i → r.Echoed E i v v') → E.States y u u' →
      Echoes E V y (next v u) (next' v' u')) :
    Echoes E V w (.call r s next) (.call r' t next')

/-- Outcomes that go together, as far as they can be followed. -/
def Outcome.Echoes (E : Echo) (V : E.Index → α → α → Prop) (w : E.Index) :
    Outcome α → Outcome α → Prop
  | .ok (a, s), out => E.IsOpen s.stream →
      ∃ x b t, out = .ok (b, t) ∧ w ≤ x ∧ (∀ i, x ≤ i → V i a b) ∧ E.States x s t
  | .error f, out => E.limit = none → out = .error f

/-- Where a body leads the stream. -/
theorem Step.Paced.leads {budget : Nat}
    {answer : (c : Shape) → Rule c → ParseState → Outcome c.Value} {u : Stream} {x : Step α}
    {a : α} {s : ParseState} (h : x.Paced budget answer u) (hx : x.eval answer = .ok (a, s)) :
    u.Leads s.stream := by
  induction x generalizing u with
  | done b t =>
    cases hx
    exact h
  | stop f => cases hx
  | advance t next ih =>
    obtain ⟨hleads, hk, hnext⟩ := h
    exact hleads.trans (.head (.advance hk) (ih _ hnext hx))
  | call r t next ih =>
    obtain ⟨hleads, _, _, hnext⟩ := h
    simp only [Step.eval] at hx
    split at hx
    · next v t' ht =>
      obtain ⟨hcall, hrest⟩ := hnext v t' ht
      exact hleads.trans (hcall.trans (ih v t' hrest hx))
    · cases hx

/-- Where a run has come too far already, there is nothing to follow. -/
theorem Outcome.Echoes.of_not_isOpen [E.Lawful] {V : E.Index → α → α → Prop} {w : E.Index}
    {budget : Nat}
    {answer : (c : Shape) → Rule c → ParseState → Outcome c.Value} {u : Stream} {x : Step α}
    {out : Outcome α} (h : x.Paced budget answer u) (hu : u.Sound) (hopen : ¬E.IsOpen u) :
    Outcome.Echoes E V w (x.eval answer) out := by
  cases hx : x.eval answer with
  | ok as =>
    intro hs
    exact absurd (Echo.Lawful.isOpen_of_leads (h.leads hx) hu hs) hopen
  | error f =>
    intro hb
    apply absurd _ hopen
    intro P hP
    rw [hb] at hP
    cases hP

namespace Step.Echoes

variable {V : E.Index → α → α → Prop} {x y : Step α} {w : E.Index}

/-- What is followed from an index on is followed from a smaller one. -/
theorem lower {w' : E.Index} (hw : w' ≤ w) (h : x.Echoes E V w y) : x.Echoes E V w' y := by
  induction h with
  | done hx h hs => exact .done (hw.trans hx) h hs
  | stop h => exact .stop h
  | advance _ ih => exact .advance fun hopen => ih hopen hw
  | call hx hr hs h _ => exact .call (hw.trans hx) hr hs h

theorem mono {W : E.Index → α → α → Prop} (h : x.Echoes E V w y)
    (hV : ∀ i a b, w ≤ i → V i a b → W i a b) : x.Echoes E W w y := by
  induction h with
  | done hx h hs => exact .done hx (fun i hi => hV i _ _ (hx.trans hi) (h i hi)) hs
  | stop h => exact .stop h
  | advance _ ih => exact .advance fun hopen => ih hopen hV
  | call hx hr hs _ ih =>
    refine .call hx hr hs fun z v v' u u' hz hv hu => ih z v v' u u' hz hv hu ?_
    exact fun i a b hi => hV i a b (hx.trans (hz.trans hi))

theorem bind {W : E.Index → β → β → Prop} {f g : α → ParseState → Step β}
    (h : x.Echoes E V w y)
    (hf : ∀ z a b s t, w ≤ z → (∀ i, z ≤ i → V i a b) → E.States z s t →
      (f a s).Echoes E W z (g b t)) :
    (x.bind f).Echoes E W w (y.bind g) := by
  induction h with
  | done hx h hs => exact (hf _ _ _ _ _ hx h hs).lower hx
  | stop h => exact .stop h
  | advance _ ih => exact .advance fun hopen => ih hopen hf
  | call hx hr hs _ ih =>
    refine .call hx hr hs fun z v v' u u' hz hv hu => ih z v v' u u' hz hv hu ?_
    intro z' a b s t hz' hab hst
    exact hf z' a b s t (hx.trans (hz.trans hz')) hab hst

/-- Where the rules that a body asks for are followed, the body is. -/
theorem eval [E.Lawful] {budget : Nat} {answer answer' : (c : Shape) → Rule c → ParseState → Outcome c.Value}
    {u : Stream} (h : x.Echoes E V w y) (hx : x.Paced budget answer u) (hu : u.Sound)
    (ha : ∀ (c : Shape) (r r' : Rule c) (s t : ParseState) (z : E.Index), r.Due s →
      r.cost s < budget → (∀ i, z ≤ i → r.rebase (E.image i) = r') → E.States z s t →
      Outcome.Echoes E (r.Echoed E) z (answer c r s) (answer' c r' t)) :
    Outcome.Echoes E V w (x.eval answer) (y.eval answer') := by
  induction h generalizing u with
  | done hw h hs => exact fun _ => ⟨_, _, _, rfl, hw, h, hs⟩
  | stop h => exact fun hb => congrArg Except.error (h hb).symm
  | @advance w s t next next' h ih =>
    obtain ⟨hleads, hk, hnext⟩ := hx
    have hs : s.advance.stream.Sound := Stream.advance_sound (hleads.sound hu)
    by_cases hopen : E.IsOpen s.advance.stream
    · exact ih hopen hnext hs
    · show Outcome.Echoes E V w ((next s.advance).eval answer) _
      exact .of_not_isOpen hnext hs hopen
  | @call w z c r r' s t next next' hw hr hs h ih =>
    obtain ⟨_, hdue, hcost, hnext⟩ := hx
    have hanswer := ha c r r' s t z hdue hcost hr hs
    cases hout : answer c r s with
    | error f =>
      rw [hout] at hanswer
      simp only [Step.eval, hout]
      intro hb
      rw [hanswer hb]
    | ok vu =>
      obtain ⟨v, s'⟩ := vu
      obtain ⟨hst, hrest⟩ := hnext v s' hout
      have hs' : s'.stream.Sound := hst.sound hdue.sound
      rw [hout] at hanswer
      simp only [Step.eval, hout]
      by_cases hopen : E.IsOpen s'.stream
      · obtain ⟨z', v', t', hout', hz, hv, ht⟩ := hanswer hopen
        rw [hout']
        have hlast := ih z' v v' s' t' hz hv ht hrest hs'
        cases hend : (next v s').eval answer with
        | error f =>
          rw [hend] at hlast
          exact hlast
        | ok bs =>
          rw [hend] at hlast
          intro hb
          obtain ⟨z'', b, t'', hok, hz'', hvb, ht''⟩ := hlast hb
          exact ⟨z'', b, t'', hok, hw.trans (hz.trans hz''), hvb, ht''⟩
      · exact .of_not_isOpen hrest hs' hopen

end Step.Echoes

end PhpSyntax
