/-
How far a body has got.

A `Stage` says what a body relies on between two actions: which moves have led there from
where, what lies on the bench, how much the body may still spend, and up to where the
boundary has moved.  There is one lemma for each action.

A rule may be asked for where the tokens still to be consumed, 32 for each, and its rank
are within the budget.  Consuming a token therefore pays for any rule, and where nothing
has been consumed only rules of lower rank may be asked for.
-/
import PhpSyntax.Proofs.Precedence.Gives
import PhpSyntax.Proofs.Trace.Mode

namespace PhpSyntax

/-- A token of this kind moves the boundary behind it.  The end of the input is no token,
and a semicolon may be a closing tag. -/
def TokenKind.IsSolid (k : TokenKind) : Prop := k ≠ .eof ∧ k ≠ .semicolon

instance (k : TokenKind) : Decidable k.IsSolid := inferInstanceAs (Decidable (_ ∧ _))

theorem TokenSet.isSolid {c : TokenSet} {j : TokenKind} (h : c.contains j = true)
    (he : c.contains .eof = false) (hs : c.contains .semicolon = false) : j.IsSolid := by
  constructor
  · rintro rfl
    simp [h] at he
  · rintro rfl
    simp [h] at hs

theorem TokenKind.isSolid_of_some {α : Type} {f : TokenKind → Option α} {j : TokenKind} {a : α}
    (he : f .eof = none) (hs : f .semicolon = none) (h : f j = some a) : j.IsSolid := by
  constructor
  · rintro rfl
    simp [h] at he
  · rintro rfl
    simp [h] at hs

/-- A body with the budget `budget`, started at `x`, has reached the state `s` with the
bench `w`.  It has `credit` to spend where it is, and in strict mode the boundary is not in
front of `floor`. -/
structure Stage (budget credit floor : Nat) (x : Bench × ParseState) (w : Bench)
    (s : ParseState) : Prop where
  moves : Moves x (w, s)
  sound : s.stream.Sound
  paid : 32 * s.stream.rest + credit ≤ budget
  limit : credit ≤ 32
  covers : s.tolerates = false → floor ≤ s.stream.prev.offset
  starts : ∀ i ∈ w, i.start.offset ≤ s.offset

namespace Stage

variable {b k l : Nat} {x : Bench × ParseState} {w : Bench} {s : ParseState}

theorem spend (h : Stage b k l x w s) {k' : Nat} (hk : k' ≤ k) : Stage b k' l x w s where
  moves := h.moves
  sound := h.sound
  paid := Nat.le_trans (Nat.add_le_add_left hk _) h.paid
  limit := Nat.le_trans hk h.limit
  covers := h.covers
  starts := h.starts

theorem lower (h : Stage b k l x w s) {l' : Nat} (hl : l' ≤ l) : Stage b k l' x w s where
  moves := h.moves
  sound := h.sound
  paid := h.paid
  limit := h.limit
  covers := fun hs => Nat.le_trans hl (h.covers hs)
  starts := h.starts

/-- In tolerant mode the boundary may stand anywhere. -/
theorem anyFloor (h : Stage b k l x w s) (hs : s.tolerates = true) (l' : Nat) :
    Stage b k l' x w s where
  moves := h.moves
  sound := h.sound
  paid := h.paid
  limit := h.limit
  covers := fun h' => by simp [hs] at h'
  starts := h.starts

/-- What lies on top starts no later than the current token. -/
theorem head_le {i : Item} (h : Stage b k l x (i :: w) s) : i.start.offset ≤ max l s.offset :=
  Nat.le_trans (h.starts i List.mem_cons_self) (Nat.le_max_right _ _)

/-! ## Starting anew -/

theorem here (h : Stage b k l x w s) : Stage b k l (w, s) w s where
  moves := Relation.ReflTransGen.refl
  sound := h.sound
  paid := h.paid
  limit := h.limit
  covers := h.covers
  starts := h.starts

theorem trans {k' l' : Nat} {w' : Bench} {s' : ParseState} (h : Stage b k l x w s)
    (h' : Stage b k' l' (w, s) w' s') : Stage b k' l' x w' s' where
  moves := h.moves.trans h'.moves
  sound := h'.sound
  paid := h'.paid
  limit := h'.limit
  covers := h'.covers
  starts := h'.starts

/-- What a body has consumed leaves what it could spend when it was started. -/
theorem refund {b' k' l' : Nat} {w' : Bench} {s' : ParseState} (h : Stage b k l x w s)
    (h' : Stage b' k' l' (w, s) w' s') : Stage b k l' x w' s' where
  moves := h.moves.trans h'.moves
  sound := h'.sound
  paid := by
    have hpaid := h.paid
    have hrest : s'.stream.rest < s.stream.rest ∨ s'.stream = s.stream := h'.moves.rest h.sound
    rcases hrest with hlt | e
    · omega
    · rw [e]
      exact hpaid
  limit := h.limit
  covers := h'.covers
  starts := h'.starts

/-- What has been consumed pays for any rule. -/
theorem gain {b' k' l' : Nat} {w' : Bench} {s' : ParseState} (h : Stage b k l x w s)
    (h' : Stage b' k' l' (w, s) w' s') (hlt : s'.stream.rest < s.stream.rest) :
    Stage b 32 l' x w' s' where
  moves := h.moves.trans h'.moves
  sound := h'.sound
  paid := by
    have hpaid := h.paid
    omega
  limit := Nat.le_refl _
  covers := h'.covers
  starts := h'.starts

/-! ## One action -/

/-- An action that leaves the stream as it is. -/
theorem step {w' : Bench} {s' : ParseState} (h : Stage b k l x w s) (hm : Move (w, s) (w', s'))
    (he : s'.stream = s.stream) : Stage b k l x w' s' where
  moves := h.moves.tail hm
  sound := by
    rw [he]
    exact h.sound
  paid := by
    rw [he]
    exact h.paid
  limit := h.limit
  covers := by
    rw [ParseState.tolerates, he]
    exact h.covers
  starts := hm.starts h.sound h.starts

theorem advance (h : Stage b k l x w s) (hk : s.kind ≠ .eof) : Stage b 32 l x w s.advance where
  moves := h.moves.tail (.advance hk)
  sound := Stream.advance_sound h.sound
  paid := by
    have hrest := Stream.rest_advance h.sound hk
    have hpaid := h.paid
    simp only [ParseState.advance]
    omega
  limit := Nat.le_refl _
  covers := fun hs => Nat.le_trans (h.covers hs) (Stream.prev_le_advance h.sound)
  starts := (Move.advance hk).starts h.sound h.starts

/-- Consuming a solid token raises the floor to where the token starts. -/
theorem advanceSolid (h : Stage b k l x w s) (hk : s.kind.IsSolid) :
    Stage b 32 (max l s.offset) x w s.advance where
  moves := (h.advance hk.1).moves
  sound := (h.advance hk.1).sound
  paid := (h.advance hk.1).paid
  limit := Nat.le_refl _
  covers := fun hs =>
    Nat.max_le.mpr ⟨(h.advance hk.1).covers hs, Stream.start_le_advance_prev h.sound hk.2⟩
  starts := (h.advance hk.1).starts

theorem openNode (h : Stage b k l x w s) :
    Stage b k l x (.opened s.openNode.1 :: w) s.openNode.2 := h.step .openNode rfl

theorem openAt {n : Node} (h : Stage b k l x (.node n :: w) s)
    (hn : n.span.start.offset ≤ s.stream.prev.offset) :
    Stage b k l x (.node n :: .opened (s.openAt n.span.start).1 :: w)
      (s.openAt n.span.start).2 := h.step (.openAt hn) rfl

/-- Consuming a solid token moves the boundary far enough for a node to be opened that
continues the one read last. -/
theorem extend {n : Node} (h : Stage b k l x (.node n :: w) s) (hk : s.kind.IsSolid) :
    Stage b 32 (max l s.offset) x (.node n :: .opened (.startingAt n.span.start) :: w)
      (s.openAt n.span.start).2.advance := by
  have hn : n.span.start.offset ≤ s.offset := h.starts _ List.mem_cons_self
  have hprev : s.offset ≤ s.advance.stream.prev.offset :=
    Stream.start_le_advance_prev h.sound hk.2
  exact (h.advanceSolid hk).openAt (Nat.le_trans hn hprev)

theorem finish {before : List Node} {p : Production Node} {o : Opened}
    (h : Stage b k l x (stack (before ++ p.parts) (.opened o :: w)) s)
    (hp : p.isHollow = true ∨ o.start.offset ≤ l) (he : p.isProper = true) :
    Stage b k l x (stack before (.node ⟨(s.finishNode o).1, p⟩ :: w)) (s.finishNode o).2 := by
  refine h.step (.finish he fun hs => ?_) rfl
  rcases hp with hp | hp
  · exact Or.inl hp
  · exact Or.inr (Nat.le_trans hp (h.covers hs))

theorem record (h : Stage b k l x w s) (hs : s.tolerates = true) (message : String)
    (e : Expected) (l' : Nat) :
    Stage b k l' x (.node (s.errorNode message e) :: w) (s.record message e) :=
  (h.anyFloor hs l').step (.record hs) rfl

theorem drop {n : Node} (h : Stage b k l x (.node n :: w) s) (hn : n.isError = true)
    (hl : n.leading = []) (ht : n.trailing = []) : Stage b k l x w s :=
  h.step (.drop hn hl ht) rfl

theorem abandon {o : Opened} {n : Node} (h : Stage b k l x (.node n :: .opened o :: w) s) :
    Stage b k l x (.node (s.abandon o n).1 :: w) (s.abandon o n).2 := h.step .abandon rfl

theorem relabel {m n : Node} (h : Stage b k l x (.node m :: w) s) (hr : n.Resembles m) :
    Stage b k l x (.node n :: w) s := h.step (.relabel hr) rfl

theorem nest (h : Stage b k l x w s) (d : Nat) :
    Stage b k l x w { s with namespaceDepth := d } := h.step .nest rfl

theorem halt (h : Stage b k l x w s) : Stage b k l x w s.halt where
  moves := h.moves.tail .halt
  sound := Stream.halt_sound h.sound
  paid := by
    have hrest : s.halt.stream.rest = 0 := rfl
    have hpaid := h.paid
    omega
  limit := h.limit
  covers := h.covers
  starts := Move.halt.starts h.sound h.starts

end Stage

/-! ## What rules promise -/

namespace Rule

/-- Rules of lower rank may be asked for before anything has been consumed. -/
def rank {c : Shape} : Rule c → Nat
  | .cases _ => 7
  | .statements _ | .topStatements _ | .namespaceStatements | .members => 6
  | .statement | .separated .. | .delimited .. => 5
  | .useItem .. | .directive | .staticVariable | .constant _ | .property | .parameter
  | .argument | .entries .. => 4
  | .expression _ => 3
  | .operand => 2
  | .variable _ | .lexicalVariable => 1
  | .ifStatement | .shortElseIf | .handlers | .classFlags .. | .memberModifiers _
  | .braceGroup _ | .infixes .. | .simpleVariable | .lookups .. | .name | .segments => 0

/-- Whether a rule that yields a node can be asked for anywhere, finds the bench as its
caller left it and consumes something unless it finds an error. -/
def isPlain : Rule .node → Bool
  | .statement | .ifStatement | .shortElseIf | .infixes .. | .lookups .. => false
  | _ => true

/-- What a rule needs to know about its parameters or about the current token. -/
def Ready {c : Shape} (r : Rule c) (s : ParseState) : Prop :=
  match r with
  | .separated mark item => mark.IsSolid ∧ item.isPlain = true
  | .delimited close item => close.IsSolid ∧ item.isPlain = true
  | .entries close _ => close.IsSolid
  | .ifStatement | .shortElseIf => s.kind.IsSolid
  | .infixes min left => left.Fits min s
  | _ => True

/-- The bench that a rule finds: an operand whose operators or lookups are to be read lies
on top of it. -/
def takes {c : Shape} (r : Rule c) (w : Bench) : Bench :=
  match r with
  | .infixes _ n | .lookups n _ => .node n :: w
  | _ => w

def floor {c : Shape} (r : Rule c) (l : Nat) (s : ParseState) : Nat :=
  match r with
  | .separated .. | .ifStatement | .shortElseIf | .useItem .. | .directive | .staticVariable
  | .constant _ | .property | .parameter | .lexicalVariable | .expression _ | .operand
  | .variable _ | .simpleVariable | .argument | .name => max l s.offset
  | _ => l

def Ends {c : Shape} (r : Rule c) (s : ParseState) : Prop :=
  match r with
  | .statements stop | .topStatements stop => s.kind = .eof ∨ stop.contains s.kind = true
  | _ => True

end Rule

def Shape.put : (c : Shape) → c.Value → Bench → Bench
  | .node, n, w => .node n :: w
  | .nodes, ns, w => stack ns w
  | .segments, _, w | .modifiers, _, w | .classFlags, _, w | .nothing, _, w => w

def Rule.Keeps (b : Nat) {c : Shape} (r : Rule c) (s : ParseState)
    (o strict : Outcome c.Value) : Prop :=
  ∀ {k l x w}, r.rank < k → r.Ready s → Stage b k l x (r.takes w) s →
    Meets s (fun v t => Stage b k (r.floor l s) x (c.put v w) t ∧ r.Ends t) o strict

structure Answers (b : Nat) (answer : (c : Shape) → Rule c → ParseState → Outcome c.Value) :
    Prop where
  keeps : ∀ {c : Shape} (r : Rule c) (s : ParseState),
    r.Keeps b s (answer c r s) (answer c r s.strict)
  gives : ∀ {c : Shape} {r : Rule c} {s t : ParseState} {v : c.Value},
    answer c r s = .ok (v, t) → r.Gives s v t

end PhpSyntax
