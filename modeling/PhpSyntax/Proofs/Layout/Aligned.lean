/-
States of two parses that differ in their layout only.

The tokens still to be consumed are the same but for where they stand, and an `Alignment`
says which offset of the one text goes with which offset of the other.  It is one to one,
so whether two tokens of a text are the same one shows in the other text as well: that is
all that the parser ever asks of offsets.  Each change of the state keeps both sides aligned.
-/
import PhpSyntax.Parse.Action
import PhpSyntax.Proofs.Layout.Erase
import PhpSyntax.Proofs.Stream.Progress
import PhpSyntax.Proofs.Trace.Move

namespace PhpSyntax

structure Alignment where
  Pairs : Nat → Nat → Prop
  eq_iff : ∀ {a b c d : Nat}, Pairs a b → Pairs c d → (a = c ↔ b = d)

variable {A : Alignment}

/-! ## Tokens -/

structure Token.Aligned (A : Alignment) (t u : Token) : Prop where
  kind : t.kind = u.kind
  text : t.text = u.text
  start : A.Pairs t.start.offset u.start.offset

namespace Token.Aligned

variable {t u : Token}

theorem eof {p q : Position} (h : A.Pairs p.offset q.offset) :
    (Token.eof p).Aligned A (Token.eof q) :=
  ⟨rfl, rfl, h⟩

theorem isEof (h : t.Aligned A u) : t.isEof = u.isEof :=
  congrArg (fun k : TokenKind => decide (k = .eof)) h.kind

theorem describe (h : t.Aligned A u) : Fault.describeToken t = Fault.describeToken u := by
  obtain ⟨k, word, _, _⟩ := t
  obtain ⟨k', word', _, _⟩ := u
  obtain ⟨hkind, htext, _⟩ := h
  cases hkind
  cases htext
  rfl

theorem unexpected (h : t.Aligned A u) (e : Expected) :
    Fault.unexpected t e = Fault.unexpected u e := by
  unfold Fault.unexpected
  rw [h.isEof, h.describe]

/-- The first of the tokens to come, or the end of the text. -/
theorem head {us vs : List Token} (h : List.Forall₂ (Token.Aligned A) us vs) {p q : Position}
    (hend : A.Pairs p.offset q.offset) :
    (us.head?.getD (Token.eof p)).Aligned A (vs.head?.getD (Token.eof q)) := by
  cases h with
  | nil => exact .eof hend
  | cons htoken _ => exact htoken

theorem tail {us vs : List Token} (h : List.Forall₂ (Token.Aligned A) us vs) :
    List.Forall₂ (Token.Aligned A) us.tail vs.tail := by
  cases h with
  | nil => exact .nil
  | cons _ hrest => exact hrest

end Token.Aligned

/-! ## Streams -/

namespace Stream

def onward (s : Stream) : List Token :=
  (s.ahead.filter (!·.kind.isTrivia)).map (·.forGrammar s.options)

theorem onward_eq (s : Stream) :
    s.onward =
      match s.upcoming with
      | [] => []
      | t :: _ => t.forGrammar s.options :: s.advance.onward := by
  rw [onward, filter_upcoming]
  cases hu : s.upcoming with
  | nil => rfl
  | cons t ts =>
    have hahead : s.advance.ahead = ts := by simp [advance, hu]
    rw [List.filter_cons_of_pos (by simp [upcoming_cons hu]), List.map_cons, onward, hahead]
    rfl

theorem advance_current (s : Stream) :
    s.advance.current = s.onward.head?.getD (Token.eof s.stop) := by
  rw [onward_eq, advance]
  cases s.upcoming <;> rfl

theorem advance_onward (s : Stream) : s.advance.onward = s.onward.tail := by
  rw [onward_eq s]
  cases hu : s.upcoming with
  | nil =>
    have hahead : s.advance.ahead = [] := by simp [advance, hu]
    rw [onward, hahead]
    rfl
  | cons t ts => rfl

/-- The same place in two texts.  No comments are kept on either side. -/
structure Aligned (A : Alignment) (s t : Stream) : Prop where
  options : s.options = t.options
  extractDoc : s.options.extractDoc = false
  current : s.current.Aligned A t.current
  onward : List.Forall₂ (Token.Aligned A) s.onward t.onward
  stop : A.Pairs s.stop.offset t.stop.offset
  comments : s.comments = #[] ∧ t.comments = #[]

namespace Aligned

variable {s t : Stream}

/-- The next place is aligned wherever the tokens to come are. -/
theorem of_onward (ho : s.options = t.options) (hd : s.options.extractDoc = false)
    (honward : List.Forall₂ (Token.Aligned A) s.onward t.onward)
    (hstop : A.Pairs s.stop.offset t.stop.offset) (hc : s.comments = #[] ∧ t.comments = #[]) :
    s.advance.Aligned A t.advance where
  options := ho
  extractDoc := hd
  current := by
    rw [advance_current, advance_current]
    exact .head honward hstop
  onward := by
    rw [advance_onward, advance_onward]
    exact Token.Aligned.tail honward
  stop := hstop
  comments := by
    have ht : t.options.extractDoc = false := ho ▸ hd
    simp only [Stream.advance, hd, ht, Bool.false_eq_true, if_false]
    exact hc

theorem advance (h : s.Aligned A t) : s.advance.Aligned A t.advance :=
  of_onward h.options h.extractDoc h.onward h.stop h.comments

theorem peek (h : s.Aligned A t) : s.peek = t.peek := by
  rw [← advance_kind, ← advance_kind]
  exact h.advance.current.kind

theorem halt (h : s.Aligned A t) : s.halt.2.Aligned A t.halt.2 where
  options := h.options
  extractDoc := h.extractDoc
  current := .eof h.stop
  onward := .nil
  stop := h.stop
  comments := h.comments

theorem finish (h : s.Aligned A t) : s.finish.Aligned A t.finish :=
  ⟨h.options, h.extractDoc, h.current, h.onward, h.stop, h.comments⟩

end Aligned
end Stream

/-! ## Comments -/

namespace Trivia

variable {t : Trivia}

theorem unread_of_nothing (t : Trivia) : t.unread #[] = [] := by
  simp [unread]

theorem trail_of_nothing (h : t.deferred = #[]) (id : Nat) (p : Position) (atEnd : Bool) :
    (t.trail #[] id p atEnd).1 = [] ∧ (t.trail #[] id p atEnd).2.deferred = #[] := by
  rw [trail, unread_of_nothing]
  cases t.lastFinished with
  | some last => simp [h]
  | none =>
    cases atEnd with
    | true => exact ⟨rfl, h⟩
    | false => exact ⟨rfl, h⟩

theorem settle_of_nothing (h : t.deferred = #[]) (p : Program) : t.settle p = p := by
  rw [settle, h]
  rfl

end Trivia

/-! ## States -/

/-- States of two parses at the same place.  What has been recorded so far differs in its
layout only. -/
structure ParseState.Aligned (A : Alignment) (s t : ParseState) : Prop where
  stream : s.stream.Aligned A t.stream
  errors : s.errors.toList.map Node.erased = t.errors.toList.map Node.erased
  deferred : s.trivia.deferred = #[] ∧ t.trivia.deferred = #[]
  nextId : s.nextId = t.nextId
  openNodes : s.openNodes = t.openNodes
  namespaceDepth : s.namespaceDepth = t.namespaceDepth

namespace ParseState.Aligned

variable {s t : ParseState}

theorem current (h : s.Aligned A t) : s.stream.current.Aligned A t.stream.current :=
  h.stream.current

theorem advance (h : s.Aligned A t) : s.advance.Aligned A t.advance :=
  ⟨h.stream.advance, h.errors, h.deferred, h.nextId, h.openNodes, h.namespaceDepth⟩

theorem halt (h : s.Aligned A t) : s.halt.Aligned A t.halt :=
  ⟨h.stream.halt, h.errors, h.deferred, h.nextId, h.openNodes, h.namespaceDepth⟩

theorem nest (h : s.Aligned A t) (f : Nat → Nat) :
    { s with namespaceDepth := f s.namespaceDepth }.Aligned A
      { t with namespaceDepth := f t.namespaceDepth } :=
  ⟨h.stream, h.errors, h.deferred, h.nextId, h.openNodes, congrArg f h.namespaceDepth⟩

theorem openNode (h : s.Aligned A t) :
    s.openNode.1.leading = t.openNode.1.leading ∧ s.openNode.2.Aligned A t.openNode.2 := by
  obtain ⟨hs, ht⟩ := h.stream.comments
  refine ⟨?_, h.stream, h.errors, h.deferred, h.nextId, ?_, h.namespaceDepth⟩
  · show s.trivia.unread s.stream.comments = t.trivia.unread t.stream.comments
    rw [hs, ht, Trivia.unread_of_nothing, Trivia.unread_of_nothing]
  · exact congrArg (· + 1) h.openNodes

theorem openAt (h : s.Aligned A t) (p q : Position) :
    (s.openAt p).2.Aligned A (t.openAt q).2 :=
  ⟨h.stream, h.errors, h.deferred, h.nextId, congrArg (· + 1) h.openNodes, h.namespaceDepth⟩

theorem abandon (h : s.Aligned A t) (o o' : Opened) (m n : Node) :
    (s.abandon o m).2.Aligned A (t.abandon o' n).2 :=
  ⟨h.stream, h.errors, h.deferred, h.nextId, congrArg (· - 1) h.openNodes, h.namespaceDepth⟩

theorem finishNode (h : s.Aligned A t) {o o' : Opened} (ho : o.leading = o'.leading) :
    (s.finishNode o).1.erased = (t.finishNode o').1.erased ∧
      (s.finishNode o).2.Aligned A (t.finishNode o').2 := by
  obtain ⟨hs, ht⟩ := h.stream.comments
  obtain ⟨hs', ht'⟩ := h.deferred
  obtain ⟨hsown, hsdeferred⟩ := Trivia.trail_of_nothing hs' s.nextId s.stream.prev
    s.stream.current.isEof
  obtain ⟨htown, htdeferred⟩ := Trivia.trail_of_nothing ht' t.nextId t.stream.prev
    t.stream.current.isEof
  rw [← hs] at hsown hsdeferred
  rw [← ht] at htown htdeferred
  refine ⟨?_, h.stream, h.errors, ⟨hsdeferred, htdeferred⟩, congrArg (· + 1) h.nextId,
    congrArg (· - 1) h.openNodes, h.namespaceDepth⟩
  show NodeInfo.mk s.nextId _ o.leading (Prod.fst (Trivia.trail _ _ _ _ _)) =
    NodeInfo.mk t.nextId _ o'.leading (Prod.fst (Trivia.trail _ _ _ _ _))
  rw [hsown, htown, h.nextId, ho]
  rfl

end ParseState.Aligned

theorem Opened.erased_handTo {o o' : Opened} {m n : Node} (ho : o.leading = o'.leading)
    (h : m.erased = n.erased) : (o.handTo m).erased = (o'.handTo n).erased := by
  let hand (o : Opened) (i : NodeInfo) : NodeInfo := { i with leading := o.leading ++ i.leading }
  refine Node.erased_withInfo (f := hand o) (g := hand o') (fun i j hij => ?_) h
  obtain ⟨hid, hspan, hleading, htrailing⟩ := NodeInfo.mk.inj hij
  simp only [hand, NodeInfo.erased, hid, hspan, hleading, htrailing, ho]

/-! ## Errors -/

namespace ParseState.Aligned

variable {s t : ParseState}

theorem fault (s t : ParseState) (cause : Cause) (message : String) :
    (s.fault cause message).erased = (t.fault cause message).erased := by
  simp only [ParseState.fault, Fault.erased, withoutNumber_onLine]

theorem unclosed (s t : ParseState) : s.unclosed.erased = t.unclosed.erased := rfl

theorem errorNode (h : s.Aligned A t) (message : String) (e : Expected) :
    (s.errorNode message e).erased = (t.errorNode message e).erased := by
  refine Node.mk_erased ?_ ?_
  · simp only [NodeInfo.erased, h.nextId]
    rfl
  · simp only [Production.Like, Production.map, Production.erased, withoutNumber_onLine,
      h.current.describe]

theorem record (h : s.Aligned A t) (message : String) (e : Expected) :
    (s.record message e).Aligned A (t.record message e) where
  stream := h.stream
  errors := by
    simp only [ParseState.record, Array.toList_push, List.map_append, List.map_cons, List.map_nil,
      h.errors, h.errorNode message e]
  deferred := h.deferred
  nextId := congrArg (· + 1) h.nextId
  openNodes := h.openNodes
  namespaceDepth := h.namespaceDepth

end ParseState.Aligned
end PhpSyntax
