/-
Reading tokens that are known.

`p.Reads fs V gs` says that wherever the tokens `fs` come next, in strict mode with the default
options, the part `p` of a body ends with a value of which `V` holds where the tokens `gs` come
next.  Unlike what a part satisfies or promises, this says that it does end with a value.  The
kinds and texts of the tokens decide on what a part does, so it is followed without looking at
the state.
-/
import PhpSyntax.Proofs.Formula.Basic
import PhpSyntax.Proofs.Layout.Independence
import PhpSyntax.Proofs.Progress.Yields

namespace PhpSyntax

variable {α β : Type}

/-! ## Trees without places -/

@[simp] theorem Node.unplaced_mk (info : NodeInfo) (p : Production Node) :
    (Node.mk info p).unplaced = ⟨info.unplaced, p.map Node.unplaced⟩ := mapInfo_eq _ _

theorem Node.production_unplaced (n : Node) :
    n.unplaced.production = n.production.map Node.unplaced := by
  rw [unplaced, mapInfo_eq]

/-! ## The tokens that come next -/

/-- The tokens `fs` come next, and nothing but tokens is kept. -/
structure ParseState.Before (s : ParseState) (fs : List (TokenKind × String)) : Prop where
  options : s.stream.options = {}
  comments : s.stream.comments = #[]
  deferred : s.trivia.deferred = #[]
  tokens : s.stream.current.face :: s.stream.onward.map Token.face = fs

def endOfText : TokenKind × String := (.eof, "")

namespace ParseState.Before

variable {s : ParseState} {f : TokenKind × String} {fs : List (TokenKind × String)}

theorem kind (h : s.Before (f :: fs)) : s.kind = f.1 :=
  congrArg Prod.fst (List.cons.inj h.tokens).1

theorem text (h : s.Before (f :: fs)) : s.stream.current.text = f.2 :=
  congrArg Prod.snd (List.cons.inj h.tokens).1

/-- Behind the current token come those after it, or the end of the text. -/
theorem advance (h : s.Before (f :: fs)) :
    s.advance.Before (fs.head?.getD endOfText :: fs.tail) where
  options := h.options
  comments := by
    show (if s.stream.options.extractDoc then _ else s.stream.comments) = #[]
    rw [h.options, if_neg (by decide), h.comments]
  deferred := h.deferred
  tokens := by
    have honward := (List.cons.inj h.tokens).2
    show s.stream.advance.current.face :: s.stream.advance.onward.map Token.face = _
    rw [Stream.advance_current, Stream.advance_onward, ← honward]
    cases s.stream.onward <;> rfl

theorem openNode (h : s.Before fs) : s.openNode.1.leading = [] ∧ s.openNode.2.Before fs := by
  refine ⟨?_, h.options, h.comments, h.deferred, h.tokens⟩
  show s.trivia.unread s.stream.comments = []
  rw [h.comments, Trivia.unread_of_nothing]

theorem openAt (h : s.Before fs) (p : Position) :
    (s.openAt p).1.leading = [] ∧ (s.openAt p).2.Before fs :=
  ⟨rfl, h.options, h.comments, h.deferred, h.tokens⟩

theorem finishNode (h : s.Before fs) {o : Opened} (ho : o.leading = []) :
    (s.finishNode o).1.unplaced = default ∧ (s.finishNode o).2.Before fs := by
  obtain ⟨htrailing, hdeferred⟩ := Trivia.trail_of_nothing h.deferred s.nextId s.stream.prev
    s.stream.current.isEof
  rw [← h.comments] at htrailing hdeferred
  refine ⟨?_, h.options, h.comments, hdeferred, h.tokens⟩
  show NodeInfo.mk 0 default o.leading (Prod.fst (Trivia.trail _ _ _ _ _)) = _
  rw [ho, htrailing]
  rfl

end ParseState.Before

/-! ## Parts of a body -/

namespace Parser

def Reads (p : Parser α) (fs : List (TokenKind × String)) (V : α → Prop)
    (gs : List (TokenKind × String)) : Prop :=
  ∀ s : ParseState, s.Before fs → ∃ a t, p.Yields s a t ∧ V a ∧ t.Before gs

namespace Reads

variable {p : Parser α} {V : α → Prop} {W : β → Prop} {k : TokenKind} {w : String}
  {e : TokenKind × String} {fs gs hs : List (TokenKind × String)}

protected theorem pure {a : α} (h : V a) : Reads (pure a) fs V fs :=
  fun s hs => ⟨a, s, yields_pure.mpr ⟨rfl, rfl⟩, h, hs⟩

protected theorem bind {f : α → Parser β} (hp : Reads p fs V gs)
    (hf : ∀ a, V a → Reads (f a) gs W hs) : Reads (p >>= f) fs W hs := by
  intro s hbefore
  obtain ⟨a, t, hat, ha, ht⟩ := hp s hbefore
  obtain ⟨b, u, hbu, hb, hu⟩ := hf a ha t ht
  exact ⟨b, u, yields_bind.mpr ⟨a, t, hat, hbu⟩, hb, hu⟩

theorem call {c : Shape} {r : Rule c} {V : c.Value → Prop} (h : Reads r.body fs V gs) :
    Reads (call r) fs V gs := by
  intro s hs
  obtain ⟨v, t, hvt, hv, ht⟩ := h s hs
  exact ⟨v, t, yields_call.mpr hvt, hv, ht⟩

/-! ### Looking at the current token -/

/-- Something is read off the state, and the rest does the same whatever it is. -/
theorem read {f : β → Parser α} {g : ParseState → β} (h : ∀ b, Reads (f b) fs V gs) :
    Reads (read g >>= f) fs V gs :=
  fun s hs => h (g s) s hs

/-- What is read off the state is told by the tokens that come next. -/
theorem read_eq {f : β → Parser α} {g : ParseState → β} {b : β}
    (hg : ∀ s : ParseState, s.Before fs → g s = b) (h : Reads (f b) fs V gs) :
    Reads (Parser.read g >>= f) fs V gs := by
  intro s hs
  rw [← hg s hs] at h
  exact h s hs

theorem kind {f : TokenKind → Parser α} (h : Reads (f k) ((k, w) :: fs) V gs) :
    Reads (kind >>= f) ((k, w) :: fs) V gs :=
  read_eq (fun _ hs => hs.kind) h

theorem text {f : String → Parser α} (h : Reads (f w) ((k, w) :: fs) V gs) :
    Reads (text >>= f) ((k, w) :: fs) V gs :=
  read_eq (fun _ hs => hs.text) h

theorem isAt {j : TokenKind} {f : Bool → Parser α}
    (h : Reads (f (decide (k = j))) ((k, w) :: fs) V gs) :
    Reads (isAt j >>= f) ((k, w) :: fs) V gs :=
  read_eq (fun _ hs => congrArg (fun i : TokenKind => decide (i = j)) hs.kind) h

theorem isIn {c : Category} {f : Bool → Parser α}
    (h : Reads (f (c.set.contains k)) ((k, w) :: fs) V gs) :
    Reads (isIn c >>= f) ((k, w) :: fs) V gs :=
  read_eq (fun _ hs => congrArg c.set.contains hs.kind) h

theorem atEnd {f : Bool → Parser α} (h : Reads (f (decide (k = .eof))) ((k, w) :: fs) V gs) :
    Reads (atEnd >>= f) ((k, w) :: fs) V gs :=
  read_eq (fun _ hs => congrArg (fun i : TokenKind => decide (i = .eof)) hs.kind) h

/-! ### Going on to the next token -/

protected theorem advance {f : Unit → Parser α} (hfs : fs ≠ []) (h : Reads (f ()) fs V gs) :
    Reads (advance >>= f) (e :: fs) V gs := by
  intro s hs
  have hnext := hs.advance
  obtain ⟨g, fs, rfl⟩ := List.exists_cons_of_ne_nil hfs
  obtain ⟨a, t, hat, ha, ht⟩ := h s.advance hnext
  exact ⟨a, t, yields_advance_bind.mpr hat, ha, ht⟩

theorem advance_last : Reads Parser.advance [e] (fun _ => True) [endOfText] :=
  fun s hs => ⟨(), s.advance, yields_advance.mpr rfl, trivial, hs.advance⟩

theorem eat {f : Bool → Parser α} (hfs : fs ≠ []) (h : Reads (f true) fs V gs) :
    Reads (eat k >>= f) ((k, w) :: fs) V gs := by
  have heat : Reads (Parser.eat k) ((k, w) :: fs) (· = true) fs := by
    refine .isAt ?_
    rw [decide_eq_true rfl, if_pos rfl]
    exact .advance hfs (.pure rfl)
  exact .bind heat fun b hb => hb ▸ h

theorem eat_not {j : TokenKind} (hk : k ≠ j) {f : Bool → Parser α}
    (h : Reads (f false) ((k, w) :: fs) V gs) :
    Reads (Parser.eat j >>= f) ((k, w) :: fs) V gs := by
  have heat : Reads (Parser.eat j) ((k, w) :: fs) (· = false) ((k, w) :: fs) := by
    refine .isAt ?_
    rw [decide_eq_false hk, if_neg Bool.false_ne_true]
    exact .pure rfl
  exact .bind heat fun b hb => hb ▸ h

theorem require {f : Unit → Parser α} (hfs : fs ≠ []) (h : Reads (f ()) fs V gs) :
    Reads (require k >>= f) ((k, w) :: fs) V gs := by
  have hexpect : Reads (expect k) ((k, w) :: fs) (fun _ => True) fs := .eat hfs (.pure trivial)
  have hrequire : Reads (Parser.require k) ((k, w) :: fs) (fun _ => True) fs :=
    .bind hexpect fun _ _ => .pure trivial
  exact .bind hrequire fun _ _ => h

/-- What the default options have is there. -/
theorem requireOption {g : Options → Bool} (hg : g {} = true) {f : Unit → Parser α}
    (h : Reads (f ()) fs V gs) : Reads (requireOption g >>= f) fs V gs := by
  have hthere : Reads (Parser.requireOption g) fs (fun _ => True) fs := by
    refine .read_eq (b := true) (fun s hs => ?_) (.pure trivial)
    rw [hs.options, hg]
  exact .bind hthere fun _ _ => h

/-! ### Nodes -/

theorem openNode {f : Opened → Parser α} (h : ∀ o, o.leading = [] → Reads (f o) fs V gs) :
    Reads (openNode >>= f) fs V gs :=
  fun _ hs => h _ hs.openNode.1 _ hs.openNode.2

theorem openAt {start : Position} {f : Opened → Parser α}
    (h : ∀ o, o.leading = [] → Reads (f o) fs V gs) : Reads (openAt start >>= f) fs V gs :=
  fun _ hs => h _ (hs.openAt start).1 _ (hs.openAt start).2

theorem finish {o : Opened} (ho : o.leading = []) {p q : Production Node}
    (hp : p.map Node.unplaced = q) :
    Reads (finish o p) fs (fun n => n.unplaced = ⟨default, q⟩) fs := by
  intro s hs
  obtain ⟨hinfo, hnext⟩ := hs.finishNode ho
  refine ⟨_, _, yields_finish.mpr ⟨rfl, rfl⟩, ?_, hnext⟩
  show (Node.mk (s.finishNode o).1 p).unplaced = _
  rw [Node.unplaced_mk, hinfo, hp]

end Reads
end Parser
end PhpSyntax
