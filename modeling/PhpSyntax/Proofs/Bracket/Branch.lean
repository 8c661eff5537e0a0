/-
The forms of a conditional.

A conditional has the colon form exactly if a colon stands behind its condition, and an `elseif`
is a conditional of its own (`conditional_form`).  Behind a branch in the colon form the rule for
an `elseif` asks for the colon (`alternate_form`).  Behind a branch that is a statement nothing is
asked of the form of the next one.  So the forms of a conditional and of one that is its alternate
differ exactly where the first has the statement form and a colon stands behind the condition of
the second (`forms_differ`).
-/
import PhpSyntax.Proofs.Bracket.Run

namespace PhpSyntax

/-! ## Behind a group -/

namespace Token

/-- The tokens behind the mark with which nothing is awaited any more. -/
def behindFrom (awaited : List TokenKind) : List Token → List Token
  | [] => []
  | t :: ts => if t.kind.nest awaited = [] then ts else behindFrom (t.kind.nest awaited) ts

def behindGroup (ts : List Token) : List Token := behindFrom [] ts

variable {quiet : Prop} {awaited rest base : List TokenKind} {ts : List Token} {left right : Token}

/-- A passage does not close what is open around it. -/
theorem behindFrom_append (h : Nests quiet awaited ts rest) (hbase : base ≠ []) (us : List Token) :
    behindFrom (awaited ++ base) (ts ++ us) = behindFrom (rest ++ base) us := by
  induction h with
  | nil => rfl
  | @cons awaited rest t ts hbrace hempty _ ih =>
    have hnest : t.kind.nest (awaited ++ base) = t.kind.nest awaited ++ base :=
      TokenKind.nest_append hbrace fun e => (hempty e).1
    have hopen : t.kind.nest (awaited ++ base) ≠ [] := by
      rw [hnest]
      exact List.append_ne_nil_of_right_ne_nil _ hbase
    rw [List.cons_append, behindFrom, if_neg hopen, hnest, ih]

theorem behindGroup_parens (hleft : left.kind = .lParen) (h : Nests quiet [] ts [])
    (hright : right.kind = .rParen) (us : List Token) :
    behindGroup (left :: (ts ++ right :: us)) = us := by
  have hinside := behindFrom_append h (List.cons_ne_nil TokenKind.rParen []) (right :: us)
  rw [List.nil_append] at hinside
  have hopen : behindGroup (left :: (ts ++ right :: us)) =
      behindFrom [.rParen] (ts ++ right :: us) := by
    rw [behindGroup, behindFrom, hleft]
    rfl
  rw [hopen, hinside, behindFrom, hright]
  rfl

end Token

def Span.onward (span : Span) (ts : List Token) : List Token :=
  ts.filter fun t => span.start.offset ≤ t.start.offset

theorem Span.onward_split {span : Span} {before after : List Token} {first : Token}
    (h : Token.Ordered (before ++ first :: after)) (hstart : span.start = first.start) :
    span.onward (before ++ first :: after) = first :: after := by
  obtain ⟨hbefore, hrest, hleft⟩ := h.append
  have hout : ∀ t ∈ before, ¬(span.start.offset ≤ t.start.offset) := by
    intro t ht
    have hstop := hleft t ht first List.mem_cons_self
    have hfilled := hbefore.filled t ht
    rw [hstart]
    omega
  have hin : ∀ t ∈ first :: after, span.start.offset ≤ t.start.offset := by
    intro t ht
    rw [hstart]
    exact hrest.head_le rfl t ht
  rw [onward, List.filter_append, List.filter_eq_nil_iff.mpr (by simpa using hout),
    List.filter_eq_self.mpr (by simpa using hin), List.nil_append]

namespace ParseState

variable {source : String} {o : Options} {s : ParseState}

/-- The tokens that are still to be read are those from the current one on. -/
theorem Reading.onward (h : s.Reading source) (ho : s.stream.options = o.effective)
    (hk : s.kind ≠ .eof) {span : Span} (hstart : span.start = s.stream.current.start) :
    span.onward (grammarTokens o source) = s.stream.pending := by
  obtain ⟨before, hbefore⟩ := h.tokens.pending_suffix h.sound ho
  have hordered := grammarTokens_ordered o source
  rw [← hbefore, Stream.pending_advance h.sound hk] at hordered ⊢
  exact Span.onward_split hordered hstart

theorem Reading.head_pending (h : s.Reading source) {k : TokenKind} (hk : k ≠ .eof) :
    s.stream.pending.head?.map Token.kind = some k ↔ s.kind = k := by
  by_cases heof : s.kind = .eof
  · rw [Stream.pending_of_eof heof, heof]
    exact iff_of_false nofun fun e => hk e.symm
  · rw [Stream.pending_advance h.sound heof]
    exact Option.some_inj

end ParseState

/-! ## Forms -/

def Production.form? {α : Type} : Production α → Option Bool
  | .if _ _ _ shortform => some shortform
  | _ => none

theorem Production.form?_map {α β : Type} (f : α → β) (p : Production α) :
    (p.map f).form? = p.form? := by
  cases p <;> rfl

/-- Whether a colon stands behind the condition of the conditional that the first of the tokens
starts. -/
def Token.HasColon (ts : List Token) : Prop :=
  (behindGroup ts.tail).head?.map kind = some .colon

namespace Grammar
open PhpSyntax.Parser

variable {source : String} {o : Options} {s t : ParseState} {n : Node}

/-- What is behind the parentheses of a condition. -/
theorem condition_behind (hs : s.Reading source) (h : condition.Yields s n t) :
    t.Reading source ∧ Token.behindGroup s.stream.pending = t.stream.pending := by
  obtain ⟨u, hleft, hn, hu, hright, rfl⟩ := condition_yields hs h
  have hsolid : s.kind ≠ .eof := by simp [hleft]
  have hstop : u.kind ≠ .eof := by simp [hright]
  have hopen := hs.advance hsolid
  obtain ⟨ts, hspends, hnests, _⟩ :=
    (Balances.expression.of_yields hopen.isStrict hn).1.tokens hstop
  refine ⟨hu.advance hstop, ?_⟩
  have hinside : s.advance.stream.pending = ts ++ u.stream.pending := hspends.pending hopen.sound
  rw [Stream.pending_advance hs.sound hsolid]
  show Token.behindGroup (_ :: s.advance.stream.pending) = _
  rw [hinside, Stream.pending_advance hu.sound hstop]
  exact Token.behindGroup_parens hleft hnests hright _

theorem shortElseIf_form (h : shortElseIf.Yields s n t) : n.production.form? = some true := by
  rw [shortElseIf, yields_openNode_bind, yields_advance_bind] at h
  obtain ⟨_, _, _, h⟩ := yields_bind.mp h
  obtain ⟨_, _, _, h⟩ := yields_bind.mp h
  obtain ⟨_, _, _, h⟩ := yields_bind.mp h
  obtain ⟨rfl, _⟩ := yields_finish.mp h
  rfl

theorem shortElse_form (h : shortElse.Yields s n t) : n.production.form? = none := by
  rw [shortElse, yields_advance_bind] at h
  obtain ⟨_, _, _, h⟩ := yields_bind.mp h
  obtain ⟨_, _, _, h⟩ := yields_bind.mp h
  obtain ⟨_, _, _, h⟩ := yields_bind.mp h
  obtain ⟨rfl, _⟩ := yields_finish.mp h
  rfl

/-- Behind a branch in the colon form there is another one, or a block. -/
theorem shortBranch_form {r : Node × Option Node} (h : shortBranch.Yields s r t) :
    ∀ m, r.2 = some m → m.production.form? ≠ some false := by
  rw [shortBranch, yields_openNode_bind] at h
  obtain ⟨_, _, _, h⟩ := yields_bind.mp h
  obtain ⟨_, _, _, h⟩ := yields_bind.mp h
  rw [yields_kind_bind] at h
  split at h
  · obtain ⟨m, _, hm, h⟩ := yields_bind.mp h
    obtain ⟨rfl, _⟩ := yields_pure.mp h
    rintro _ ⟨⟩
    simp [shortElseIf_form (yields_call.mp hm)]
  · obtain ⟨m, _, hm, h⟩ := yields_bind.mp h
    obtain ⟨rfl, _⟩ := yields_pure.mp h
    rintro _ ⟨⟩
    simp [shortElse_form hm]
  · obtain ⟨rfl, _⟩ := yields_pure.mp h
    nofun

/-- A conditional that starts at the current token.  Its form is told by what stands behind its
condition, and in the colon form its alternate has no other form. -/
structure Branches (s : ParseState) (n : Node) : Prop where
  start : n.span.start = s.stream.current.start
  form : ∃ shortform, n.production.form? = some shortform ∧
    (shortform = true ↔ Token.HasColon s.stream.pending)
  alternate : ∀ test body m, n.production = .if test body (some m) true →
    m.production.form? ≠ some false

theorem Branches.colon {test : Node} {r : Node × Option Node} {u v w : ParseState}
    (hcolon : Token.HasColon s.stream.pending) (hr : shortBranch.Yields u r v)
    (h : (finish s.openNode.1 (.if test r.1 r.2 true)).Yields w n t) : Branches s n := by
  obtain ⟨rfl, _⟩ := yields_finish.mp h
  refine ⟨rfl, ⟨true, rfl, iff_of_true rfl hcolon⟩, fun _ _ m hp => ?_⟩
  exact shortBranch_form hr m (Production.if.inj hp).2.2.1

theorem Branches.statement {test body : Node} {alternate : Option Node} {u : ParseState}
    (hcolon : ¬Token.HasColon s.stream.pending)
    (h : (finish s.openNode.1 (.if test body alternate false)).Yields u n t) : Branches s n := by
  obtain ⟨rfl, _⟩ := yields_finish.mp h
  refine ⟨rfl, ⟨false, rfl, iff_of_false Bool.false_ne_true hcolon⟩, fun _ _ m hp => ?_⟩
  exact absurd (Production.if.inj hp).2.2.2 Bool.false_ne_true

/-- The condition of a conditional is read behind its first token. -/
theorem branch_condition (hs : s.Reading source) (hk : s.kind ≠ .eof)
    (h : condition.Yields s.openNode.2.advance n t) :
    t.Reading source ∧ (Token.HasColon s.stream.pending ↔ t.kind = .colon) := by
  obtain ⟨ht, hbehind⟩ := condition_behind (hs.opened hk) h
  refine ⟨ht, ?_⟩
  rw [← ht.head_pending (by decide), ← hbehind, Token.HasColon,
    Stream.pending_advance hs.sound hk]
  rfl

theorem shortElseIf_branches (hs : s.Reading source) (hk : s.kind ≠ .eof)
    (h : shortElseIf.Yields s n t) : Branches s n := by
  rw [shortElseIf, yields_openNode_bind, yields_advance_bind] at h
  obtain ⟨test, u, htest, h⟩ := yields_bind.mp h
  obtain ⟨hu, hcolon⟩ := branch_condition hs hk htest
  obtain ⟨_, v, hrequire, h⟩ := yields_bind.mp h
  obtain ⟨r, w, hr, h⟩ := yields_bind.mp h
  exact .colon (hcolon.mpr ((yields_require hu.strict).mp hrequire).1) hr h

theorem ifStatement_branches (hs : s.Reading source) (hk : s.kind ≠ .eof)
    (h : ifStatement.Yields s n t) : Branches s n := by
  rw [ifStatement, yields_openNode_bind, yields_advance_bind] at h
  obtain ⟨test, u, htest, h⟩ := yields_bind.mp h
  obtain ⟨_, hcolon⟩ := branch_condition hs hk htest
  obtain ⟨b, v, hb, hrest⟩ := yields_bind.mp h
  rcases yields_eat.mp hb with ⟨hk, rfl, rfl⟩ | ⟨hk, rfl, rfl⟩
  · rw [if_pos rfl] at hrest
    obtain ⟨r, w, hr, h⟩ := yields_bind.mp hrest
    obtain ⟨_, _, _, h⟩ := yields_bind.mp h
    obtain ⟨_, _, _, h⟩ := yields_bind.mp h
    exact .colon (hcolon.mpr hk) hr h
  · have hnone : ¬Token.HasColon s.stream.pending := fun e => hk (hcolon.mp e)
    rw [if_neg Bool.false_ne_true] at hrest
    obtain ⟨body, w, _, h⟩ := yields_bind.mp hrest
    rw [yields_kind_bind] at h
    -- an `elseif` that chooses its form anew, an `else`, and neither
    split at h
    · obtain ⟨_, _, _, h⟩ := yields_bind.mp h
      exact .statement hnone h
    · rw [yields_advance_bind] at h
      obtain ⟨_, _, _, h⟩ := yields_bind.mp h
      exact .statement hnone h
    · exact .statement hnone h

end Grammar

/-! ## Programs -/

variable {source : String} {fileName : Option String} {o : Options} {p : Program}

open Grammar in
/-- A conditional of a program is what one of its rules makes of some state. -/
theorem parse_branches (h : parse source fileName o = .ok p) (hs : o.suppressErrors = false)
    {n : Node} (hn : n ∈ p.tree) (hform : n.production.form?.isSome = true) :
    ∃ (g : NodeInfo → NodeInfo) (k : Node) (s : ParseState), s.Reading source ∧
      s.stream.options = o.effective ∧ s.kind ≠ .eof ∧ Branches s k ∧
      n.production = k.production.map (Node.mapInfo g) ∧ n.span = k.span := by
  have hmakers : n.production.makers =
      [([.kwIf, .kwElseIf], ifStatement), ([.kwElseIf], shortElseIf)] := by
    cases hp : n.production with
    | «if» => rfl
    | _ =>
      rw [hp] at hform
      cases hform
  obtain ⟨g, _, maker, hmaker, k, s, t, hreading, ho, hkind, hyields, hk⟩ :=
    parse_read h hs hn (by simp [hmakers])
  rw [hmakers] at hmaker
  have hsolid : s.kind ≠ .eof := by
    have hall : ∀ j ∈ maker.1, j ≠ .eof := by
      rcases List.mem_pair.mp hmaker with rfl | rfl
      · decide
      · decide
    exact hall _ hkind
  refine ⟨g, k, s, hreading, ho, hsolid, ?_, hk⟩
  rcases List.mem_pair.mp hmaker with rfl | rfl
  · exact ifStatement_branches hreading hsolid hyields
  · exact shortElseIf_branches hreading hsolid hyields

/-- In strict mode a conditional has the colon form exactly if a colon stands behind its
condition. -/
theorem conditional_form (h : parse source fileName o = .ok p) (hs : o.suppressErrors = false)
    {n : Node} (hn : n ∈ p.tree) {shortform : Bool} (hform : n.production.form? = some shortform) :
    shortform = true ↔ Token.HasColon (n.span.onward (grammarTokens o source)) := by
  obtain ⟨g, k, s, hreading, ho, hsolid, hbranches, hproduction, hspan⟩ :=
    parse_branches h hs hn (by rw [hform]; rfl)
  obtain ⟨form, hk, hcolon⟩ := hbranches.form
  rw [hproduction, Production.form?_map, hk] at hform
  cases hform
  rw [hreading.onward ho hsolid (hspan ▸ hbranches.start)]
  exact hcolon

/-- In strict mode the alternate of a conditional in the colon form is no conditional in the
statement form. -/
theorem alternate_form (h : parse source fileName o = .ok p) (hs : o.suppressErrors = false)
    {n m test body : Node} (hn : n ∈ p.tree) (hp : n.production = .if test body (some m) true) :
    m.production.form? ≠ some false := by
  obtain ⟨g, k, s, _, _, _, hbranches, hproduction, _⟩ :=
    parse_branches h hs hn (by rw [hp]; rfl)
  rw [hp] at hproduction
  cases hk : k.production with
  | «if» test₀ body₀ alternate₀ shortform₀ =>
    rw [hk] at hproduction
    cases alternate₀ with
    | none => cases hproduction
    | some m₀ =>
      cases hproduction
      rw [Node.production_mapInfo, Production.form?_map]
      exact hbranches.alternate test₀ body₀ m₀ hk
  | _ =>
    rw [hk] at hproduction
    cases hproduction

/-- In strict mode the forms of a conditional and of one that is its alternate differ exactly
where the first has the statement form and a colon stands behind the condition of the second. -/
theorem forms_differ (h : parse source fileName o = .ok p) (hs : o.suppressErrors = false) :
    ∀ n ∈ p.tree, ∀ test body m shortform, n.production = .if test body (some m) shortform →
      ∀ form, m.production.form? = some form →
        (form ≠ shortform ↔ shortform = false ∧
          Token.HasColon (m.span.onward (grammarTokens o source))) := by
  intro n hn test body m shortform hp form hform
  have hchild : m ∈ p.tree := Node.child_mem_walkFrom hn (by
    rw [Node.children, hp]
    simp [Production.children, Production.fields, Field.children])
  rw [← conditional_form h hs hchild hform]
  cases shortform with
  | false => simp
  | true =>
    have halternate := alternate_form h hs hn hp
    cases form with
    | false => exact absurd hform halternate
    | true => simp

/-- Behind a branch that is a statement an `elseif` takes a colon. -/
theorem forms_differ_elseif :
    ∃ p, parse "<?php if (1) f(); elseif (2): g(); endif;" none {} = .ok p ∧
      ∃ n ∈ p.tree, ∃ test body m, n.production = .if test body (some m) false ∧
        m.production.form? = some true ∧
        ((m.span.onward (grammarTokens {} "<?php if (1) f(); elseif (2): g(); endif;")).map
          Token.text).take 5 = ["elseif", "(", "2", ")", ":"] ∧
        Token.HasColon
          (m.span.onward (grammarTokens {} "<?php if (1) f(); elseif (2): g(); endif;")) := by
  have hrun : ((parse "<?php if (1) f(); elseif (2): g(); endif;" none {}).toOption.any fun p =>
      p.tree.any fun n =>
        match n.production with
        | .if _ _ (some m) false =>
          decide (m.production.form? = some true) && decide (((m.span.onward
            (grammarTokens {} "<?php if (1) f(); elseif (2): g(); endif;")).map Token.text).take 5 =
              ["elseif", "(", "2", ")", ":"])
        | _ => false) = true := by
    rw [parse_eq, statementsFrom_eq]
    decide +kernel
  obtain ⟨p, hp, hany⟩ := parse_of_any hrun
  obtain ⟨n, hn, hboth⟩ := List.any_eq_true.mp hany
  split at hboth
  · next test body m hproduction =>
    obtain ⟨hform, htexts⟩ := Bool.and_eq_true_iff.mp hboth
    have hform := of_decide_eq_true hform
    have hdiffer := forms_differ hp rfl n hn test body m false hproduction true hform
    exact ⟨p, hp, n, hn, test, body, m, hproduction, hform, of_decide_eq_true htexts,
      (hdiffer.mp (by decide)).2⟩
  · cases hboth

end PhpSyntax
