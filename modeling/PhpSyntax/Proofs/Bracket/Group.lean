/-
Groups of braces that are kept as they are written.

Behind the names of traits may stand a group of braces.  Its rule counts the braces that are
open and stops at the first token behind which none is (`Token.Closes`), so the tokens of the
group are balanced, and no part of them from the first one on is before the last
(`Token.IsGroup`).  The braces are those among the tokens that the grammar sees.  What the rule
for the use of traits consumes is the keyword, the names and the group, and the text that it
keeps is that of the group (`traitUse_keeps`).
-/
import PhpSyntax.Proofs.Bracket.Slots

namespace PhpSyntax

/-! ## Balanced tokens -/

namespace Token

def opened (ts : List Token) : Nat := ts.countP (·.kind = .lBrace)

def closed (ts : List Token) : Nat := ts.countP (·.kind = .rBrace)

def Balanced (ts : List Token) : Prop := opened ts = closed ts

/-- The tokens from a brace to the one that closes it: no fewer of them from the first one on
are balanced. -/
structure IsGroup (ts : List Token) (first last : Token) : Prop where
  head : ts.head? = some first
  getLast : ts.getLast? = some last
  opens : first.kind = .lBrace
  closes : last.kind = .rBrace
  balanced : Balanced ts
  least : ∀ front behind, ts = front ++ behind → front ≠ [] → behind ≠ [] → ¬Balanced front

/-- Where `depth` braces are open, the tokens end with the first one behind which none is. -/
inductive Closes : Nat → List Token → Prop
  | last {depth : Nat} {t : Token} (h : t.kind.braces depth = 0) : Closes depth [t]
  | cons {depth : Nat} {t : Token} {ts : List Token} (hopen : t.kind.braces depth ≠ 0)
    (h : Closes (t.kind.braces depth) ts) : Closes depth (t :: ts)

variable {depth : Nat} {t : Token} {ts : List Token}

theorem opened_cons (t : Token) (ts : List Token) : opened (t :: ts) = opened [t] + opened ts := by
  rw [← List.singleton_append, opened, List.countP_append]
  rfl

theorem closed_cons (t : Token) (ts : List Token) : closed (t :: ts) = closed [t] + closed ts := by
  rw [← List.singleton_append, closed, List.countP_append]
  rfl

/-- Where a brace is open, a token changes the depth by what it opens and closes. -/
theorem braces_succ (t : Token) (depth : Nat) :
    t.kind.braces (depth + 1) + closed [t] = depth + 1 + opened [t] := by
  unfold TokenKind.braces
  split
  · next hk => simp [opened, closed, hk]
  · next hk => simp [opened, closed, hk]
  · next hopen hclose =>
    have hopen : t.kind ≠ .lBrace := hopen
    have hclose : t.kind ≠ .rBrace := hclose
    simp [opened, closed, hopen, hclose]

namespace Closes

theorem ne_nil (h : Closes depth ts) : ts ≠ [] := by
  cases h with
  | last | cons => exact List.cons_ne_nil _ _

theorem balance (h : Closes (depth + 1) ts) :
    depth + 1 + opened ts = closed ts ∧ ∃ last, ts.getLast? = some last ∧ last.kind = .rBrace := by
  generalize hd : depth + 1 = d at h
  induction h generalizing depth with
  | @last _ t h =>
    subst hd
    have hstep := braces_succ t depth
    refine ⟨by omega, t, rfl, ?_⟩
    by_contra hk
    have hnone : closed [t] = 0 := by simp [closed, hk]
    omega
  | @cons _ t ts hopen h ih =>
    subst hd
    have hstep := braces_succ t depth
    obtain ⟨inner, hinner⟩ := Nat.exists_eq_succ_of_ne_zero hopen
    obtain ⟨hbalance, last, hlast, hkind⟩ := ih hinner.symm
    refine ⟨?_, last, ?_, hkind⟩
    · rw [opened_cons, closed_cons]
      omega
    · obtain ⟨u, us, rfl⟩ := List.exists_cons_of_ne_nil (fun e : ts = [] => by simp [e] at hlast)
      rwa [List.getLast?_cons_cons]

theorem of_cons (h : Closes depth (t :: ts)) (hne : ts ≠ []) :
    ∃ inner, t.kind.braces depth = inner + 1 ∧ Closes (inner + 1) ts := by
  cases h with
  | last => exact absurd rfl hne
  | cons hopen h =>
    obtain ⟨inner, hinner⟩ := Nat.exists_eq_succ_of_ne_zero hopen
    rw [hinner] at h
    exact ⟨inner, hinner, h⟩

/-- Before the last of the tokens some brace is open. -/
theorem open_before {front behind : List Token} (h : Closes (depth + 1) (front ++ behind))
    (hne : behind ≠ []) : closed front < depth + 1 + opened front := by
  induction front generalizing depth with
  | nil => exact Nat.succ_pos _
  | cons t front ih =>
    have hstep := braces_succ t depth
    obtain ⟨inner, hinner, h⟩ := h.of_cons (List.append_ne_nil_of_right_ne_nil _ hne)
    have hrest := ih h
    rw [opened_cons, closed_cons]
    omega

/-- Read from a brace on, they are the group of that brace. -/
theorem isGroup (h : Closes 0 (t :: ts)) (ht : t.kind = .lBrace) :
    ∃ last, IsGroup (t :: ts) t last := by
  have hone : t.kind.braces 0 = 1 := by rw [ht]; rfl
  have hcount : opened [t] = 1 ∧ closed [t] = 0 := by simp [opened, closed, ht]
  cases h with
  | last hzero => rw [hone] at hzero; cases hzero
  | cons _ h =>
    rw [hone] at h
    obtain ⟨hbalance, last, hlast, hkind⟩ := balance h
    refine ⟨last, rfl, ?_, ht, hkind, ?_, ?_⟩
    · obtain ⟨u, us, rfl⟩ := List.exists_cons_of_ne_nil (fun e : ts = [] => by simp [e] at hlast)
      rwa [List.getLast?_cons_cons]
    · rw [Balanced, opened_cons, closed_cons]
      omega
    · intro front behind hsplit hfront hbehind
      obtain ⟨u, front, rfl⟩ := List.exists_cons_of_ne_nil hfront
      obtain ⟨rfl, rfl⟩ := List.cons.inj hsplit
      have hopen := open_before h hbehind
      rw [Balanced, opened_cons, closed_cons]
      omega

end Closes
end Token

def Production.adaptations? {α : Type} : Production α → Option String
  | .traitUse _ adaptations => adaptations
  | _ => none

theorem Production.adaptations?_map {α β : Type} (f : α → β) (p : Production α) :
    (p.map f).adaptations? = p.adaptations? := by
  cases p <;> rfl

theorem Production.isTraitUse_of_adaptations? {α : Type} {p : Production α} {text : String}
    (h : p.adaptations? = some text) : p.isTraitUse = true := by
  cases p with
  | traitUse => rfl
  | _ => cases h

/-- The tokens of a node end with a group of braces, in front of which no brace opens another
one, and `text` is what is written from the first brace of the group to the last one. -/
def Node.KeepsGroup (n : Node) (source : String) (tokens : List Token) (text : String) : Prop :=
  ∃ front group first last, n.span.inside tokens = front ++ group ∧
    (∀ t ∈ front, t.kind ≠ .lBrace) ∧ Token.IsGroup group first last ∧
    Position.Encloses source first.start last.stop text

/-! ## The rules -/

namespace Grammar
open PhpSyntax.Parser

variable {source : String} {o : Options} {s t : ParseState} {n : Node} {ns : List Node}

/-- The rule for groups consumes a token and stops if no brace is open behind it. -/
theorem braceGroup_step (hs : s.tolerates = false) {depth : Nat}
    (h : (braceGroup depth).Yields s () t) :
    s.kind ≠ .eof ∧ ((s.kind.braces depth = 0 ∧ t = s.advance) ∨
      (s.kind.braces depth ≠ 0 ∧ (braceGroup (s.kind.braces depth)).Yields s.advance () t)) := by
  rw [braceGroup, yields_kind_bind] at h
  split at h
  · obtain ⟨_, _, hmissing, _⟩ := yields_bind.mp h
    exact absurd hmissing (not_yields_missing hs)
  · next hne =>
    have h : (if s.kind.braces depth = 0 then pure ()
        else call (.braceGroup (s.kind.braces depth))).Yields s.advance () t :=
      yields_advance_bind.mp h
    refine ⟨hne, ?_⟩
    split at h
    · next hdone => exact Or.inl ⟨hdone, (yields_pure.mp h).2⟩
    · next hmore => exact Or.inr ⟨hmore, yields_call.mp h⟩

/-- It goes on until no brace is open, by induction on the tokens that are left. -/
theorem braceGroup_yields (hs : s.Reading source) {depth : Nat}
    (h : (braceGroup depth).Yields s () t) :
    ∃ ts, s.stream.Spends ts t.stream ∧ Token.Closes depth ts := by
  generalize hleft : s.stream.pending = left
  induction left generalizing s depth with
  | nil =>
    have hne := (braceGroup_step hs.strict h).1
    rw [Stream.pending_advance hs.sound hne] at hleft
    cases hleft
  | cons u left ih =>
    obtain ⟨hne, ⟨hdone, rfl⟩ | ⟨hmore, hrest⟩⟩ := braceGroup_step hs.strict h
    · exact ⟨[s.stream.current], .cons hne .nil, .last hdone⟩
    · obtain ⟨_, hleft⟩ := Stream.pending_cons hs.sound hleft
      obtain ⟨ts, hts, hcloses⟩ := ih (hs.advance hne) hrest hleft.symm
      exact ⟨_, .cons hne hts, .cons hmore hcloses⟩

/-- A group that is read from its first brace on. -/
theorem group_yields (hs : s.Reading source) (hk : s.kind = .lBrace)
    (h : (braceGroup 0).Yields s () t) :
    ∃ ts last, s.Consumes source ts t ∧ Token.IsGroup ts s.stream.current last ∧
      Position.Encloses source s.stream.current.start last.stop
        (t.stream.textBetween s.offset t.stream.prev.offset) := by
  obtain ⟨ts, hspends, hcloses⟩ := braceGroup_yields hs h
  obtain ⟨first, ts, rfl⟩ := List.exists_cons_of_ne_nil hcloses.ne_nil
  obtain ⟨rfl, hne, hrest⟩ := hspends.of_cons
  obtain ⟨last, hgroup⟩ := hcloses.isGroup hk
  have hconsumes : s.Consumes source (s.stream.current :: ts) t := by
    refine .of_spends hs hspends fun last' hlast' => ?_
    obtain rfl := Option.some.inj (hlast'.symm.trans hgroup.getLast)
    simp [hgroup.closes]
  have hprev : t.stream.prev = last.stop := by
    rw [hconsumes.prev, hgroup.getLast]
    rfl
  have hplain : s.stream.current.kind ≠ .semicolon := by
    rw [show s.stream.current.kind = .lBrace from hk]
    nofun
  have hle : s.stream.current.start.offset ≤ t.stream.prev.offset :=
    Nat.le_trans (Stream.start_le_advance_prev hs.sound hplain)
      (hrest.leads.prev_le (Stream.advance_sound hs.sound))
  have hsource : t.stream.source = source := hconsumes.reading.tokens.text
  have htext := Stream.encloses_textBetween (s := t.stream) (hsource ▸ hs.tokens.begins.isIn)
    (hsource ▸ hconsumes.reading.tokens.prev_isIn) hle
  rw [hsource, hprev] at htext
  rw [hprev]
  exact ⟨_, last, hconsumes, hgroup, htext⟩

/-- Items that a mark separates. -/
theorem separated_step {mark : TokenKind} {item : Rule .node}
    (h : (separated mark item).Yields s ns t) :
    ∃ n u, (call item).Yields s n u ∧
      ((u.kind = mark ∧ ∃ ms, (separated mark item).Yields u.advance ms t ∧ ns = n :: ms) ∨
        (ns = [n] ∧ t = u)) := by
  obtain ⟨n, u, hn, h⟩ := yields_bind.mp h
  obtain ⟨b, v, hb, hrest⟩ := yields_bind.mp h
  refine ⟨n, u, hn, ?_⟩
  rcases yields_eat.mp hb with ⟨hk, rfl, rfl⟩ | ⟨_, rfl, rfl⟩
  · rw [if_pos rfl] at hrest
    obtain ⟨ms, w, hms, hdone⟩ := yields_bind.mp hrest
    obtain ⟨rfl, rfl⟩ := yields_pure.mp hdone
    exact Or.inl ⟨hk, ms, yields_call.mp hms, rfl⟩
  · rw [if_neg Bool.false_ne_true] at hrest
    exact Or.inr (yields_pure.mp hrest)

/-- The tokens of names, with commas between them. -/
theorem names_yields (hs : s.Reading source) (h : (separated .comma .name).Yields s ns t) :
    ∃ ts, s.Consumes source ts t ∧ ∀ part ∈ ts, part.kind ∈ .comma :: TokenKind.nameParts := by
  induction ns generalizing s with
  | nil =>
    obtain ⟨_, _, _, ⟨_, _, _, hns⟩ | ⟨hns, _⟩⟩ := separated_step h
    · cases hns
    · cases hns
  | cons n ns ih =>
    obtain ⟨_, u, hn, hrest⟩ := separated_step h
    obtain ⟨ts, v, _, _, _, hts, _, hend, hparts, _⟩ := name_yields hs (yields_call.mp hn)
    have hfirst : s.Consumes source ts u := hts.sameEnd hend
    have hparts : ∀ part ∈ ts, part.kind ∈ .comma :: TokenKind.nameParts := fun part hpart =>
      List.mem_cons_of_mem _ (hparts part hpart)
    rcases hrest with ⟨hk, ms, hms, e⟩ | ⟨_, rfl⟩
    · obtain ⟨rfl, rfl⟩ := List.cons.inj e
      have hcomma := ParseState.Consumes.advance hfirst.reading (by simp [hk]) (by simp [hk])
      obtain ⟨us, hus, hmore⟩ := ih hcomma.reading hms
      refine ⟨_, (hfirst.trans hcomma).trans hus, fun part hpart => ?_⟩
      rcases List.mem_append.mp hpart with hpart | hpart
      · rcases List.mem_append.mp hpart with hpart | hpart
        · exact hparts part hpart
        · rw [List.mem_singleton.mp hpart]
          exact List.mem_cons.mpr (Or.inl hk)
      · exact hmore part hpart
    · exact ⟨ts, hfirst, hparts⟩

/-- The use of traits with a group of braces is made of the tokens in front of the group and
those of the group, and keeps the text of the group. -/
theorem traitUse_keeps (hs : s.Reading source) (ho : s.stream.options = o.effective)
    (hk : s.kind = .kwUse) (h : traitUse.Yields s n t) {text : String}
    (hn : n.production.adaptations? = some text) :
    n.KeepsGroup source (grammarTokens o source) text ∧
      n.span.behind (grammarTokens o source) = t.stream.pending := by
  have hk : s.openNode.2.kind = .kwUse := hk
  have hkeyword := ParseState.Consumes.advance (s := s.openNode.2) (hs.same rfl) (by simp [hk])
    (by simp [hk])
  rw [traitUse, yields_openNode_bind, yields_advance_bind] at h
  obtain ⟨names, u, hnames, h⟩ := yields_bind.mp h
  obtain ⟨ts, hts, hparts⟩ := names_yields hkeyword.reading hnames
  rw [yields_isAt_bind] at h
  split at h
  · next hbrace =>
    have hbrace : u.kind = .lBrace := of_decide_eq_true hbrace
    rw [yields_read_bind] at h
    obtain ⟨_, v, hv, h⟩ := yields_bind.mp h
    obtain ⟨group, last, hgroup, hbraces, htext⟩ :=
      group_yields hts.reading hbrace (yields_call.mp hv)
    rw [yields_read_bind] at h
    obtain ⟨hproduction, hspan⟩ := finish_yields h
    obtain ⟨_, rfl⟩ := yields_finish.mp h
    rw [hproduction] at hn
    cases hn
    have hwhole : s.Consumes source ((s.stream.current :: ts) ++ group) v :=
      ((hkeyword.trans hts).trans hgroup).same rfl
    obtain ⟨hinside, hbehind⟩ := hwhole.inside hs ho (List.cons_ne_nil _ _)
    rw [Node.KeepsGroup, hspan]
    refine ⟨⟨s.stream.current :: ts, group, u.stream.current, last, hinside, ?_, hbraces, htext⟩,
      hbehind⟩
    intro part hpart e
    rcases List.mem_cons.mp hpart with rfl | hpart
    · rw [show s.stream.current.kind = .kwUse from hk] at e
      cases e
    · have hmem := hparts part hpart
      rw [e] at hmem
      exact absurd hmem (by decide)
  · obtain ⟨_, v, _, h⟩ := yields_bind.mp h
    rw [(finish_yields h).1] at hn
    cases hn

end Grammar
end PhpSyntax
