/-
Where a part of a body leads.

In strict mode the tokens that a part of a body consumes lead from the marks that are awaited in
front of it to none (`Stream.Course`).  A part that awaits nothing may stand in front of one that
awaits something, since what it opens it closes again (`Stream.Course.trans`).  Most parts are
quiet.  Only a class without a name has commas in it that nothing encloses, so the passage to a
node is quiet if every class in the node has a name (`Node.NamesClasses`).
-/
import PhpSyntax.Proofs.Bracket.Nest
import PhpSyntax.Proofs.Grammar.Literal
import PhpSyntax.Proofs.Node.MapInfo
import PhpSyntax.Proofs.Stream.Pending

namespace PhpSyntax

/-! ## Classes without names -/

namespace Production

def isAnonymous {α : Type} : Production α → Bool
  | .class _ _ _ _ _ _ isAnonymous => isAnonymous
  | _ => false

theorem isAnonymous_map {α β : Type} (f : α → β) (p : Production α) :
    (p.map f).isAnonymous = p.isAnonymous := by
  cases p <;> rfl

theorem asPattern_isAnonymous (p : Production Node) : p.asPattern.isAnonymous = p.isAnonymous := by
  cases p with
  | array items shortform => cases shortform <;> rfl
  | _ => rfl

end Production

namespace Node

variable {n : Node}

def NamesClasses (n : Node) : Prop := ∀ m ∈ n.walk, m.production.isAnonymous = false

theorem namesClasses_iff :
    n.NamesClasses ↔ n.production.isAnonymous = false ∧ ∀ m ∈ n.children, m.NamesClasses := by
  rw [NamesClasses, walk_eq, List.forall_mem_cons]
  simp only [List.mem_flatMap, NamesClasses]
  exact and_congr_right fun _ => ⟨fun h m hm k hk => h k ⟨m, hm, hk⟩,
    fun h k ⟨m, hm, hk⟩ => h m hm k hk⟩

theorem namesClasses_mapInfo (g : NodeInfo → NodeInfo) :
    (Node.mapInfo g n).NamesClasses ↔ n.NamesClasses := by
  rw [NamesClasses, NamesClasses, walk_mapInfo, List.forall_mem_map]
  simp only [mapInfo_eq, Production.isAnonymous_map]

theorem namesClasses_asPattern : n.asPattern.NamesClasses ↔ n.NamesClasses := by
  induction n using Node.induction with
  | step n ih =>
    have hown : n.asPattern.production.isAnonymous = n.production.isAnonymous := by
      obtain ⟨info, p⟩ := n
      exact p.asPattern_isAnonymous
    have hbelow : n.asPattern.children.map NamesClasses = n.children.map NamesClasses := by
      rw [asPattern_children]
      exact n.production.asPattern_children NamesClasses fun m hm => propext (ih m hm)
    have hall (ms : List Node) :
        (∀ m ∈ ms, m.NamesClasses) ↔ ∀ q ∈ ms.map NamesClasses, q :=
      (List.forall_mem_map (P := id)).symm
    rw [namesClasses_iff, namesClasses_iff (n := n), hown, hall, hall, hbelow]

end Node

/-! ## Streams -/

namespace Stream

/-- The tokens are consumed on the way from one place to another. -/
inductive Spends : Stream → List Token → Stream → Prop
  | nil {s : Stream} : Spends s [] s
  | cons {s t : Stream} {ts : List Token} (hk : s.current.kind ≠ .eof) (h : Spends s.advance ts t) :
    Spends s (s.current :: ts) t

variable {s t u : Stream} {ts us : List Token} {awaited : List TokenKind}
  {quiet moved calm still : Prop}

namespace Spends

theorem trans (h : s.Spends ts t) (h' : t.Spends us u) : s.Spends (ts ++ us) u := by
  induction h with
  | nil => exact h'
  | cons hk _ ih => exact .cons hk (ih h')

theorem of_cons {first : Token} (h : s.Spends (first :: ts) t) :
    first = s.current ∧ s.current.kind ≠ .eof ∧ s.advance.Spends ts t := by
  cases h with
  | cons hk h => exact ⟨rfl, hk, h⟩

theorem pending (h : s.Spends ts t) (hs : s.Sound) : s.pending = ts ++ t.pending := by
  induction h with
  | nil => rfl
  | cons hk _ ih => rw [pending_advance hs hk, ih (advance_sound hs), List.cons_append]

theorem leads (h : s.Spends ts t) : s.Leads t := by
  induction h with
  | nil => exact .refl
  | cons hk _ ih => exact .head (.advance hk) ih

/-- The boundary is behind the last token, unless that ends a statement. -/
theorem prev (h : s.Spends ts t) :
    (ts = [] → t.prev = s.prev) ∧
      ∀ last, ts.getLast? = some last → last.kind ≠ .semicolon → t.prev = last.stop := by
  induction h with
  | nil => exact ⟨fun _ => rfl, nofun⟩
  | @cons s t ts hk _ ih =>
    refine ⟨nofun, fun last hlast hne => ?_⟩
    cases ts with
    | nil =>
      obtain rfl : s.current = last := Option.some.inj hlast
      rw [ih.1 rfl]
      have htag : s.atTag = false := by simp [atTag, hne]
      simp [advance, htag]
    | cons t ts =>
      rw [List.getLast?_cons_cons] at hlast
      exact ih.2 last hlast hne

theorem offset_lt (h : s.Spends ts t) (hs : s.Sound) (hf : s.Filled) (hne : ts ≠ []) :
    s.current.start.offset < t.current.start.offset := by
  rcases h.leads.forward hs hf with rfl | ⟨_, hlt⟩
  · have hpending := h.pending hs
    exact absurd (List.self_eq_append_left.mp hpending) hne
  · exact hlt

end Spends

/-- What is read from `s` to `t` closes the marks that are `awaited`, unless it reaches the end.
Some token is read if nothing has `moved` in front of it. -/
structure Course (s : Stream) (awaited : List TokenKind) (quiet moved : Prop) (t : Stream) :
    Prop where
  leads : s.Leads t
  tokens : t.current.kind ≠ .eof →
    ∃ ts, s.Spends ts t ∧ Nests quiet awaited ts [] ∧ (moved ∨ ts ≠ [])

namespace Course

theorem here (h : moved) : s.Course [] quiet moved s :=
  ⟨.refl, fun _ => ⟨[], .nil, .nil, Or.inl h⟩⟩

theorem mono (h : s.Course awaited quiet moved t) (hq : calm → quiet) (hm : moved → still) :
    s.Course awaited calm still t := by
  refine ⟨h.leads, fun hk => ?_⟩
  obtain ⟨ts, hspends, hnests, hmoved⟩ := h.tokens hk
  exact ⟨ts, hspends, hnests.mono hq, hmoved.imp_left hm⟩

/-- What is read behind one token. -/
theorem cons (h : s.advance.Course (s.current.kind.nest awaited) quiet True t)
    (hk : s.current.kind ≠ .eof) (hbrace : s.current.kind = .rBrace → .rBrace ∈ awaited)
    (hempty : awaited = [] → s.current.kind ∉ TokenKind.closing ∧
      (quiet → s.current.kind ∉ TokenKind.stops)) : s.Course awaited quiet moved t := by
  refine ⟨.head (.advance hk) h.leads, fun hne => ?_⟩
  obtain ⟨ts, hspends, hnests, _⟩ := h.tokens hne
  exact ⟨_, .cons hk hspends, .cons hbrace hempty hnests, Or.inr (List.cons_ne_nil _ _)⟩

/-- What is read behind a part that closes what is awaited there. -/
theorem trans {inner : List TokenKind} (h : s.Course inner quiet moved t)
    (h' : t.Course awaited calm still u) (hq : calm → awaited = [] → quiet) :
    s.Course (inner ++ awaited) calm (moved ∧ still) u := by
  refine ⟨h.leads.trans h'.leads, fun hne => ?_⟩
  obtain ⟨ts, hts, hnests, hmoved⟩ := h.tokens fun hk => hne (h'.leads.atEnd hk)
  obtain ⟨us, hus, hnests', hstill⟩ := h'.tokens hne
  refine ⟨ts ++ us, hts.trans hus, ?_, ?_⟩
  · exact ((hnests.around awaited).mono hq).append hnests'
  · by_cases hempty : ts = [] ∧ us = []
    · exact Or.inl ⟨hmoved.resolve_right fun h => h hempty.1,
        hstill.resolve_right fun h => h hempty.2⟩
    · exact Or.inr fun e => hempty (List.append_eq_nil_iff.mp e)

/-- Where the code ends nothing is asked of what was read. -/
theorem halt : s.Course awaited quiet moved s.halt.2 :=
  ⟨.single .halt, fun hk => absurd rfl hk⟩

end Course
end Stream
end PhpSyntax
