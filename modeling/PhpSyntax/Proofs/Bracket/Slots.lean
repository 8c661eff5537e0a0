/-
The places of a list.

The tokens between the marks of a list, cut at the commas that no bracket, brace or parenthesis
inside encloses, are its slots (`Token.slots`).  An entry closes what it opens, and no comma in it
stands by itself if its classes have names, so what it reads is one slot.  Where a place is
skipped the slot is empty.  By induction on the items they fill the slots in their order
(`entries_slots`), and so do the items of each list of a program (`list_slots`).
-/
import PhpSyntax.Proofs.Bracket.Run
import PhpSyntax.Proofs.Span.Names

namespace PhpSyntax

/-! ## Tokens of quiet parts -/

/-- What is quiet and leaves nothing open does not end with a mark that separates. -/
theorem Nests.getLast_kind {awaited : List TokenKind} {ts : List Token} {last : Token}
    (h : Nests True awaited ts []) (hlast : ts.getLast? = some last) :
    last.kind ∉ TokenKind.stops := by
  generalize hrest : ([] : List TokenKind) = rest at h
  induction h with
  | nil => cases hlast
  | @cons awaited rest t ts _ hempty h ih =>
    cases ts with
    | nil =>
      obtain rfl : t = last := Option.some.inj hlast
      intro hk
      have hnest : t.kind.nest awaited = [] := by
        cases h
        exact hrest.symm
      rw [TokenKind.nest_of_mem_stops hk] at hnest
      exact (hempty hnest).2 trivial hk
    | cons u ts =>
      rw [List.getLast?_cons_cons] at hlast
      exact ih hlast hrest

namespace ParseState

variable {source : String} {s t : ParseState} {ts : List Token}

theorem Consumes.of_spends (hs : s.Reading source) (h : s.stream.Spends ts t.stream)
    (hlast : ∀ last, ts.getLast? = some last → last.kind ≠ .semicolon) :
    s.Consumes source ts t where
  reading := hs.leads h.leads
  options := h.leads.options
  pending := h.pending hs.sound
  prev := by
    cases hts : ts.getLast? with
    | none => exact h.prev.1 (List.getLast?_eq_none_iff.mp hts)
    | some last => exact h.prev.2 last hts (hlast last hts)

/-- What a quiet part consumes where nothing is awaited. -/
theorem Consumes.of_course (hs : s.Reading source) (h : s.stream.Course [] True False t.stream)
    (hk : t.kind ≠ .eof) :
    ∃ ts, s.Consumes source ts t ∧ Nests True [] ts [] ∧ ts ≠ [] := by
  obtain ⟨ts, hspends, hnests, hmoved⟩ := h.tokens hk
  refine ⟨ts, .of_spends hs hspends fun last hlast => ?_, hnests, hmoved.resolve_left id⟩
  exact fun e => hnests.getLast_kind hlast (by simp [e, TokenKind.stops])

end ParseState

/-! ## Items in slots -/

/-- What stands in a slot of a list: nothing in an empty one, and an entry made of the tokens of
the slot in another. -/
def Node.Occupies (tokens slot : List Token) (n : Node) : Prop :=
  (slot = [] ∧ n.production = .noop) ∨
    (slot ≠ [] ∧ (∃ key value unpack, n.production = .entry key value unpack) ∧
      n.span.inside tokens = slot)

namespace Node.Occupies

variable {tokens slot : List Token} {n : Node}

theorem mapInfo {g : NodeInfo → NodeInfo} (h : n.Occupies tokens slot)
    (hg : ∀ info, (g info).span = info.span) : (Node.mapInfo g n).Occupies tokens slot := by
  rcases h with ⟨hslot, hp⟩ | ⟨hslot, ⟨key, value, unpack, hp⟩, hinside⟩
  · exact Or.inl ⟨hslot, by rw [production_mapInfo, hp]; rfl⟩
  · exact Or.inr ⟨hslot, ⟨_, _, _, by rw [production_mapInfo, hp]; rfl⟩,
      (span_mapInfo hg n).symm ▸ hinside⟩

theorem asPattern (h : n.Occupies tokens slot) : n.asPattern.Occupies tokens slot := by
  obtain ⟨info, p⟩ := n
  rcases h with ⟨hslot, hp⟩ | ⟨hslot, ⟨key, value, unpack, hp⟩, hinside⟩
  · obtain rfl : p = .noop := hp
    exact Or.inl ⟨hslot, rfl⟩
  · obtain rfl : p = .entry key value unpack := hp
    exact Or.inr ⟨hslot, ⟨_, _, _, rfl⟩, hinside⟩

end Node.Occupies

/-- The tokens of a list of which the first is of the kind `lead`: behind the marks that open it
are its slots, which the items fill one by one, and the mark that closes it. -/
def Node.FillSlots (tokens inside : List Token) (lead : TokenKind) (shortform : Bool)
    (items : List Node) : Prop :=
  ∃ front body close, inside = front ++ (body ++ [close]) ∧
    front.map Token.kind = lead :: (if shortform then [] else [.lParen]) ∧
    close.kind = (if shortform then .rBracket else .rParen) ∧
    List.Forall₂ (Node.Occupies tokens) (Token.slots body) items

theorem Node.FillSlots.map {tokens inside : List Token} {lead : TokenKind} {shortform : Bool}
    {items : List Node} {f : Node → Node} (h : FillSlots tokens inside lead shortform items)
    (hf : ∀ slot n, n.Occupies tokens slot → (f n).Occupies tokens slot) :
    FillSlots tokens inside lead shortform (items.map f) := by
  obtain ⟨front, body, close, hinside, hfront, hclose, hslots⟩ := h
  refine ⟨front, body, close, hinside, hfront, hclose, ?_⟩
  exact List.forall₂_map_right_iff.mpr (hslots.imp hf)

namespace Grammar
open PhpSyntax.Parser

variable {source : String} {o : Options} {s t : ParseState} {n : Node} {ns : List Node}
  {close : TokenKind} {isPattern : Bool}

theorem finish_yields {opened : Opened} {q : Production Node}
    (h : (finish opened q).Yields s n t) :
    n.production = q ∧ n.span = (t.finishNode opened).1.span := by
  obtain ⟨rfl, rfl⟩ := yields_finish.mp h
  exact ⟨rfl, rfl⟩

/-- The span of an entry is all that its rule reads. -/
theorem entry_yields (h : (entry isPattern).Yields s n t) :
    (∃ key value unpack, n.production = .entry key value unpack) ∧
      n.span = (t.finishNode s.openNode.1).1.span := by
  have hend {key : Option Node} {value : Node} {unpack : Bool} {u : ParseState}
      (h : (finish s.openNode.1 (.entry key value unpack)).Yields u n t) :
      (∃ key value unpack, n.production = .entry key value unpack) ∧
        n.span = (t.finishNode s.openNode.1).1.span :=
    ⟨⟨key, value, unpack, (finish_yields h).1⟩, (finish_yields h).2⟩
  rw [entry, yields_openNode_bind, yields_isAt_bind] at h
  split at h
  · obtain ⟨_, _, _, h⟩ := yields_bind.mp h
    obtain ⟨_, _, _, h⟩ := yields_bind.mp h
    obtain ⟨_, _, _, h⟩ := yields_bind.mp h
    exact hend h
  · obtain ⟨_, _, _, h⟩ := yields_bind.mp h
    obtain ⟨value, _, _, h⟩ := yields_bind.mp h
    cases value with
    | some | none => exact hend h

/-- In front of entries there is the mark that closes them, a comma where a place is skipped, or
an entry. -/
theorem entries_begin (hs : s.tolerates = false) (h : (entries close isPattern).Yields s ns t) :
    (s.kind = close ∧ ns = [] ∧ t = s.advance) ∨
      ∃ n ms u, ns = n :: ms ∧
        ((s.kind = .comma ∧ (finish s.openNode.1 .noop).Yields s.openNode.2 n u ∧
            (entries close isPattern).Yields u.advance ms t) ∨
          ((entry isPattern).Yields s n u ∧
            ((u.kind = .comma ∧ (entries close isPattern).Yields u.advance ms t) ∨
              ((require close).Yields u () t ∧ ms = [])))) := by
  by_cases hk : s.kind = close
  · exact Or.inl ⟨hk, (yields_entries_nil hs hk).mp h⟩
  have heof : s.kind ≠ .eof := fun heof => not_yields_entries hs hk heof h
  refine Or.inr ?_
  by_cases hskip : isPattern = true ∧ s.kind = .comma
  · obtain ⟨rfl, hcomma⟩ := hskip
    obtain ⟨n, u, ms, hn, hms, rfl⟩ := (yields_entries_skip hk hcomma).mp h
    exact ⟨n, ms, u, rfl, Or.inl ⟨hcomma, hn, hms⟩⟩
  · have hentry : (isPattern && decide (s.kind = .comma)) = false := by
      rw [Bool.and_eq_false_iff, decide_eq_false_iff_not, ← Bool.not_eq_true]
      exact not_and_or.mp hskip
    obtain ⟨n, u, hn, ⟨hu, ms, hms, rfl⟩ | ⟨_, ht, rfl⟩⟩ :=
      (yields_entries_cons hk heof hentry).mp h
    · exact ⟨n, ms, u, rfl, Or.inr ⟨hn, Or.inl ⟨hu, hms⟩⟩⟩
    · exact ⟨n, [], u, rfl, Or.inr ⟨hn, Or.inr ⟨ht, rfl⟩⟩⟩

/-- An entry reads a slot. -/
theorem entry_slot (hs : s.Reading source) (ho : s.stream.options = o.effective)
    (h : (entry isPattern).Yields s n t) (hn : n.NamesClasses) (hk : t.kind ≠ .eof) :
    ∃ ts, s.Consumes source ts t ∧ Nests True [] ts [] ∧ ts ≠ [] ∧
      n.Occupies (grammarTokens o source) ts := by
  have hcourse := (entry_balances.of_yields hs.isStrict h).1
  obtain ⟨ts, hts, hnests, hne⟩ := ParseState.Consumes.of_course hs
    (hcourse.mono (fun _ => hn) id) hk
  obtain ⟨hentry, hspan⟩ := entry_yields h
  refine ⟨ts, hts, hnests, hne, Or.inr ⟨hne, hentry, ?_⟩⟩
  rw [hspan]
  exact (hts.inside hs ho hne).1

/-- The items of an array or a list fill the slots in front of the mark that closes it. -/
theorem entries_slots (hs : s.Reading source) (ho : s.stream.options = o.effective)
    (hclose : close ∈ TokenKind.closing) (h : (entries close isPattern).Yields s ns t)
    (hns : ∀ n ∈ ns, n.NamesClasses) :
    ∃ body last, s.Consumes source (body ++ [last]) t ∧ last.kind = close ∧
      List.Forall₂ (Node.Occupies (grammarTokens o source)) (Token.slots body) ns := by
  have hplain : close ≠ .eof ∧ close ≠ .semicolon := by
    have hall : ∀ k ∈ TokenKind.closing, k ≠ .eof ∧ k ≠ .semicolon := by decide
    exact hall close hclose
  -- the mark that closes the entries
  have hlast {u : ParseState} (hu : u.Reading source) (hk : u.kind = close) :
      u.Consumes source [u.stream.current] u.advance :=
    .advance hu (hk ▸ hplain.1) (hk ▸ hplain.2)
  have hcomma {u : ParseState} (hu : u.Reading source) (hk : u.kind = .comma) :
      u.Consumes source [u.stream.current] u.advance :=
    .advance hu (by simp [hk]) (by simp [hk])
  induction ns generalizing s with
  | nil =>
    obtain ⟨hk, -, rfl⟩ | ⟨_, _, _, hcons, _⟩ := entries_begin hs.strict h
    · exact ⟨[], s.stream.current, hlast hs hk, hk, .nil⟩
    · cases hcons
  | cons n ns ih =>
    obtain ⟨_, hcons, _⟩ | ⟨_, _, u, hcons, h⟩ := entries_begin hs.strict h
    · cases hcons
    cases hcons
    obtain ⟨hn, hrest⟩ := List.forall_mem_cons.mp hns
    rcases h with ⟨hk, hnoop, h⟩ | ⟨hentry, ⟨hk, h⟩ | ⟨hrequire, rfl⟩⟩
    · obtain ⟨rfl, rfl⟩ := yields_finish.mp hnoop
      have hskip := hcomma (u := (s.openNode.2.finishNode s.openNode.1).2)
        (hs.same rfl) hk
      obtain ⟨body, last, hbody, hend, hslots⟩ := ih hskip.reading ho h hrest
      refine ⟨s.stream.current :: body, last, (hskip.trans hbody).same rfl, hend, ?_⟩
      have hcut : Token.slots (s.stream.current :: body) = [] :: Token.slots body :=
        Token.slots_comma .nil hk body
      rw [hcut]
      exact .cons (Or.inl ⟨rfl, rfl⟩) hslots
    · obtain ⟨ts, hts, hnests, hne, hfills⟩ := entry_slot hs ho hentry hn (by simp [hk])
      have hsep := hcomma hts.reading hk
      obtain ⟨body, last, hbody, hend, hslots⟩ := ih hsep.reading (hts.options.trans ho) h hrest
      refine ⟨ts ++ u.stream.current :: body, last, ?_, hend, ?_⟩
      · simpa using hts.trans (hsep.trans hbody)
      · rw [Token.slots_comma hnests hk]
        exact .cons hfills hslots
    · have hu : u.Reading source := hs.leads (entry_balances.of_yields hs.isStrict hentry).1.leads
      obtain ⟨hk, rfl⟩ := (yields_require hu.strict).mp hrequire
      obtain ⟨ts, hts, hnests, hne, hfills⟩ :=
        entry_slot hs ho hentry hn (hk ▸ hplain.1)
      refine ⟨ts, u.stream.current, hts.trans (hlast hu hk), hk, ?_⟩
      rw [Token.slots_last hnests hne]
      exact .cons hfills .nil

/-! ## The marks around the items -/

/-- The tokens in front of the items of an array or a list. -/
theorem openEntries_yields (hs : s.Reading source) (heof : s.kind ≠ .eof)
    (hk : s.kind ≠ .semicolon) {shortform : Bool} (h : (openEntries shortform).Yields s close t) :
    ∃ front, s.Consumes source front t ∧
      front.map Token.kind = s.kind :: (if shortform then [] else [.lParen]) ∧
      close = if shortform then .rBracket else .rParen := by
  have hfirst := ParseState.Consumes.advance hs heof hk
  rw [openEntries, yields_advance_bind] at h
  cases shortform with
  | true =>
    obtain ⟨rfl, rfl⟩ := yields_pure.mp h
    exact ⟨_, hfirst, rfl, rfl⟩
  | false =>
    obtain ⟨_, u, hopen, h⟩ := yields_bind.mp h
    obtain ⟨hparen, rfl⟩ := (yields_require hfirst.reading.strict).mp hopen
    obtain ⟨rfl, rfl⟩ := yields_pure.mp h
    have hsecond := ParseState.Consumes.advance hfirst.reading (by simp [hparen]) (by simp [hparen])
    refine ⟨_, hfirst.trans hsecond, ?_, rfl⟩
    show [s.kind, s.advance.kind] = [s.kind, .lParen]
    rw [hparen]

/-- An array or a list has slots between its marks, which its items fill. -/
theorem collection_slots (make : List Node → Bool → Production Node) (hs : s.Reading source)
    (ho : s.stream.options = o.effective) (hk : s.kind ∈ [.kwArray, .kwList, .lBracket])
    (h : Parser.Yields (do
      let opened ← openNode
      let shortform ← isAt .lBracket
      let close ← openEntries shortform
      let items ← call (.entries close isPattern)
      finish opened (make items shortform)) s n t) :
    ∃ items, n.production = make items (decide (s.kind = .lBracket)) ∧
      ((∀ m ∈ items, m.NamesClasses) → Node.FillSlots (grammarTokens o source)
        (n.span.inside (grammarTokens o source)) s.kind (decide (s.kind = .lBracket)) items) := by
  have hplain : s.kind ≠ .eof ∧ s.kind ≠ .semicolon := by
    have hall : ∀ k ∈ [TokenKind.kwArray, .kwList, .lBracket], k ≠ .eof ∧ k ≠ .semicolon := by
      decide
    exact hall _ hk
  rw [yields_openNode_bind, yields_isAt_bind] at h
  obtain ⟨close, u, hopen, h⟩ := yields_bind.mp h
  obtain ⟨items, v, hitems, h⟩ := yields_bind.mp h
  obtain ⟨hproduction, hspan⟩ := finish_yields h
  obtain ⟨_, rfl⟩ := yields_finish.mp h
  refine ⟨items, hproduction, fun hnames => ?_⟩
  obtain ⟨front, hfront, hkinds, rfl⟩ := openEntries_yields (s := s.openNode.2)
    (hs.same rfl) hplain.1 hplain.2 hopen
  obtain ⟨body, last, hbody, hlast, hslots⟩ := entries_slots hfront.reading
    (hfront.options.trans ho) (by split <;> decide) (yields_call.mp hitems) hnames
  have hwhole : s.Consumes source (front ++ (body ++ [last])) v := (hfront.trans hbody).same rfl
  refine ⟨front, body, last, ?_, hkinds, hlast, hslots⟩
  rw [hspan]
  exact (hwhole.inside hs ho (by simp)).1

variable {items : List Node} {shortform : Bool}

/-- A list that the rule for patterns yields. -/
theorem listPattern_slots (hs : s.Reading source) (ho : s.stream.options = o.effective)
    (hk : s.kind ∈ [.kwList, .lBracket]) (h : listPattern.Yields s n t)
    (hp : n.production = .list items shortform) (hnames : ∀ m ∈ items, m.NamesClasses) :
    Node.FillSlots (grammarTokens o source) (n.span.inside (grammarTokens o source))
      (if shortform then .lBracket else .kwList) shortform items := by
  obtain ⟨entries, hproduction, hslots⟩ := collection_slots .list hs ho
    (List.mem_cons_of_mem _ hk) h
  rw [hp] at hproduction
  cases hproduction
  have hlead : s.kind = if decide (s.kind = .lBracket) then .lBracket else .kwList := by
    rcases List.mem_pair.mp hk with e | e
    · rw [e]
      rfl
    · rw [e]
      rfl
  rw [← hlead]
  exact hslots hnames

/-- An array that is read as a list. -/
theorem arrayLiteral_slots (hs : s.Reading source) (ho : s.stream.options = o.effective)
    (hk : s.kind ∈ [.kwArray, .lBracket]) (h : arrayLiteral.Yields s n t)
    (hp : n.asPattern.production = .list items shortform)
    (hnames : ∀ m ∈ items, m.NamesClasses) :
    Node.FillSlots (grammarTokens o source) (n.asPattern.span.inside (grammarTokens o source))
      (if shortform then .lBracket else .kwList) shortform items := by
  obtain ⟨entries, hproduction, hslots⟩ := collection_slots .array hs ho
    (by rcases List.mem_pair.mp hk with e | e <;> simp [e]) h
  obtain ⟨info, q⟩ := n
  obtain rfl : q = .array entries (decide (s.kind = .lBracket)) := hproduction
  have hp : (Production.array entries (decide (s.kind = .lBracket))).asPattern =
    .list items shortform := hp
  by_cases hbracket : s.kind = .lBracket
  · rw [decide_eq_true hbracket] at hp hslots
    rw [hbracket] at hslots
    have hlist : Production.list (entries.map Node.asPattern) true = .list items shortform := by
      rw [← Node.allAsPattern_eq]
      exact hp
    cases hlist
    refine (hslots fun m hm => ?_).map fun _ _ hone => hone.asPattern
    exact Node.namesClasses_asPattern.mp (hnames _ (List.mem_map_of_mem hm))
  · rw [decide_eq_false hbracket] at hp
    cases hp

end Grammar

/-! ## Programs -/

open Grammar PhpSyntax.Parser in
/-- In strict mode the items of a list fill the slots between its marks, one by one, if every
class in it has a name: nothing is in an empty slot, and in another there is an entry whose tokens
are those of the slot. -/
theorem list_slots {source : String} {fileName : Option String} {o : Options} {p : Program}
    (h : parse source fileName o = .ok p) (hs : o.suppressErrors = false) :
    ∀ n ∈ p.tree, ∀ items shortform, n.production = .list items shortform → n.NamesClasses →
      Node.FillSlots (grammarTokens o source) (n.span.inside (grammarTokens o source))
        (if shortform then .lBracket else .kwList) shortform items := by
  intro n hn items shortform hp hnames
  have hitems : ∀ m ∈ items, m.NamesClasses := by
    have hchildren := (Node.namesClasses_iff.mp hnames).2
    rw [Node.children, hp] at hchildren
    simpa [Production.children, Production.fields, Field.children] using hchildren
  obtain ⟨g, hg, maker, hmaker, k, s, t, hreading, ho, hkind, hyields, hproduction, hspan⟩ :=
    parse_read h hs hn (by simp [hp, Production.makers])
  rw [hp] at hmaker hproduction
  obtain ⟨entries, hk, rfl⟩ : ∃ entries, k.production = .list entries shortform ∧
      items = entries.map (Node.mapInfo g) := by
    cases hk : k.production with
    | list entries short =>
      rw [hk] at hproduction
      cases hproduction
      exact ⟨entries, rfl, rfl⟩
    | _ =>
      rw [hk] at hproduction
      cases hproduction
  have hentries : ∀ m ∈ entries, m.NamesClasses := fun m hm =>
    (Node.namesClasses_mapInfo g).mp (hitems _ (List.mem_map_of_mem hm))
  rw [hspan]
  refine Node.FillSlots.map ?_ fun _ _ hone => hone.mapInfo hg
  rcases List.mem_pair.mp hmaker with rfl | rfl
  · exact listPattern_slots hreading ho hkind hyields hk hentries
  · obtain ⟨m, _, hm, hpattern⟩ := yields_bind.mp hyields
    obtain ⟨rfl, rfl⟩ := yields_pure.mp hpattern
    exact arrayLiteral_slots hreading ho hkind hm hk hentries

def Production.shortItems? : Production Node → Option (List Node)
  | .list items true => some items
  | _ => none

theorem Production.shortItems?_eq_some {production : Production Node} {items : List Node}
    (h : production.shortItems? = some items) : production = .list items true := by
  unfold shortItems? at h
  split at h
  · cases h
    rfl
  · cases h

/-- Places are skipped in front and in the middle, and nothing is behind the last comma. -/
theorem list_slots_skipped :
    ∃ p, parse "<?php foreach ($a as [, $b, , 1 => [$c, $d],]) ;" none {} = .ok p ∧
      ∃ n ∈ p.tree, ∃ items, n.production = .list items true ∧
        items.map (·.production.title) = ["Noop", "Entry", "Noop", "Entry"] ∧ n.NamesClasses ∧
        Node.FillSlots (grammarTokens {} "<?php foreach ($a as [, $b, , 1 => [$c, $d],]) ;")
          (n.span.inside (grammarTokens {} "<?php foreach ($a as [, $b, , 1 => [$c, $d],]) ;"))
          .lBracket true items := by
  have hrun : ((parse "<?php foreach ($a as [, $b, , 1 => [$c, $d],]) ;" none {}).toOption.any
      fun p => p.tree.any fun n =>
        (n.production.shortItems?.any fun items =>
          decide (items.map (·.production.title) = ["Noop", "Entry", "Noop", "Entry"])) &&
        n.walk.all fun m => !m.production.isAnonymous) = true := by
    rw [parse_eq, statementsFrom_eq]
    decide +kernel
  obtain ⟨p, hp, hany⟩ := parse_of_any hrun
  obtain ⟨n, hn, hboth⟩ := List.any_eq_true.mp hany
  obtain ⟨hlist, hwalk⟩ := Bool.and_eq_true_iff.mp hboth
  have hnames : n.NamesClasses := fun m hm => by
    simpa using List.all_eq_true.mp hwalk m hm
  obtain ⟨items, hitems, htitles⟩ := (Option.any_eq_true _ _).mp hlist
  have hproduction := Production.shortItems?_eq_some hitems
  exact ⟨p, hp, n, hn, items, hproduction, of_decide_eq_true htitles, hnames,
    list_slots hp rfl n hn items true hproduction hnames⟩

end PhpSyntax
