/-
Members behind a group of braces.

A class, an interface or a trait ends with the brace behind its members (`HasBody`), and the
rule for members reads them one by one, with nothing in between (`members_split`).  Each of them
starts at the token that is current where its rule is asked for (`member_yields`).  So behind
the use of traits with a group of braces the next member starts at the token right behind the
group, and where there is no other member that token is the brace at the end.
-/
import PhpSyntax.Proofs.Bracket.Group

namespace PhpSyntax

namespace Grammar
open PhpSyntax.Parser

variable {source : String} {o : Options} {s t : ParseState} {n : Node} {ns : List Node}
  {opened : Opened} {m : Modifiers}

/-! ## One member -/

structure IsOther (opened : Opened) (n : Node) : Prop where
  start : n.span.start = opened.start
  other : n.production.isTraitUse = false

theorem finish_isOther {p : Production Node} (h : p.isTraitUse = false) :
    Gives (finish opened p) (IsOther opened) := fun _ => ⟨rfl, h⟩

theorem propertyStatement_isOther : Gives (propertyStatement opened m) (IsOther opened) := by
  have hrest (type : Option Node) (nullable : Bool) :
      Gives (separated .comma .property >>= fun properties => endStatement >>= fun _ =>
        finish opened (.propertyStatement properties m type nullable)) (IsOther opened) :=
    .last fun _ => .last fun _ => finish_isOther rfl
  exact .last fun _ => .ite (hrest none false)
    (.last fun _ => .last fun _ => .last fun type => hrest (some type) _)

theorem classConstant_isOther : Gives (classConstant opened m) (IsOther opened) :=
  .last fun _ => .last fun _ => .last fun _ => finish_isOther rfl

theorem method_isOther : Gives (method opened m) (IsOther opened) := by
  have hrest (name : Node) (byRef : Bool) :
      Gives (parameters >>= fun arguments => returnType >>= fun r => isAt .semicolon >>= fun b =>
        if b = true then endStatement >>= fun _ =>
          finish opened (.method name arguments byRef r.1 r.2 none m)
        else block >>= fun body =>
          finish opened (.method name arguments byRef r.1 r.2 (some body) m)) (IsOther opened) := by
    refine .last fun _ => .last fun _ => .last fun _ => .ite ?_ ?_
    · exact .last fun _ => finish_isOther rfl
    · exact .last fun _ => finish_isOther rfl
  exact .last fun _ => .last fun _ => .last fun _ =>
    .ite (.last fun name => hrest name _) (.last fun name => hrest name _)

/-- In strict mode some member follows modifiers. -/
theorem memberAfter_isOther (hs : s.tolerates = false) (h : (memberAfter opened m).Yields s n t) :
    IsOther opened n := by
  rw [memberAfter, yields_kind_bind] at h
  split at h
  · exact classConstant_isOther.of_yields h
  split at h
  · exact method_isOther.of_yields h
  split at h
  · exact propertyStatement_isOther.of_yields h
  · obtain ⟨_, _, hmissing, _⟩ := yields_bind.mp h
    exact absurd hmissing (not_yields_missing hs)

theorem traitUse_start (h : traitUse.Yields s n t) : n.span.start = s.stream.current.start := by
  have hfinish {p : Production Node} :
      Gives (finish s.openNode.1 p) fun n => n.span.start = s.stream.current.start := fun _ => rfl
  rw [traitUse, yields_openNode_bind, yields_advance_bind] at h
  refine Gives.of_yields (V := fun n => n.span.start = s.stream.current.start)
    (.last fun _ => .last fun _ => .ite ?_ ?_) h
  · exact .last fun _ => .last fun _ => .last fun _ => hfinish
  · exact .last fun _ => hfinish

/-- A member starts at the current token, and is the use of traits only where the keyword for
that is. -/
theorem member_yields (hs : s.Reading source) (h : member.Yields s n t) :
    n.span.start = s.stream.current.start ∧
      (n.production.isTraitUse = true → s.kind = .kwUse ∧ traitUse.Yields s n t) := by
  rw [member, yields_isAt_bind] at h
  split at h
  · next hk => exact ⟨traitUse_start h, fun _ => ⟨of_decide_eq_true hk, h⟩⟩
  · have hother : IsOther s.openNode.1 n := by
      have hopen : s.openNode.2.Reading source := hs.same rfl
      rw [yields_openNode_bind] at h
      obtain ⟨b, u, hb, h⟩ := yields_bind.mp h
      rcases yields_eat.mp hb with ⟨_, rfl, _⟩ | ⟨_, rfl, rfl⟩
      · rw [if_pos rfl] at h
        exact propertyStatement_isOther.of_yields h
      · rw [if_neg Bool.false_ne_true] at h
        obtain ⟨m, v, hm, h⟩ := yields_bind.mp h
        have hmodifiers := memberModifiers_balances.leads hopen (yields_call.mp hm)
        exact memberAfter_isOther (hopen.leads hmodifiers).strict h
    exact ⟨hother.start, fun e => absurd (hother.other.symm.trans e) Bool.false_ne_true⟩

/-! ## All members -/

/-- Behind a part that consumes something nothing is skipped. -/
theorem forceProgress_stays (hs : s.Reading source) {quiet : Prop} {u : ParseState}
    (h : s.stream.Course [] quiet False u.stream)
    (hstay : (forceProgress s.stream.current.start).Yields u () t) : t = u := by
  rcases yields_forceProgress.mp hstay with ⟨hk, hoffset, _⟩ | ⟨_, rfl⟩
  · obtain ⟨ts, hspends, _, hmoved⟩ := h.tokens hk
    have hlt := hspends.offset_lt hs.isStrict.sound hs.isStrict.filled (hmoved.resolve_left id)
    have hoffset : u.stream.current.start.offset = s.stream.current.start.offset := hoffset
    omega
  · rfl

/-- Members are read one by one, each where the one in front of it ends. -/
theorem members_step (hs : s.Reading source) (h : members.Yields s ns t) :
    (ns = [] ∧ t = s) ∨ ∃ n u ms, s.kind ≠ .eof ∧ member.Yields s n u ∧ u.Reading source ∧
      u.stream.options = s.stream.options ∧ members.Yields u ms t ∧ ns = n :: ms := by
  rcases yields_statementList.mp h with ⟨_, rfl, rfl⟩ | ⟨hmore, n, ms, u, v, hn, hv, hms, rfl⟩
  · exact Or.inl ⟨rfl, rfl⟩
  · have hcourse := (member_balances.of_yields hs.isStrict hn).1
    obtain rfl := forceProgress_stays hs hcourse hv
    exact Or.inr ⟨n, v, ms, fun hk => hmore (Or.inl hk), hn, hs.leads hcourse.leads,
      hcourse.leads.options, yields_call.mp hms, rfl⟩

/-- What is read where one of them is, by induction on those in front of it. -/
theorem members_split (hs : s.Reading source) {front behind : List Node}
    (h : members.Yields s (front ++ n :: behind) t) :
    ∃ u v, u.Reading source ∧ u.stream.options = s.stream.options ∧ member.Yields u n v ∧
      v.Reading source ∧ members.Yields v behind t := by
  induction front generalizing s with
  | nil =>
    rcases members_step hs h with ⟨hnil, _⟩ | ⟨_, v, _, _, hn, hv, _, hrest, e⟩
    · cases hnil
    · cases e
      exact ⟨s, v, hs, rfl, hn, hv, hrest⟩
  | cons m front ih =>
    rcases members_step hs h with ⟨hnil, _⟩ | ⟨_, v, _, _, _, hv, ho, hrest, e⟩
    · cases hnil
    · cases e
      obtain ⟨u, w, hu, hu', hboth⟩ := ih hv hrest
      exact ⟨u, w, hu, hu'.trans ho, hboth⟩

/-- Behind a member there is the first token of the next one, or the token behind all of them. -/
theorem members_next (hs : s.Reading source) (h : members.Yields s ns t) (ht : t.kind ≠ .eof) :
    s.kind ≠ .eof ∧ (∀ m ms, ns = m :: ms → m.span.start = s.stream.current.start) ∧
      (ns = [] → t = s) := by
  rcases members_step hs h with ⟨rfl, rfl⟩ | ⟨n, u, ms, hk, hn, _, _, _, rfl⟩
  · exact ⟨ht, nofun, fun _ => rfl⟩
  · refine ⟨hk, fun m _ e => ?_, nofun⟩
    cases e
    exact (member_yields hs hn).1

end Grammar

/-! ## Bodies -/

theorem ParseState.Reading.offset_le {source : String} {s t : ParseState} (h : s.Reading source)
    (ht : s.stream.Leads t.stream) : s.offset ≤ t.offset := by
  rcases ht.forward h.isStrict.sound h.isStrict.filled with e | ⟨_, hlt⟩
  · exact Nat.le_of_eq (congrArg (·.current.start.offset) e.symm)
  · exact Nat.le_of_lt hlt

open Grammar PhpSyntax.Parser in
/-- The node ends with a brace, and its members are what is read in front of that. -/
def Node.HasBody (source : String) (o : Options) (n : Node) : Prop :=
  ∃ s t, s.Reading source ∧ s.stream.options = o.effective ∧ t.Reading source ∧
    members.Yields s n.production.members t ∧ t.kind = .rBrace ∧
    n.span.stop = t.stream.current.stop

namespace Grammar
open PhpSyntax.Parser

variable {source : String} {o : Options} {s t u v : ParseState} {n : Node} {ns : List Node}

theorem classBody_yields (hs : s.Reading source) (h : classBody.Yields s ns t) :
    s.kind = .lBrace ∧ ∃ u, u.Reading source ∧ members.Yields s.advance ns u ∧
      u.kind = .rBrace ∧ t = u.advance := by
  obtain ⟨b, v, hb, h⟩ := yields_bind.mp h
  obtain ⟨hk, rfl, rfl⟩ := (yields_expect hs.strict).mp hb
  have hadvance := hs.advance (by simp [hk])
  rw [if_pos rfl] at h
  obtain ⟨ms, u, hms, h⟩ := yields_bind.mp h
  have hu : u.Reading source :=
    hadvance.leads (members_balances.leads hadvance (yields_call.mp hms))
  obtain ⟨_, w, hclose, h⟩ := yields_bind.mp h
  obtain ⟨hbrace, rfl⟩ := (yields_require hu.strict).mp hclose
  obtain ⟨rfl, rfl⟩ := yields_pure.mp h
  exact ⟨hk, u, hu, yields_call.mp hms, hbrace, rfl⟩

/-- What is opened at some token and finished behind a body ends with it. -/
theorem finish_hasBody (hs : s.Reading source) (ho : s.stream.options = o.effective)
    (hlead : s.stream.Leads t.stream) (hbody : classBody.Yields t ns u)
    {p : Production Node} (hp : p.members = ns) (h : (finish s.openNode.1 p).Yields u n v) :
    n.HasBody source o := by
  have ht := hs.leads hlead
  obtain ⟨hk, w, hw, hmembers, hbrace, rfl⟩ := classBody_yields ht hbody
  obtain ⟨hproduction, hspan⟩ := finish_yields h
  obtain ⟨_, rfl⟩ := yields_finish.mp h
  have hadvance := ht.advance (by simp [hk])
  have hprev : w.advance.stream.prev = w.stream.current.stop :=
    (ParseState.Consumes.advance hw (by simp [hbrace]) (by simp [hbrace])).prev
  have hle : s.openNode.1.start.offset ≤ w.advance.stream.prev.offset := by
    have hopen : s.offset ≤ t.offset := hs.offset_le hlead
    have hfirst := ht.lt_advance (by simp [hk])
    have hrest := hadvance.offset_le (members_balances.leads hadvance hmembers)
    have hlast : w.offset ≤ w.stream.current.stop.offset := hw.sound.start_le
    rw [hprev]
    show s.offset ≤ _
    omega
  refine ⟨t.advance, w, hadvance, hlead.options.trans ho, hw, ?_, hbrace, ?_⟩
  · rwa [hproduction, hp]
  · rw [hspan]
    exact (if_pos hle).trans hprev

theorem classDeclaration_hasBody (hs : s.Reading source) (ho : s.stream.options = o.effective)
    (h : classDeclaration.Yields s n t) : n.HasBody source o := by
  rw [classDeclaration, yields_openNode_bind] at h
  have hopen : s.openNode.2.Reading source := hs.same rfl
  obtain ⟨⟨isAbstract, isFinal⟩, u, hflags, h⟩ := yields_bind.mp h
  have hlead : s.stream.Leads u.stream :=
    Balances.leads (s := s.openNode.2) classFlags_balances hopen (yields_call.mp hflags)
  obtain ⟨b, v, hb, hrest⟩ := yields_bind.mp h
  rcases yields_eat.mp hb with ⟨hk, rfl, rfl⟩ | ⟨_, rfl, rfl⟩
  · rw [if_pos rfl] at hrest
    have hkeyword := hlead.trans (.single (.advance (show u.kind ≠ .eof by simp [hk])))
    obtain ⟨name, v, hname, h⟩ := yields_bind.mp hrest
    have hident := hkeyword.trans (identifier_balances.leads (hs.leads hkeyword) hname)
    obtain ⟨r, w, hr, h⟩ := yields_bind.mp h
    have hhead := hident.trans (heritage_balances.leads (hs.leads hident) hr)
    obtain ⟨body, x, hbody, h⟩ := yields_bind.mp h
    exact finish_hasBody hs ho hhead hbody rfl h
  · rw [if_neg Bool.false_ne_true] at hrest
    obtain ⟨_, _, hmissing, _⟩ := yields_bind.mp hrest
    exact absurd hmissing (not_yields_missing (hs.leads hlead).strict)

theorem interfaceDeclaration_hasBody (hs : s.Reading source) (ho : s.stream.options = o.effective)
    (hk : s.kind ≠ .eof) (h : interfaceDeclaration.Yields s n t) : n.HasBody source o := by
  rw [interfaceDeclaration, yields_openNode_bind, yields_advance_bind] at h
  have hkeyword : s.stream.Leads s.openNode.2.advance.stream := .single (.advance hk)
  obtain ⟨name, u, hname, h⟩ := yields_bind.mp h
  have hident := hkeyword.trans (identifier_balances.leads (hs.leads hkeyword) hname)
  obtain ⟨parents, v, hparents, h⟩ := yields_bind.mp h
  have hhead := hident.trans ((namesAfter_balances rfl).leads (hs.leads hident) hparents)
  obtain ⟨body, w, hbody, h⟩ := yields_bind.mp h
  exact finish_hasBody hs ho hhead hbody rfl h

theorem traitDeclaration_hasBody (hs : s.Reading source) (ho : s.stream.options = o.effective)
    (hk : s.kind ≠ .eof) (h : traitDeclaration.Yields s n t) : n.HasBody source o := by
  rw [traitDeclaration, yields_openNode_bind, yields_advance_bind] at h
  have hkeyword : s.stream.Leads s.openNode.2.advance.stream := .single (.advance hk)
  obtain ⟨name, u, hname, h⟩ := yields_bind.mp h
  have hident := hkeyword.trans (identifier_balances.leads (hs.leads hkeyword) hname)
  obtain ⟨body, w, hbody, h⟩ := yields_bind.mp h
  exact finish_hasBody hs ho hident hbody rfl h

theorem anonymousClass_hasBody (hs : s.Reading source) (ho : s.stream.options = o.effective)
    (hk : s.kind ≠ .eof) {r : Node × List Node} (h : anonymousClass.Yields s r t) :
    r.1.HasBody source o := by
  rw [anonymousClass, yields_openNode_bind, yields_advance_bind] at h
  have hkeyword : s.stream.Leads s.openNode.2.advance.stream := .single (.advance hk)
  obtain ⟨args, u, hargs, h⟩ := yields_bind.mp h
  have hargs := hkeyword.trans (argumentsIfAny_balances.leads (hs.leads hkeyword) hargs)
  obtain ⟨parents, v, hparents, h⟩ := yields_bind.mp h
  have hhead := hargs.trans (heritage_balances.leads (hs.leads hargs) hparents)
  obtain ⟨body, w, hbody, h⟩ := yields_bind.mp h
  obtain ⟨n, x, hn, h⟩ := yields_bind.mp h
  obtain ⟨rfl, rfl⟩ := yields_pure.mp h
  exact finish_hasBody hs ho hhead hbody rfl hn

theorem makers_of_members {p : Production Node} (h : p.members ≠ []) : p.makers ≠ [] := by
  cases p with
  | «class» | interface | trait => exact List.cons_ne_nil _ _
  | _ => exact absurd rfl h

/-- Whatever makes a node with members reads its body. -/
theorem maker_hasBody (hs : s.Reading source) (ho : s.stream.options = o.effective)
    {p : Production Node} (hp : p.members ≠ []) {maker : List TokenKind × Parser Node}
    (hmaker : maker ∈ p.makers) (hk : s.kind ∈ maker.1) (h : maker.2.Yields s n t) :
    n.HasBody source o := by
  cases p with
  | «class» =>
    rcases List.mem_pair.mp hmaker with rfl | rfl
    · exact classDeclaration_hasBody hs ho h
    · obtain ⟨r, u, hr, h⟩ := yields_bind.mp h
      obtain ⟨rfl, rfl⟩ := yields_pure.mp h
      exact anonymousClass_hasBody hs ho (by simp [List.mem_singleton.mp hk]) hr
  | interface =>
    obtain rfl := List.mem_singleton.mp hmaker
    exact interfaceDeclaration_hasBody hs ho (by simp [List.mem_singleton.mp hk]) h
  | trait =>
    obtain rfl := List.mem_singleton.mp hmaker
    exact traitDeclaration_hasBody hs ho (by simp [List.mem_singleton.mp hk]) h
  | _ => exact absurd rfl hp

end Grammar

/-- Right behind the node `n` there is the token at which the first of the nodes `behind` it
starts, or the brace that ends at `stop` if there are none. -/
def Node.Resumes (tokens : List Token) (n : Node) (behind : List Node) (stop : Position) : Prop :=
  ∃ next more, n.span.behind tokens = next :: more ∧
    (∀ m ms, behind = m :: ms → m.span.start = next.start) ∧
    (behind = [] → next.kind = .rBrace ∧ stop = next.stop)

open Grammar PhpSyntax.Parser in
/-- Behind the use of traits with a group of braces the members go on. -/
theorem Node.HasBody.resumes {source : String} {o : Options} {m n : Node} {front behind : List Node}
    (h : m.HasBody source o) (hmembers : m.production.members = front ++ n :: behind)
    {text : String} (hn : n.production.adaptations? = some text) :
    n.Resumes (grammarTokens o source) behind m.span.stop := by
  obtain ⟨s, t, hs, ho, ht, hyields, hbrace, hstop⟩ := h
  rw [hmembers] at hyields
  obtain ⟨u, v, hu, hou, hmember, hv, hrest⟩ := members_split hs hyields
  obtain ⟨hk, huse⟩ := (member_yields hu hmember).2 (Production.isTraitUse_of_adaptations? hn)
  have hbehind := (traitUse_keeps hu (hou.trans ho) hk huse hn).2
  obtain ⟨hmore, hnext, hlast⟩ := members_next hv hrest (by simp [hbrace])
  rw [Resumes, hbehind, Stream.pending_advance hv.sound hmore]
  refine ⟨_, _, rfl, hnext, fun hnil => ?_⟩
  obtain rfl := hlast hnil
  exact ⟨hbrace, hstop⟩

theorem Node.Resumes.mapInfo {tokens : List Token} {n : Node} {behind : List Node}
    {stop : Position} {g : NodeInfo → NodeInfo} (h : n.Resumes tokens behind stop)
    (hg : ∀ info, (g info).span = info.span) :
    (Node.mapInfo g n).Resumes tokens (behind.map (Node.mapInfo g)) stop := by
  obtain ⟨next, more, hnext, hfirst, hlast⟩ := h
  refine ⟨next, more, (span_mapInfo hg n).symm ▸ hnext, fun m ms e => ?_, fun e => ?_⟩
  · obtain ⟨k, ks, rfl, rfl, rfl⟩ := List.map_eq_cons_iff.mp e
    rw [span_mapInfo hg]
    exact hfirst k ks rfl
  · exact hlast (List.map_eq_nil_iff.mp e)

/-! ## Programs -/

variable {source : String} {fileName : Option String} {o : Options} {p : Program}

open Grammar PhpSyntax.Parser in
/-- In strict mode a use of traits with a group of braces keeps what is written from the first
brace of the group to the last one.  It is a member of some class, interface or trait, and behind
the group the next member starts, or the body ends if there is no other one. -/
theorem adaptations_skipped (h : parse source fileName o = .ok p) (hs : o.suppressErrors = false) :
    ∀ n ∈ p.tree, ∀ text, n.production.adaptations? = some text →
      n.KeepsGroup source (grammarTokens o source) text ∧
      (∃ m ∈ p.tree, n ∈ m.production.members) ∧
      ∀ m ∈ p.tree, ∀ front behind, m.production.members = front ++ n :: behind →
        n.Resumes (grammarTokens o source) behind m.span.stop := by
  intro n hn text htext
  have huse := Production.isTraitUse_of_adaptations? htext
  refine ⟨?_, traitUse_housed h hn huse, fun m hm front behind hmembers => ?_⟩
  · have hmakers : n.production.makers = [([.kwUse], traitUse)] := by
      cases hp : n.production with
      | traitUse => rfl
      | _ =>
        rw [hp] at huse
        cases huse
    obtain ⟨g, hg, maker, hmaker, k, s, t, hreading, ho, hkind, hyields, hproduction, hspan⟩ :=
      parse_read h hs hn (by simp [hmakers])
    rw [hmakers] at hmaker
    obtain rfl := List.mem_singleton.mp hmaker
    rw [hproduction, Production.adaptations?_map] at htext
    rw [Node.KeepsGroup, hspan]
    exact (traitUse_keeps hreading ho (List.mem_singleton.mp hkind) hyields htext).1
  · have hne : m.production.members ≠ [] := by simp [hmembers]
    obtain ⟨g, hg, maker, hmaker, k, s, t, hreading, ho, hkind, hyields, hproduction, hspan⟩ :=
      parse_read h hs hm (makers_of_members hne)
    have hbody := maker_hasBody hreading ho hne hmaker hkind hyields
    rw [hproduction, Production.members_map] at hmembers
    obtain ⟨front, rest, hk, rfl, hrest⟩ := List.map_eq_append_iff.mp hmembers
    obtain ⟨n, behind, rfl, rfl, rfl⟩ := List.map_eq_cons_iff.mp hrest
    rw [Node.production_mapInfo, Production.adaptations?_map] at htext
    rw [hspan]
    exact (hbody.resumes hk htext).mapInfo hg

def adaptedClass : String :=
  "<?php class A \x7b use B, C \x7b f as g; \x7b \"\x7d\" \x7d /* \x7d */ \x7d var $x; \x7d"

/-- The group ends with the brace that closes its first one, and not with one in front of it. -/
theorem adaptations_skipped_nested :
    ∃ p, parse adaptedClass none {} = .ok p ∧ ∃ n ∈ p.tree,
      n.KeepsGroup adaptedClass (grammarTokens {} adaptedClass)
        "\x7b f as g; \x7b \"\x7d\" \x7d /* \x7d */ \x7d" ∧
      ∃ m ∈ p.tree, ∃ front behind, m.production.members = front ++ n :: behind ∧
        n.Resumes (grammarTokens {} adaptedClass) behind m.span.stop := by
  have hrun : ((parse adaptedClass none {}).toOption.any fun p => p.tree.any fun n =>
      n.production.adaptations? = some "\x7b f as g; \x7b \"\x7d\" \x7d /* \x7d */ \x7d") =
      true := by
    rw [parse_eq, statementsFrom_eq]
    decide +kernel
  obtain ⟨p, hp, hany⟩ := parse_of_any hrun
  obtain ⟨n, hn, htext⟩ := List.any_eq_true.mp hany
  obtain ⟨hkeeps, ⟨m, hm, hmember⟩, hresumes⟩ :=
    adaptations_skipped hp rfl n hn _ (of_decide_eq_true htext)
  obtain ⟨front, behind, hmembers⟩ := List.append_of_mem hmember
  exact ⟨p, hp, n, hn, hkeeps, m, hm, front, behind, hmembers, hresumes m hm front behind hmembers⟩

end PhpSyntax
