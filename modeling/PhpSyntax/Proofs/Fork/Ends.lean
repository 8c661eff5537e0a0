/-
Parts of bodies that end in front of a fork or at it.

A part that ends in front of the fork in the first parse does the same in the second
(`Follows`).  At the fork the two current tokens are different, so a part that ends there has
to be looked at: `Closes` says that it consumes the last token in common and does the same in
the second parse, and that it cannot do without a token, and `Rests` that it consumes nothing.
A part that closes is put together from parts that follow, one that closes, and parts that
rest.

A part may close for some values only, those of which `G` holds.
-/
import PhpSyntax.Proofs.Fork.State
import PhpSyntax.Proofs.Grammar.Loop

namespace PhpSyntax

variable {F : Fork} {α β : Type}

/-! ## Going on -/

structure Stream.GoesOn (u v : Stream) : Prop where
  sound : v.Sound
  options : v.options = u.options
  leads : u.Leads v ∨ v.rest = 0

namespace Stream.GoesOn

variable {u v w : Stream}

theorem refl (h : u.Sound) : u.GoesOn u := ⟨h, rfl, Or.inl .refl⟩

theorem trans (h : u.GoesOn v) (h' : v.GoesOn w) : u.GoesOn w := by
  refine ⟨h'.sound, h'.options.trans h.options, ?_⟩
  rcases h'.leads with hvw | hend
  · rcases h.leads with huv | hend
    · exact Or.inl (huv.trans hvw)
    · have hle := hvw.rest_le h.sound
      exact Or.inr (by omega)
  · exact Or.inr hend

theorem advance (h : u.Sound) : u.GoesOn u.advance := by
  refine ⟨advance_sound h, rfl, ?_⟩
  by_cases hk : u.current.kind = .eof
  · have hahead := (h.atEnd hk).2
    refine Or.inr ?_
    rw [rest_advance_of h.ahead, hahead]
    rfl
  · exact Or.inl (.single (.advance hk))

theorem rest_le (h : u.GoesOn v) (hu : u.Sound) : v.rest ≤ u.rest := by
  rcases h.leads with hl | hend
  · exact hl.rest_le hu
  · omega

/-- What has gone on is in the same mode. -/
theorem strict {s t : ParseState} (h : s.stream.GoesOn t.stream) (hs : s.tolerates = false) :
    t.tolerates = false := by
  rw [ParseState.tolerates, h.options]
  exact hs

end Stream.GoesOn

/-- A body can be started wherever the stream is sound. -/
theorem Stage.start {s : ParseState} (h : s.stream.Sound) :
    Stage (32 * s.stream.rest + 32) 32 0 ([], s) [] s where
  moves := Relation.ReflTransGen.refl
  sound := h
  paid := Nat.le_refl _
  limit := Nat.le_refl _
  covers := fun _ => Nat.zero_le _
  starts := fun _ hi => absurd hi List.not_mem_nil

namespace Parser

def KeepsPace (p : Parser α) : Prop := ∀ s : ParseState, s.stream.Sound → ∃ b Q, Sat b p s Q

/-- What the part yields is behind where it started. -/
def Onward (p : Parser α) : Prop :=
  ∀ {s a t}, s.tolerates = false → s.stream.Sound → p.Yields s a t → s.stream.GoesOn t.stream

variable {p : Parser α} {s t : ParseState} {a : α}

theorem KeepsPace.eval (hp : p.KeepsPace) (hs : s.stream.Sound) (h : p.Yields s a t) :
    ∃ b, (p s).Paced b (Rule.run b) s.stream ∧ (p s).eval (Rule.run b) = .ok (a, t) := by
  obtain ⟨b, Q, hsat⟩ := hp s hs
  have hpaced := (hsat (Rule.run b) (Rule.run_answers b)).2
  obtain ⟨fs, hruns, _⟩ := hpaced.runs hs fun r s hdue hcost => Rule.runs hdue hcost
  obtain ⟨es, h⟩ := h
  exact ⟨b, hpaced, (hruns.det h).2⟩

theorem KeepsPace.onward (hp : p.KeepsPace) : Onward p := by
  intro s a t _ hs h
  obtain ⟨b, hpaced, heval⟩ := hp.eval hs h
  have hleads := hpaced.leads heval
  exact ⟨hleads.sound hs, hleads.options, Or.inl hleads⟩

theorem Onward.bind {f : α → Parser β} (hp : Onward p) (hf : ∀ a, Onward (f a)) :
    Onward (p >>= f) := by
  intro s b u hs hsound h
  obtain ⟨a, t, ht, hu⟩ := yields_bind.mp h
  have hgo := hp hs hsound ht
  exact hgo.trans (hf a (hgo.strict hs) hgo.sound hu)

def Still (p : Parser α) : Prop := ∀ {s a t}, p.Yields s a t → t.stream = s.stream

theorem Still.onward (hp : Still p) : Onward p := by
  intro s a t _ hs h
  rw [hp h]
  exact .refl hs

theorem Still.bind {f : α → Parser β} (hp : Still p) (hf : ∀ a, Still (f a)) :
    Still (p >>= f) := by
  intro s b u h
  obtain ⟨a, t, ht, hu⟩ := yields_bind.mp h
  rw [hf a hu, hp ht]

theorem still_pure : Still (pure a : Parser α) := fun h => (yields_pure.mp h).2 ▸ rfl

theorem still_kind : Still kind := fun h => (yields_pure.mp h).2 ▸ rfl

theorem still_finish {o : Opened} {q : Production Node} : Still (finish o q) := fun h => by
  rw [(yields_finish.mp h).2]
  rfl

end Parser

/-! ## States of both parses -/

namespace ParseState

structure Inside (F : Fork) (s t : ParseState) : Prop where
  forked : s.Forked F t
  sound : s.stream.Sound
  ne_eof : s.kind ≠ .eof

structure AtFork (F : Fork) (s t : ParseState) : Prop where
  stream : s.stream.AtFork F t.stream
  sound : s.stream.Sound
  deferred : s.trivia.deferred = #[] ∧ t.trivia.deferred = #[]
  nextId : s.nextId = t.nextId + F.surplus
  namespaceDepth : t.namespaceDepth = s.namespaceDepth

/-- The first parse at the fork. -/
structure Stands (F : Fork) (s : ParseState) : Prop where
  strict : s.tolerates = false
  sound : s.stream.Sound
  rest : s.stream.rest = F.left
  kind : s.kind = F.first.kind

variable {s t u : ParseState}

theorem Stands.ne_eof (h : s.Stands F) : s.kind ≠ .eof := h.kind ▸ F.first_seen.ne_eof

theorem Inside.strict (h : s.Inside F t) : s.tolerates = false := h.forked.strict

theorem Inside.left_lt (h : s.Inside F t) : F.left < s.stream.rest :=
  h.forked.stream.left_lt h.ne_eof

/-- What is behind a state in front of the fork and has not passed the fork is in front of it or
at it. -/
theorem Inside.goesOn (h : s.Inside F t) (hgo : s.stream.GoesOn u.stream)
    (hrest : F.left ≤ u.stream.rest) : F.left < u.stream.rest ∨ u.Stands F := by
  have hleads := hgo.leads.resolve_right (Nat.ne_of_gt (Nat.lt_of_lt_of_le (Nat.succ_pos _) hrest))
  rcases Nat.lt_or_eq_of_le hrest with hlt | heq
  · exact Or.inl hlt
  · have hnears := (h.forked.stream.nears h.ne_eof).leads h.sound hleads
    exact Or.inr ⟨hgo.strict h.strict, hgo.sound, heq.symm,
      congrArg Token.kind (hnears.arrives heq.symm).1⟩

/-- Where the fork is not passed the first parse is still at it. -/
theorem Stands.goesOn (h : s.Stands F) (hgo : s.stream.GoesOn u.stream)
    (hrest : F.left ≤ u.stream.rest) : u.stream = s.stream := by
  have hpos : 0 < F.left := Nat.succ_pos _
  have hleads := hgo.leads.resolve_right (by omega)
  have hle := hleads.rest_le h.sound
  have hfork := h.rest
  exact hleads.eq_of_rest h.sound (by omega) (by omega)

theorem Stands.of_stream (h : s.Stands F) (hu : u.stream = s.stream) : u.Stands F where
  strict := by
    rw [tolerates, hu]
    exact h.strict
  sound := hu ▸ h.sound
  rest := hu ▸ h.rest
  kind := by
    rw [ParseState.kind, hu]
    exact h.kind

theorem AtFork.stands (h : s.AtFork F t) : s.Stands F :=
  ⟨h.stream.strict, h.sound, h.stream.rest, congrArg Token.kind h.stream.first⟩

theorem AtFork.beside (h : s.AtFork F t) : s.Beside F t :=
  ⟨h.stream.prev, h.stream.comments, h.deferred, h.nextId⟩

theorem AtFork.kind (h : s.AtFork F t) : t.kind = F.second.kind :=
  congrArg Token.kind h.stream.second

theorem AtFork.strict (h : s.AtFork F t) : t.tolerates = false := by
  rw [tolerates, h.stream.options]
  exact h.stream.strict

/-- Consuming a token in front of the fork leads to another one there, or to the fork. -/
theorem Inside.advance (h : s.Inside F t) :
    s.advance.Inside F t.advance ∨ s.advance.AtFork F t.advance := by
  have hsound : s.advance.stream.Sound := Stream.advance_sound h.sound
  have hrest : s.advance.stream.rest + 1 = s.stream.rest := Stream.rest_advance h.sound h.ne_eof
  have hlt := h.left_lt
  rcases h.forked.stream.advance with hon | hat
  · refine Or.inl ⟨⟨hon, h.forked.deferred, h.forked.nextId, h.forked.namespaceDepth⟩, hsound, ?_⟩
    have hpos : s.advance.stream.rest ≠ 0 := by
      have hfork : 0 < F.left := Nat.succ_pos _
      omega
    exact fun hk => hpos ((Stream.rest_eq_zero hsound).mpr hk)
  · exact Or.inr ⟨hat, hsound, h.forked.deferred, h.forked.nextId, h.forked.namespaceDepth⟩

/-- Behind the current tokens, the tokens in common or the fork come next. -/
theorem forked_of_ahead (hsound : s.stream.Sound) (hk : s.kind ≠ .eof)
    (hoptions : t.stream.options = s.stream.options) (hstrict : s.tolerates = false)
    (hdoc : s.stream.options.extractDoc = false) (hsource : t.stream.source = s.stream.source)
    (hstop : t.stream.stop = s.stream.stop) (hprev : t.stream.advance.prev = s.stream.advance.prev)
    (hcomments : s.stream.comments = #[] ∧ t.stream.comments = #[])
    (hdeferred : s.trivia.deferred = #[] ∧ t.trivia.deferred = #[])
    (hid : s.nextId = t.nextId + F.surplus) (hdepth : t.namespaceDepth = s.namespaceDepth)
    (hahead : F.Ahead s.stream t.stream) :
    s.advance.Inside F t.advance ∨ s.advance.AtFork F t.advance := by
  have hsound' : s.advance.stream.Sound := Stream.advance_sound hsound
  rcases Stream.forked_of_ahead hoptions hstrict hdoc hsource hstop hprev hcomments hahead with
    hon | hat
  · refine Or.inl ⟨⟨hon, hdeferred, hid, hdepth⟩, hsound', fun hend => ?_⟩
    obtain ⟨common, hfirst, _, _⟩ := hahead
    have hlt := Stream.left_lt_rest hfirst hk
    have hadvance : s.advance.stream.rest + 1 = s.stream.rest := Stream.rest_advance hsound hk
    have hrest : s.advance.stream.rest = 0 := (Stream.rest_eq_zero hsound').mpr hend
    have hpos : 0 < F.left := Nat.succ_pos _
    omega
  · exact Or.inr ⟨hat, hsound', hdeferred, hid, hdepth⟩

end ParseState

/-! ## Parts that follow, close and rest -/

variable {φ : α → α} {ψ : β → β} {G : α → Prop} {H : β → Prop}

/-- What ends in front of the fork in the first parse ends there in the second, which has `φ a`
for the value `a` of the first. -/
structure Follows (F : Fork) (φ : α → α) (p q : Parser α) : Prop where
  onward : p.Onward
  inside : ∀ ⦃s t u a⦄, s.Inside F t → p.Yields s a u → F.left < u.stream.rest →
    ∃ v, q.Yields t (φ a) v ∧ u.Inside F v

/-- What ends at the fork in the first parse, and with a value of which `G` holds, ends there in
the second. -/
def Lands (F : Fork) (G : α → Prop) (φ : α → α) (p q : Parser α) : Prop :=
  ∀ ⦃s t u a⦄, s.Inside F t → p.Yields s a u → u.stream.rest = F.left → G a →
    ∃ v, q.Yields t (φ a) v ∧ u.AtFork F v

/-- The part does not end at the fork without consuming anything. -/
def Needs (F : Fork) (p : Parser α) : Prop :=
  ∀ ⦃s u a⦄, s.Stands F → p.Yields s a u → u.stream.rest ≠ F.left

structure Closes (F : Fork) (G : α → Prop) (φ : α → α) (p q : Parser α) : Prop where
  onward : p.Onward
  needs : Needs F p
  lands : Lands F G φ p q

/-- From the fork a part that rests does the same in both parses. -/
def Settles (F : Fork) (G : α → Prop) (φ : α → α) (p q : Parser α) : Prop :=
  ∀ ⦃s t u a⦄, s.AtFork F t → p.Yields s a u → u.stream.rest = F.left → G a →
    ∃ v, q.Yields t (φ a) v ∧ u.AtFork F v

structure Rests (F : Fork) (G : α → Prop) (φ : α → α) (p q : Parser α) : Prop where
  onward : p.Onward
  lands : Lands F G φ p q
  settles : Settles F G φ p q

variable {p q : Parser α} {f g : α → Parser β}

namespace Follows

/-- Parts that keep pace and are echoed follow. -/
theorem of_echoes (hp : p.KeepsPace)
    (h : Echoes (Echo.forked F) (fun _ => True) (fun _ a b => φ a = b) p q) :
    Follows F φ p q where
  onward := hp.onward
  inside := by
    intro s t u a hs hy hlt
    obtain ⟨b, hpaced, heval⟩ := hp.eval hs.sound hy
    have hsound := (hpaced.leads heval).sound hs.sound
    have hechoes : Outcome.Echoes (Echo.forked F) (fun _ a b => φ a = b) ()
        ((p s).eval (Rule.run b)) ((q t).eval (Rule.run b)) :=
      (h () s t (fun _ _ => trivial) hs.forked).eval hpaced hs.sound
        fun c r r' s t z hdue hcost hr hst => Rule.run_echoes b hdue hcost hr hst
    rw [heval] at hechoes
    obtain ⟨_, a', v, hq, _, hvalue, hv⟩ := hechoes (ParseState.Forked.isOpen_iff.mpr hlt)
    obtain rfl : φ a = a' := hvalue () le_rfl
    refine ⟨v, Step.runs_of_eval (Rule.runs_of_run b) hq, hv, hsound, fun hk => ?_⟩
    rw [(Stream.rest_eq_zero hsound).mpr hk] at hlt
    exact Nat.not_lt_zero _ hlt

protected theorem bind (hp : Follows F φ p q) (hf : ∀ a, Follows F ψ (f a) (g (φ a))) :
    Follows F ψ (p >>= f) (q >>= g) where
  onward := Parser.Onward.bind hp.onward fun a => (hf a).onward
  inside := by
    intro s t u b hs hy hlt
    obtain ⟨a, m, hm, hu⟩ := Parser.yields_bind.mp hy
    have hgo := hp.onward hs.strict hs.sound hm
    have hle := ((hf a).onward (hgo.strict hs.strict) hgo.sound hu).rest_le hgo.sound
    obtain ⟨m', hm', hin⟩ := hp.inside hs hm (Nat.lt_of_lt_of_le hlt hle)
    obtain ⟨v, hv, hin'⟩ := (hf a).inside hin hu hlt
    exact ⟨v, Parser.yields_bind.mpr ⟨φ a, m', hm', hv⟩, hin'⟩

end Follows

theorem Lands.bind (hp : Follows F φ p q) (honward : ∀ a, (f a).Onward)
    (hinside : ∀ a, Lands F H ψ (f a) (g (φ a)))
    (hat : ∀ {s t m u : ParseState} {a : α} {b : β}, s.Inside F t → p.Yields s a m → m.Stands F →
      (f a).Yields m b u → u.stream.rest = F.left → H b →
      ∃ v, (q >>= g).Yields t (ψ b) v ∧ u.AtFork F v) :
    Lands F H ψ (p >>= f) (q >>= g) := by
  intro s t u b hs hy hrest hb
  obtain ⟨a, m, hm, hu⟩ := Parser.yields_bind.mp hy
  have hgo := hp.onward hs.strict hs.sound hm
  have hle := (honward a (hgo.strict hs.strict) hgo.sound hu).rest_le hgo.sound
  rcases hs.goesOn hgo (hrest ▸ hle) with hlt | hstands
  · obtain ⟨m', hm', hinm⟩ := hp.inside hs hm hlt
    obtain ⟨v, hv, hat⟩ := hinside a hinm hu hrest hb
    exact ⟨v, Parser.yields_bind.mpr ⟨φ a, m', hm', hv⟩, hat⟩
  · exact hat hs hm hstands hu hrest hb

/-- A part in front of the fork, in a run that ends there, has left it where it was. -/
theorem ParseState.Stands.bind {s u : ParseState} {b : β} (hs : s.Stands F) (hp : p.Onward)
    (honward : ∀ a, (f a).Onward) (hy : (p >>= f).Yields s b u) (hrest : u.stream.rest = F.left) :
    ∃ a m, p.Yields s a m ∧ m.Stands F ∧ (f a).Yields m b u := by
  obtain ⟨a, m, hm, hu⟩ := Parser.yields_bind.mp hy
  have hgo := hp hs.strict hs.sound hm
  have hle := (honward a (hgo.strict hs.strict) hgo.sound hu).rest_le hgo.sound
  exact ⟨a, m, hm, hs.of_stream (hs.goesOn hgo (hrest ▸ hle)), hu⟩

theorem Needs.bind_right (hp : p.Onward) (honward : ∀ a, (f a).Onward)
    (hf : ∀ a, Needs F (f a)) : Needs F (p >>= f) := by
  intro s u b hs hy hrest
  obtain ⟨a, m, _, hm, hu⟩ := hs.bind hp honward hy hrest
  exact hf a hm hu hrest

theorem Needs.bind_left (hp : Needs F p) (hponward : p.Onward) (honward : ∀ a, (f a).Onward) :
    Needs F (p >>= f) := by
  intro s u b hs hy hrest
  obtain ⟨a, m, hm, hstands, _⟩ := hs.bind hponward honward hy hrest
  exact hp hs hm hstands.rest

namespace Closes

/-- A part in front of the one that closes. -/
theorem before (hp : Follows F φ p q) (hf : ∀ a, Closes F H ψ (f a) (g (φ a))) :
    Closes F H ψ (p >>= f) (q >>= g) where
  onward := Parser.Onward.bind hp.onward fun a => (hf a).onward
  needs := Needs.bind_right hp.onward (fun a => (hf a).onward) fun a => (hf a).needs
  lands := Lands.bind hp (fun a => (hf a).onward) (fun a => (hf a).lands)
    fun {_ _ _ _ a _} _ _ hm hu hrest _ => absurd hrest ((hf a).needs hm hu)

/-- A part that closes and one that rests behind it.  The value of the first is one of those for
which it closes if the value of the second is. -/
theorem last (hp : Follows F φ p q) (hc : Closes F G φ p q)
    (hG : ∀ {m u : ParseState} {a : α} {b : β}, m.Stands F → (f a).Yields m b u → H b → G a)
    (hf : ∀ a, Rests F H ψ (f a) (g (φ a))) : Closes F H ψ (p >>= f) (q >>= g) where
  onward := Parser.Onward.bind hp.onward fun a => (hf a).onward
  needs := Needs.bind_left hc.needs hp.onward fun a => (hf a).onward
  lands := by
    refine Lands.bind hp (fun a => (hf a).onward) (fun a => (hf a).lands) ?_
    intro s t m u a b hs hy hm hu hrest hb
    obtain ⟨m', hm', hat⟩ := hc.lands hs hy hm.rest (hG hm hu hb)
    obtain ⟨v, hv, hat'⟩ := (hf a).settles hat hu hrest hb
    exact ⟨v, Parser.yields_bind.mpr ⟨φ a, m', hm', hv⟩, hat'⟩

end Closes
end PhpSyntax
