/-
How a body goes through its tokens.

`Step.Paced` follows a body from one token or call to the next.  The stream moves on only,
no token is consumed at the end of the input, and a rule is asked for only where it is due
and costs less than the budget of the body.  The cost of a rule is what its calls may nest,
so nested calls cost less and less.
-/
import PhpSyntax.Proofs.Trace.Stage

namespace PhpSyntax

/-- A rule that may be asked for: it gets what it needs to know, and what it continues
starts where something has been read. -/
structure Rule.Due {c : Shape} (r : Rule c) (s : ParseState) : Prop where
  ready : r.Ready s
  sound : s.stream.Sound
  starts : ∀ i ∈ r.takes [], i.start.offset ≤ s.offset

/-- How deep the calls of a rule may nest. -/
def Rule.cost {c : Shape} (r : Rule c) (s : ParseState) : Nat := 32 * s.stream.rest + r.rank

variable {α β : Type}

/-- Behind the place `u` of the stream, a body consumes tokens as it should and asks for
rules within the budget. -/
def Step.Paced (budget : Nat) (answer : (c : Shape) → Rule c → ParseState → Outcome c.Value) :
    Stream → Step α → Prop
  | u, .done _ s => u.Leads s.stream
  | _, .stop _ => True
  | u, .advance s next =>
    u.Leads s.stream ∧ s.kind ≠ .eof ∧ (next s.advance).Paced budget answer s.advance.stream
  | u, .call (c := c) r s next =>
    u.Leads s.stream ∧ r.Due s ∧ r.cost s < budget ∧
      ∀ v t, answer c r s = .ok (v, t) →
        s.stream.Leads t.stream ∧ (next v t).Paced budget answer t.stream

namespace Step.Paced

variable {b : Nat} {answer : (c : Shape) → Rule c → ParseState → Outcome c.Value}
  {u v : Stream}

theorem after {t : Step α} (h : t.Paced b answer v) (huv : u.Leads v) : t.Paced b answer u := by
  cases t with
  | done a s => exact huv.trans h
  | stop e => trivial
  | advance s next =>
    obtain ⟨hleads, hk, hnext⟩ := h
    exact ⟨huv.trans hleads, hk, hnext⟩
  | call r s next =>
    obtain ⟨hleads, hdue, hcost, hnext⟩ := h
    exact ⟨huv.trans hleads, hdue, hcost, hnext⟩

/-- What follows a body begins where the body has ended. -/
theorem bind {t : Step α} {f : α → ParseState → Step β} (h : t.Paced b answer u)
    (hf : ∀ a s, t.eval answer = .ok (a, s) → (f a s).Paced b answer s.stream) :
    (t.bind f).Paced b answer u := by
  induction t generalizing u with
  | done a s => exact (hf a s rfl).after h
  | stop e => trivial
  | advance s next ih =>
    obtain ⟨hleads, hk, hnext⟩ := h
    exact ⟨hleads, hk, ih _ hnext hf⟩
  | call r s next ih =>
    obtain ⟨hleads, hdue, hcost, hnext⟩ := h
    refine ⟨hleads, hdue, hcost, fun v t ht => ?_⟩
    obtain ⟨hst, hrest⟩ := hnext v t ht
    refine ⟨hst, ih v t hrest fun a s' hs' => hf a s' ?_⟩
    simp only [Step.eval, ht]
    exact hs'

end Step.Paced

/-- A rule that is asked for at a stage of a body is due. -/
theorem Stage.due {b k l : Nat} {x : Bench × ParseState} {w : Bench} {s : ParseState} {c : Shape}
    {r : Rule c} (h : Stage b k l x (r.takes w) s) (hr : r.Ready s) : r.Due s where
  ready := hr
  sound := h.sound
  starts := fun i hi => h.starts i <| by
    cases r with
    | infixes min n => exact List.mem_singleton.mp hi ▸ List.mem_cons_self
    | lookups n readOnly => exact List.mem_singleton.mp hi ▸ List.mem_cons_self
    | _ => exact absurd hi List.not_mem_nil

theorem Stage.cost_lt {b k l : Nat} {x : Bench × ParseState} {w : Bench} {s : ParseState}
    {c : Shape} {r : Rule c} (h : Stage b k l x w s) (hk : r.rank < k) : r.cost s < b := by
  have hpaid := h.paid
  rw [Rule.cost]
  omega

/-- The stage at which the body of a rule that is due begins. -/
theorem Rule.Due.stage {c : Shape} {r : Rule c} {s : ParseState} {b : Nat} (h : r.Due s)
    (hb : r.cost s ≤ b) : Stage b r.rank 0 (r.takes [], s) (r.takes []) s where
  moves := Relation.ReflTransGen.refl
  sound := h.sound
  paid := hb
  limit := by
    cases r <;> simp only [Rule.rank] <;> omega
  covers := fun _ => Nat.zero_le _
  starts := h.starts

end PhpSyntax
