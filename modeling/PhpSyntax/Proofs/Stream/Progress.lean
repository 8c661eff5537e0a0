import Mathlib.Logic.Relation
import PhpSyntax.Proofs.Stream.Sound

namespace PhpSyntax

def grammarTokens (o : Options) (source : String) : List Token :=
  ((tokenize source).filter (!·.kind.isTrivia)).map (·.forGrammar o.effective)

/-- The token at the front of a stretch that tokens fill is not empty. -/
theorem Contiguous.start_lt {p q : Position} {t : Token} {ts : List Token}
    (h : Contiguous p (t :: ts) q) : t.start.offset < t.stop.offset := by
  obtain ⟨hstart, htext, hstop, _, _⟩ := h
  have hsize : t.text.utf8ByteSize ≠ 0 := fun h0 => htext (String.utf8ByteSize_eq_zero_iff.mp h0)
  rw [hstop, Position.offset_advance, hstart]
  omega

namespace Stream

inductive Goes : Stream → Stream → Prop
  | advance {u : Stream} (h : u.current.kind ≠ .eof) : Goes u u.advance
  | halt {u : Stream} : Goes u u.halt.2

abbrev Leads : Stream → Stream → Prop := Relation.ReflTransGen Goes

/-- The current token is not empty, unless it stands for the end of the input. -/
def Filled (u : Stream) : Prop :=
  u.current.kind ≠ .eof → u.current.start.offset < u.current.stop.offset

theorem advance_filled_of {u : Stream} (h : Contiguous u.current.stop u.ahead u.stop) :
    u.advance.Filled := by
  intro hk
  obtain ⟨m, _, hupcoming⟩ := contiguous_upcoming h
  cases hu : u.upcoming with
  | nil => exact absurd (by simp [advance, hu, Token.eof]) hk
  | cons t ts =>
    rw [hu] at hupcoming
    simp only [advance, hu, Token.forGrammar_start, Token.forGrammar_stop]
    exact hupcoming.start_lt

/-- A move goes forward, unless it is a halt at the end. -/
theorem Goes.forward {u v : Stream} (h : Goes u v) (hu : u.Sound) (hf : u.Filled) :
    v = u ∨ (v.rest < u.rest ∧ u.current.start.offset < v.current.start.offset) := by
  cases h with
  | advance hk =>
    have hrest := rest_advance hu hk
    have hlt := hf hk
    have hstop := stop_le_advance hu
    exact Or.inr ⟨by omega, by omega⟩
  | halt =>
    by_cases hk : u.current.kind = .eof
    · exact Or.inl (halt_of_eof hu hk)
    · have hrest : u.rest ≠ 0 := fun h0 => hk ((rest_eq_zero hu).mp h0)
      have hlt := hf hk
      have hstop := hu.ahead.offset_le
      refine Or.inr ⟨?_, ?_⟩
      · rw [rest_halt]
        omega
      · show u.current.start.offset < u.stop.offset
        omega

theorem Goes.sound {u v : Stream} (h : Goes u v) (hu : u.Sound) : v.Sound := by
  cases h with
  | advance => exact advance_sound hu
  | halt => exact halt_sound hu

theorem Goes.filled {u v : Stream} (h : Goes u v) (hu : u.Sound) : v.Filled := by
  cases h with
  | advance => exact advance_filled_of hu.ahead
  | halt => exact fun hk => absurd rfl hk

theorem Leads.sound {u v : Stream} (h : u.Leads v) (hu : u.Sound) : v.Sound := by
  induction h with
  | refl => exact hu
  | tail _ hvw ih => exact hvw.sound ih

theorem Leads.options {u v : Stream} (h : u.Leads v) : v.options = u.options := by
  induction h with
  | refl => rfl
  | tail _ h ih => cases h <;> exact ih

/-- Behind the end of the text there is nothing else. -/
theorem Leads.atEnd {u v : Stream} (h : u.Leads v) (hk : u.current.kind = .eof) :
    v.current.kind = .eof := by
  induction h with
  | refl => exact hk
  | tail _ hgo ih =>
    cases hgo with
    | advance hne => exact absurd ih hne
    | halt => rfl

theorem Leads.filled {u v : Stream} (h : u.Leads v) (hu : u.Sound) (hf : u.Filled) :
    v.Filled := by
  cases h with
  | refl => exact hf
  | tail huv hvw => exact hvw.filled (Leads.sound huv hu)

theorem Leads.forward {u v : Stream} (h : u.Leads v) (hu : u.Sound) (hf : u.Filled) :
    v = u ∨ (v.rest < u.rest ∧ u.current.start.offset < v.current.start.offset) := by
  induction h with
  | refl => exact Or.inl rfl
  | @tail v w huv hvw ih =>
    have hnext := hvw.forward (Leads.sound huv hu) (Leads.filled huv hu hf)
    rcases ih with rfl | ⟨hrest, hstart⟩
    · exact hnext
    · rcases hnext with rfl | ⟨hrest', hstart'⟩
      · exact Or.inr ⟨hrest, hstart⟩
      · exact Or.inr ⟨by omega, by omega⟩

theorem Leads.rest_le {u v : Stream} (h : u.Leads v) (hu : u.Sound) : v.rest ≤ u.rest := by
  induction h with
  | refl => exact Nat.le_refl _
  | @tail v w huv hvw ih =>
    cases hvw with
    | advance hk =>
      have hrest := rest_advance (Leads.sound huv hu) hk
      omega
    | halt => exact Nat.zero_le _

theorem Leads.prev_le {u v : Stream} (h : u.Leads v) (hu : u.Sound) :
    u.prev.offset ≤ v.prev.offset := by
  induction h with
  | refl => exact Nat.le_refl _
  | @tail v w huv hvw ih =>
    cases hvw with
    | advance => exact Nat.le_trans ih (prev_le_advance (Leads.sound huv hu))
    | halt => exact ih

/-! ## The first token -/

theorem first_filled (source : String) (o : Options) : (ofSource source o).advance.Filled :=
  advance_filled_of (ofSource_contiguous source o)

/-- Behind the first token as many tokens are left as the grammar sees. -/
theorem first_rest (source : String) (o : Options) :
    (ofSource source o.effective).advance.rest = (grammarTokens o source).length := by
  rw [rest_advance_of (ofSource_contiguous source o.effective), grammarTokens, List.length_map]
  rfl

end Stream
end PhpSyntax
