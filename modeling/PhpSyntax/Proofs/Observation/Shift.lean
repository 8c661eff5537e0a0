/-
Identities that move down.

Where some of the identities are left out, those behind them move down by as many.  If they
move down onto an initial segment, then what decides how far is only which identities are
kept (`shift_eq_card`), and so two lists of what is left out move them alike
(`shift_agree`).
-/
import Mathlib.Data.Finset.Card
import Mathlib.Data.List.Nodup
import Mathlib.Data.Finset.Range

namespace PhpSyntax

/-- An identity where those below it lack some. -/
def shift (dropped : List Nat) (id : Nat) : Nat := id - dropped.countP (· < id)

variable {dropped : List Nat}

theorem countP_lt_succ (dropped : List Nat) (id : Nat) :
    dropped.countP (· < id + 1) = dropped.countP (· < id) + dropped.count id := by
  induction dropped with
  | nil => rfl
  | cons d ds ih =>
    rw [List.countP_cons, List.countP_cons, List.count_cons, ih]
    by_cases hlt : d < id
    · have hne : d ≠ id := Nat.ne_of_lt hlt
      simp [hlt, hne, Nat.lt_succ_of_lt hlt]
      omega
    · by_cases heq : d = id
      · simp [heq]
        omega
      · have hge : ¬d < id + 1 := by omega
        simp [hlt, heq, hge]

theorem countP_lt_le (h : dropped.Nodup) (id : Nat) : dropped.countP (· < id) ≤ id := by
  induction id with
  | zero => simp
  | succ id ih =>
    have hcount := List.nodup_iff_count_le_one.mp h id
    rw [countP_lt_succ]
    omega

/-- Behind an identity that is left out the next one takes its place. -/
theorem shift_succ (h : dropped.Nodup) (id : Nat) :
    shift dropped (id + 1) = if id ∈ dropped then shift dropped id else shift dropped id + 1 := by
  have hle := countP_lt_le h id
  rw [shift, shift, countP_lt_succ]
  split
  · next hmem =>
    rw [List.count_eq_one_of_mem h hmem]
    omega
  · next hmem =>
    rw [List.count_eq_zero_of_not_mem hmem]
    omega

theorem shift_mono (h : dropped.Nodup) : Monotone (shift dropped) := by
  apply monotone_nat_of_le_succ
  intro id
  rw [shift_succ h]
  split <;> omega

/-- An identity that is kept moves down less than those behind it. -/
theorem shift_lt (h : dropped.Nodup) {id later : Nat} (hid : id ∉ dropped) (hlt : id < later) :
    shift dropped id < shift dropped later := by
  have hnext : shift dropped (id + 1) = shift dropped id + 1 := by
    rw [shift_succ h, if_neg hid]
  have hle : shift dropped (id + 1) ≤ shift dropped later := shift_mono h hlt
  omega

/-- Behind all that is left out. -/
theorem shift_of_forall_lt {id : Nat} (h : ∀ d ∈ dropped, d < id) :
    shift dropped id = id - dropped.length := by
  have hall : dropped.countP (· < id) = dropped.length := by
    apply List.countP_eq_length.mpr
    intro d hd
    exact decide_eq_true (h d hd)
  rw [shift, hall]

/-- Where the identities that are kept move down onto an initial segment, each moves to the
number of those below it. -/
theorem shift_eq_card (h : dropped.Nodup) {kept : Finset Nat} {id : Nat}
    (hinj : Set.InjOn (shift dropped) kept)
    (hlt : ∀ k ∈ kept, k < id → shift dropped k < shift dropped id)
    (honto : ∀ j < shift dropped id, ∃ k ∈ kept, shift dropped k = j) :
    (kept.filter (· < id)).card = shift dropped id := by
  have himage : (kept.filter (· < id)).image (shift dropped) = Finset.range (shift dropped id) := by
    ext j
    rw [Finset.mem_image, Finset.mem_range]
    constructor
    · rintro ⟨k, hk, rfl⟩
      obtain ⟨hmem, hid⟩ := Finset.mem_filter.mp hk
      exact hlt k hmem hid
    · intro hj
      obtain ⟨k, hk, rfl⟩ := honto j hj
      refine ⟨k, Finset.mem_filter.mpr ⟨hk, ?_⟩, rfl⟩
      by_contra hge
      exact Nat.not_le_of_lt hj (shift_mono h (Nat.le_of_not_lt hge))
  have hcard := Finset.card_image_of_injOn (hinj.mono (Finset.filter_subset (· < id) kept))
  rw [himage, Finset.card_range] at hcard
  exact hcard.symm

/-- The identities that are kept and those that are left out are all below a bound. -/
theorem card_add_countP {kept : Finset Nat} {other : List Nat} {bound id : Nat}
    (ho : other.Nodup) (hall : ∀ k, k < bound ↔ k ∈ kept ∨ k ∈ other)
    (hdisj : ∀ k ∈ kept, k ∉ other) (hid : id ≤ bound) :
    (kept.filter (· < id)).card + other.countP (· < id) = id := by
  have hother : other.countP (· < id) = (other.toFinset.filter (· < id)).card := by
    rw [List.countP_eq_length_filter, ← List.toFinset_card_of_nodup (ho.filter _),
      List.toFinset_filter]
    simp
  have hdisjoint : Disjoint (kept.filter (· < id)) (other.toFinset.filter (· < id)) := by
    rw [Finset.disjoint_left]
    intro k hk hk'
    exact hdisj k (Finset.mem_filter.mp hk).1 (List.mem_toFinset.mp (Finset.mem_filter.mp hk').1)
  have hunion : kept.filter (· < id) ∪ other.toFinset.filter (· < id) = Finset.range id := by
    ext k
    have hk := hall k
    simp only [Finset.mem_union, Finset.mem_filter, List.mem_toFinset, Finset.mem_range]
    constructor
    · rintro (⟨_, hlt⟩ | ⟨_, hlt⟩)
      · exact hlt
      · exact hlt
    · intro hlt
      rcases hk.mp (Nat.lt_of_lt_of_le hlt hid) with hmem | hmem
      · exact .inl ⟨hmem, hlt⟩
      · exact .inr ⟨hmem, hlt⟩
  rw [hother, ← Finset.card_union_of_disjoint hdisjoint, hunion, Finset.card_range]

/-- If the identities that are kept beside `other` move down onto an initial segment where
`dropped` are left out, then they move as if `other` were left out. -/
theorem shift_agree {other : List Nat} {kept : Finset Nat} {bound id : Nat} (h : dropped.Nodup)
    (ho : other.Nodup) (hall : ∀ k, k < bound ↔ k ∈ kept ∨ k ∈ other)
    (hdisj : ∀ k ∈ kept, k ∉ other) (hinj : Set.InjOn (shift dropped) kept)
    (honto : ∀ j, j < shift dropped bound ↔ ∃ k ∈ kept, shift dropped k = j)
    (hid : id ∈ kept ∨ id = bound) : shift dropped id = shift other id := by
  have hle : id ≤ bound := by
    rcases hid with hid | rfl
    · exact Nat.le_of_lt ((hall id).mpr (.inl hid))
    · exact Nat.le_refl _
  have hlt (k : Nat) (hk : k ∈ kept) (hbelow : k < id) : shift dropped k < shift dropped id := by
    rcases hid with hid | rfl
    · apply Nat.lt_of_le_of_ne (shift_mono h (Nat.le_of_lt hbelow))
      exact fun heq => Nat.ne_of_lt hbelow (hinj hk hid heq)
    · exact (honto _).mpr ⟨k, hk, rfl⟩
  have hinitial (j : Nat) (hj : j < shift dropped id) : ∃ k ∈ kept, shift dropped k = j :=
    (honto j).mp (Nat.lt_of_lt_of_le hj (shift_mono h hle))
  have hcard := shift_eq_card h hinj hlt hinitial
  have hsum := card_add_countP ho hall hdisj hle
  rw [← hcard, shift]
  omega

end PhpSyntax
