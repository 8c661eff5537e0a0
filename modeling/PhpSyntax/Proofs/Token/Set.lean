/-
What the packed sets of token kinds hold.

The bits of a word are counted one by one (`cpop_eq_countP`), so the three words have as many
bits as there are numbers with a bit (`countP_bit`).  In a `TokenSet` these are the numbers of
its kinds: its size is the length of the list of its members (`size_eq_length_toList`), which
has no kind twice.  A set is the set of that list (`ofList_toList`).
-/
import Mathlib.Data.List.Nodup
import PhpSyntax.Token.Set

namespace PhpSyntax

namespace TokenWords

theorem cpop_eq_countP {n : Nat} (w : BitVec n) :
    w.cpop.toNat = (List.range n).countP w.getLsbD := by
  have hlow : ∀ i, w.cpopNatRec i 0 = (List.range i).countP w.getLsbD := by
    intro i
    induction i with
    | zero => rfl
    | succ i ih =>
      rw [BitVec.cpopNatRec_succ, BitVec.cpopNatRec_add, ih, List.range_succ, List.countP_append,
        List.countP_singleton]
      cases w.getLsbD i <;> rfl
  rw [BitVec.toNat_cpop, hlow]

theorem bit_word (v : TokenWords) {j i : Nat} (hj : j < 3) (hi : i < 64) :
    bit v (64 * j + i) = v[j].getLsbD i := by
  have hdiv : (64 * j + i) / 64 = j := by omega
  have hmod : (64 * j + i) % 64 = i := by omega
  simp [bit, hdiv, hmod, hj]

/-- One word more has its own bits more. -/
theorem countP_bit_succ (v : TokenWords) {j : Nat} (hj : j < 3) :
    (List.range (64 * (j + 1))).countP (bit v) =
      (List.range (64 * j)).countP (bit v) + v[j].cpop.toNat := by
  rw [Nat.mul_succ, List.range_add, List.countP_append, List.countP_map, cpop_eq_countP]
  congr 1
  refine List.countP_congr fun i hi => ?_
  rw [Function.comp_apply, bit_word v hj (List.mem_range.mp hi)]

theorem countP_bit (v : TokenWords) : (List.range (64 * 3)).countP (bit v) = v.ones := by
  have hnone : (List.range (64 * 0)).countP (bit v) = 0 := rfl
  rw [countP_bit_succ v (by decide), countP_bit_succ v (by decide), countP_bit_succ v (by decide),
    hnone, Nat.zero_add, ones]

end TokenWords

namespace TokenSet

theorem mem_toList {s : TokenSet} {k : TokenKind} : k ∈ s.toList ↔ k ∈ s := by
  rw [toList, List.mem_filter, mem_iff]
  exact and_iff_right k.mem_all

theorem nodup_toList (s : TokenSet) : s.toList.Nodup := by
  refine List.Nodup.filter _ (List.Nodup.map_on ?_ List.nodup_range)
  intro i hi j hj hkind
  rw [← TokenKind.index_ofNat i (List.mem_range.mp hi), hkind,
    TokenKind.index_ofNat j (List.mem_range.mp hj)]

/-- Every set is made of a list. -/
theorem ofList_toList (s : TokenSet) : ofList s.toList = s :=
  ext fun _ => mem_ofList.trans mem_toList

theorem size_eq_length_toList (s : TokenSet) : s.size = s.toList.length := by
  have hkinds : s.toList.length = (List.range TokenKind.count).countP s.words.bit := by
    rw [toList, ← List.countP_eq_length_filter, TokenKind.all, List.countP_map]
    refine List.countP_congr fun i hi => ?_
    rw [Function.comp_apply, contains_eq_bit, TokenKind.index_ofNat i (List.mem_range.mp hi)]
  -- Behind the bits of the kinds there is none.
  obtain ⟨spare, hspare⟩ : ∃ spare, 64 * 3 = TokenKind.count + spare :=
    Nat.exists_eq_add_of_le (by decide)
  have hnone : ((List.range spare).map (TokenKind.count + ·)).countP s.words.bit = 0 := by
    rw [List.countP_eq_zero]
    intro i hi hbit
    obtain ⟨j, _, rfl⟩ := List.mem_map.mp hi
    exact absurd (s.lt_count _ hbit) (Nat.not_lt.mpr (Nat.le_add_right _ _))
  rw [size, ← TokenWords.countP_bit, hspare, List.range_add, List.countP_append, hnone, hkinds,
    Nat.add_zero]

theorem isEmpty_iff {s : TokenSet} : s.isEmpty = true ↔ s = empty := by
  constructor
  · intro h
    have hwords : ∀ j : Fin 3, s.words[j] = 0#64 := by
      simpa [isEmpty, Fin.forall_fin_succ, and_assoc] using h
    refine ext fun k => ?_
    rw [mem_iff, contains, hwords, BitVec.zero_and, bne_self_eq_false]
    exact iff_of_false Bool.false_ne_true (not_mem_empty k)
  · rintro rfl
    rfl

theorem isEmpty_iff_size {s : TokenSet} : s.isEmpty = true ↔ s.size = 0 := by
  rw [isEmpty_iff, size_eq_length_toList, List.length_eq_zero_iff, List.eq_nil_iff_forall_not_mem]
  constructor
  · rintro rfl k hk
    exact not_mem_empty k (mem_toList.mp hk)
  · intro hnone
    refine ext fun k => ?_
    exact iff_of_false (fun hk => hnone k (mem_toList.mpr hk)) (not_mem_empty k)

/-- A packed set is a set of token kinds.  The set of a list has the kinds of the list, also
where the list repeats itself; the empty set has none, one more kind is exactly that kind more,
and a union has what one of the two has.  The size is the number of distinct members, a set is
empty if its size is zero, two sets with the same members are the same words, and every set is
made of a list. -/
theorem packed_faithful :
    (∀ (ks : List TokenKind) (k : TokenKind), (ofList ks).contains k = true ↔ k ∈ ks) ∧
    (∀ k : TokenKind, empty.contains k = false) ∧
    (∀ (s : TokenSet) (j k : TokenKind),
      (s.insert j).contains k = true ↔ s.contains k = true ∨ k = j) ∧
    (∀ (s t : TokenSet) (k : TokenKind),
      (s.union t).contains k = true ↔ s.contains k = true ∨ t.contains k = true) ∧
    (∀ s : TokenSet, ∃ ks : List TokenKind, ks.Nodup ∧
      (∀ k, k ∈ ks ↔ s.contains k = true) ∧ s.size = ks.length ∧ s = ofList ks) ∧
    (∀ s : TokenSet, s.isEmpty = true ↔ s.size = 0) ∧
    ∀ s t : TokenSet, s.words = t.words ↔ ∀ k, s.contains k = t.contains k := by
  refine ⟨fun _ _ => mem_ofList, fun k => Bool.eq_false_iff.mpr (not_mem_empty k),
    fun _ _ _ => mem_insert, fun _ _ _ => mem_union, ?size, fun _ => isEmpty_iff_size, ?same⟩
  case size =>
    intro s
    exact ⟨s.toList, s.nodup_toList, fun _ => mem_toList, s.size_eq_length_toList,
      s.ofList_toList.symm⟩
  case same =>
    intro s t
    constructor
    · intro hwords k
      rw [contains, contains, hwords]
    · intro hcontains
      exact congrArg words (ext fun k => by rw [mem_iff, mem_iff, hcontains k])

end TokenSet
end PhpSyntax
