/-
Sets of token kinds.

A set is packed into three words of 64 bits.  The kind with the index `i` has the bit
`i % 64` of the word `i / 64`, so membership is one bit test, and union is one bitwise
operation for each word.  Counted through the words, the bits of the kinds come first;
a `TokenSet` has no bit behind them.

`mem_ofList`, `mem_insert` and `mem_union` say what the operations do to membership, and
`ext` that a set is determined by it.
-/
import PhpSyntax.Token.Kind

namespace PhpSyntax

namespace TokenKind

/-- The number of the word that has the bit of a kind. -/
def word (k : TokenKind) : Fin 3 :=
  ⟨k.index / 64, Nat.div_lt_of_lt_mul (Nat.lt_of_lt_of_le k.index_lt_count (by decide))⟩

/-- A word with the bit of a kind and no other. -/
def mask (k : TokenKind) : BitVec 64 := 1#64 <<< (k.index % 64)

theorem mask_eq_twoPow (k : TokenKind) : k.mask = BitVec.twoPow 64 (k.index % 64) := rfl

theorem mask_ne_zero (k : TokenKind) : k.mask ≠ 0#64 := by
  intro hzero
  have hown : k.mask.getLsbD (k.index % 64) = true := by
    simp [mask_eq_twoPow, Nat.mod_lt]
  rw [hzero, BitVec.getLsbD_zero] at hown
  cases hown

end TokenKind

abbrev TokenWords := Vector (BitVec 64) 3

namespace TokenWords

/-- The bit with the number `i`, counted through the words. -/
def bit (v : TokenWords) (i : Nat) : Bool := (v[i / 64]?.getD 0#64).getLsbD (i % 64)

def ones (v : TokenWords) : Nat := v[0].cpop.toNat + v[1].cpop.toNat + v[2].cpop.toNat

def setKind (v : TokenWords) (k : TokenKind) : TokenWords := v.set k.word (v[k.word] ||| k.mask)

theorem bit_replicate_zero (i : Nat) : bit (Vector.replicate 3 0#64) i = false := by
  simp only [bit, Vector.getElem?_replicate]
  split <;> simp

theorem bit_zipWith_or (v w : TokenWords) (i : Nat) :
    bit (v.zipWith (· ||| ·) w) i = (bit v i || bit w i) := by
  by_cases h : i / 64 < 3 <;> simp [bit, h]

theorem bit_index (v : TokenWords) (k : TokenKind) :
    bit v k.index = v[k.word].getLsbD (k.index % 64) := by
  have h : k.index / 64 < 3 := k.word.isLt
  simp [bit, h, TokenKind.word]

theorem bit_setKind (v : TokenWords) (k : TokenKind) (i : Nat) :
    bit (v.setKind k) i = (bit v i || decide (i = k.index)) := by
  have h : k.index / 64 < 3 := k.word.isLt
  have hmod : k.index % 64 < 64 := Nat.mod_lt _ (by decide)
  have hindex : i = k.index ↔ k.index / 64 = i / 64 ∧ k.index % 64 = i % 64 := by omega
  by_cases hword : k.index / 64 = i / 64
  · simp [bit, setKind, TokenKind.word, TokenKind.mask_eq_twoPow, ← hword, h, hmod, hindex]
  · simp [bit, setKind, TokenKind.word, hword, hindex]

/-- Words are determined by their bits. -/
theorem ext {v w : TokenWords} (h : ∀ i, bit v i = bit w i) : v = w := by
  refine Vector.ext fun j hj => BitVec.eq_of_getLsbD_eq fun i hi => ?_
  have hbit := h (64 * j + i)
  have hdiv : (64 * j + i) / 64 = j := by omega
  have hmod : (64 * j + i) % 64 = i := by omega
  simpa [bit, hdiv, hmod, hj] using hbit

end TokenWords

/-- A set of token kinds.  Bit `k.index`, counted through the words, tells whether `k` belongs
to it. -/
structure TokenSet where
  words : TokenWords
  lt_count : ∀ i, words.bit i = true → i < TokenKind.count
deriving DecidableEq, Repr

namespace TokenSet

def empty : TokenSet where
  words := Vector.replicate 3 0#64
  lt_count i h := by
    rw [TokenWords.bit_replicate_zero] at h
    cases h

instance : Inhabited TokenSet := ⟨empty⟩

def insert (s : TokenSet) (k : TokenKind) : TokenSet where
  words := s.words.setKind k
  lt_count i h := by
    rw [TokenWords.bit_setKind, Bool.or_eq_true, decide_eq_true_eq] at h
    exact h.elim (s.lt_count i) fun hi => hi ▸ k.index_lt_count

def ofList (ks : List TokenKind) : TokenSet := ks.foldl insert empty

def union (s t : TokenSet) : TokenSet where
  words := s.words.zipWith (· ||| ·) t.words
  lt_count i h := by
    rw [TokenWords.bit_zipWith_or, Bool.or_eq_true] at h
    exact h.elim (s.lt_count i) (t.lt_count i)

def contains (s : TokenSet) (k : TokenKind) : Bool := s.words[k.word] &&& k.mask != 0#64

def isEmpty (s : TokenSet) : Bool :=
  s.words[0] == 0#64 && s.words[1] == 0#64 && s.words[2] == 0#64

def size (s : TokenSet) : Nat := s.words.ones

def toList (s : TokenSet) : List TokenKind := TokenKind.all.filter s.contains

instance : Membership TokenKind TokenSet := ⟨fun s k => s.contains k = true⟩

theorem mem_iff {s : TokenSet} {k : TokenKind} : k ∈ s ↔ s.contains k = true := Iff.rfl

instance (k : TokenKind) (s : TokenSet) : Decidable (k ∈ s) :=
  inferInstanceAs (Decidable (s.contains k = true))

theorem contains_eq_bit (s : TokenSet) (k : TokenKind) : s.contains k = s.words.bit k.index := by
  rw [TokenWords.bit_index, contains, TokenKind.mask_eq_twoPow, BitVec.and_twoPow,
    ← TokenKind.mask_eq_twoPow]
  split
  · next h => rw [h, bne_iff_ne]; exact k.mask_ne_zero
  · next h => rw [bne_self_eq_false, Bool.eq_false_iff.mpr h]

@[simp] theorem not_mem_empty (k : TokenKind) : ¬ k ∈ empty := by
  simp [mem_iff, contains_eq_bit, empty, TokenWords.bit_replicate_zero]

@[simp] theorem mem_insert {s : TokenSet} {j k : TokenKind} : k ∈ s.insert j ↔ k ∈ s ∨ k = j := by
  have h : k.index = j.index ↔ k = j := ⟨TokenKind.index_injective, congrArg _⟩
  simp only [mem_iff, contains_eq_bit, insert, TokenWords.bit_setKind, Bool.or_eq_true,
    decide_eq_true_eq, h]

theorem mem_foldl_insert {ks : List TokenKind} {s : TokenSet} {k : TokenKind} :
    k ∈ ks.foldl insert s ↔ k ∈ s ∨ k ∈ ks := by
  induction ks generalizing s with
  | nil => simp
  | cons j ks ih => simp [ih, or_assoc]

@[simp] theorem mem_ofList {ks : List TokenKind} {k : TokenKind} : k ∈ ofList ks ↔ k ∈ ks := by
  simp [ofList, mem_foldl_insert]

@[simp] theorem mem_union {s t : TokenSet} {k : TokenKind} : k ∈ s.union t ↔ k ∈ s ∨ k ∈ t := by
  simp [mem_iff, contains_eq_bit, union, TokenWords.bit_zipWith_or]

/-- A set is determined by its members. -/
theorem ext {s t : TokenSet} (h : ∀ k, k ∈ s ↔ k ∈ t) : s = t := by
  obtain ⟨v, hv⟩ := s
  obtain ⟨w, hw⟩ := t
  congr
  refine TokenWords.ext fun i => ?_
  by_cases hi : i < TokenKind.count
  · have hk := h (TokenKind.ofNat i)
    simp only [mem_iff, contains_eq_bit, TokenKind.index_ofNat i hi] at hk
    exact Bool.eq_iff_iff.mpr hk
  · rw [Bool.eq_false_iff.mpr fun hbit => hi (hv i hbit),
      Bool.eq_false_iff.mpr fun hbit => hi (hw i hbit)]

end TokenSet
end PhpSyntax
