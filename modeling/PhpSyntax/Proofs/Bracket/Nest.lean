/-
Brackets, braces and parentheses.

From token to token a list says what is still open: for each opening mark the mark that closes
it, the innermost one first (`TokenKind.nest`).  A brace also closes what has been left open
inside it, since what stands in a group of braces that is kept as it is written need not be
balanced.

A passage of tokens leads from what is open in front of it to what is open behind it
(`Nests`), and never closes what it has not opened, apart from what is listed.  So marks that are
open around a passage stay open (`Nests.frame`).  The tokens between two commas with nothing open
around them are a slot (`Token.slots`).
-/
import PhpSyntax.Token.Basic
import PhpSyntax.Token.Set
import Mathlib.Data.List.TakeWhile

namespace PhpSyntax

/-! ## What is open -/

namespace TokenKind

def opening : List TokenKind := [.lParen, .lBracket, .lBrace]

def closing : List TokenKind := [.rParen, .rBracket, .rBrace]

def mate : TokenKind → TokenKind
  | .lParen => .rParen
  | .lBracket => .rBracket
  | _ => .rBrace

/-- The marks between items and behind statements. -/
def stops : List TokenKind := [.comma, .semicolon]

/-- What closing marks are awaited behind a token, if those in `awaited` are in front of it. -/
def nest (k : TokenKind) (awaited : List TokenKind) : List TokenKind :=
  match k with
  | .lParen | .lBracket | .lBrace => k.mate :: awaited
  | .rBrace => (awaited.dropWhile (· ≠ .rBrace)).tail
  | .rParen | .rBracket => if awaited.head? = some k then awaited.tail else awaited
  | _ => awaited

def punctuation : List TokenKind := .eof :: opening ++ closing ++ stops

def isFlat (k : TokenKind) : Bool := decide (k ∉ punctuation)

variable {k : TokenKind} {awaited base : List TokenKind}

/-- Opening marks and others do the same whatever is awaited. -/
theorem nest_of_not_closing (h : k ∉ closing) : k.nest awaited = k.nest [] ++ awaited := by
  cases k with
  | rParen | rBracket | rBrace => simp [closing] at h
  | _ => rfl

theorem not_mem_of_isFlat (h : k.isFlat = true) :
    k ≠ .eof ∧ k ∉ closing ∧ k ∉ stops ∧ k ≠ .rBrace := by
  have hk : k ∉ punctuation := of_decide_eq_true h
  have hnot {ks : List TokenKind} (hks : ks ⊆ punctuation) : k ∉ ks := fun hin => hk (hks hin)
  exact ⟨fun e => hk (by rw [e]; decide), hnot (by decide), hnot (by decide),
    fun e => hk (by rw [e]; decide)⟩

theorem not_mem_of_mem_opening (h : k ∈ opening) :
    k ≠ .eof ∧ k ∉ closing ∧ k ∉ stops ∧ k ≠ .rBrace := by
  have hall : ∀ j ∈ opening, j ≠ .eof ∧ j ∉ closing ∧ j ∉ stops ∧ j ≠ .rBrace := by decide
  exact hall k h

theorem not_mem_of_mem_stops (h : k ∈ stops) : k ≠ .eof ∧ k ∉ closing ∧ k ≠ .rBrace := by
  have hall : ∀ j ∈ stops, j ≠ .eof ∧ j ∉ closing ∧ j ≠ .rBrace := by decide
  exact hall k h

theorem nest_of_isFlat (h : k.isFlat = true) : k.nest awaited = awaited := by
  have hk : k ∉ punctuation := of_decide_eq_true h
  cases k with
  | lParen | lBracket | lBrace | rParen | rBracket | rBrace =>
    simp [punctuation, opening, closing] at hk
  | _ => rfl

theorem isFlat_of_some {α : Type} {f : TokenKind → Option α} {a : α}
    (hf : ∀ j ∈ punctuation, (f j).isNone = true) (h : f k = some a) : k.isFlat = true := by
  refine decide_eq_true fun hk => ?_
  have hnone := hf k hk
  rw [h] at hnone
  cases hnone

theorem nest_of_mem_stops (h : k ∈ stops) : k.nest awaited = awaited := by
  have hk : k = .comma ∨ k = .semicolon := by simpa [stops] using h
  rcases hk with rfl | rfl
  · rfl
  · rfl

theorem nest_open (h : k ∈ opening) : k.nest awaited = k.mate :: awaited := by
  have hk : k = .lParen ∨ k = .lBracket ∨ k = .lBrace := by simpa [opening] using h
  rcases hk with rfl | rfl | rfl
  · rfl
  · rfl
  · rfl

/-- The mark that is awaited first closes what it closes. -/
theorem nest_close (h : k ∈ closing) : k.nest (k :: awaited) = awaited := by
  have hk : k = .rParen ∨ k = .rBracket ∨ k = .rBrace := by simpa [closing] using h
  rcases hk with rfl | rfl | rfl
  · rfl
  · rfl
  · rfl

/-- What is open around a passage stays open, unless a mark closes more than is open in it. -/
theorem nest_append (hbrace : k = .rBrace → .rBrace ∈ awaited)
    (hempty : awaited = [] → k ∉ closing) :
    k.nest (awaited ++ base) = k.nest awaited ++ base := by
  by_cases hk : k ∈ closing
  · have hne : awaited ≠ [] := fun e => hempty e hk
    obtain ⟨first, rest, rfl⟩ := List.exists_cons_of_ne_nil hne
    have hcases : k = .rParen ∨ k = .rBracket ∨ k = .rBrace := by simpa [closing] using hk
    have hsame (hone : k = .rParen ∨ k = .rBracket) :
        k.nest (first :: rest ++ base) = k.nest (first :: rest) ++ base := by
      have hnest (ks : List TokenKind) :
          k.nest ks = if ks.head? = some k then ks.tail else ks := by
        rcases hone with rfl | rfl
        · rfl
        · rfl
      rw [hnest, hnest]
      by_cases hfirst : first = k
      · rw [if_pos (by simp [hfirst]), if_pos (by simp [hfirst])]
        rfl
      · rw [if_neg (by simp [hfirst]), if_neg (by simp [hfirst])]
    rcases hcases with e | e | rfl
    · exact hsame (Or.inl e)
    · exact hsame (Or.inr e)
    · have hin := hbrace rfl
      show ((first :: rest ++ base).dropWhile (· ≠ .rBrace)).tail =
        ((first :: rest).dropWhile (· ≠ .rBrace)).tail ++ base
      have hsome : (first :: rest).dropWhile (· ≠ .rBrace) ≠ [] := by
        intro e
        simpa using (List.dropWhile_eq_nil_iff.mp e) .rBrace hin
      rw [List.dropWhile_append, if_neg (by simpa [List.isEmpty_iff] using hsome),
        List.tail_append_of_ne_nil hsome]
  · have hinner : k.nest awaited = k.nest [] ++ awaited := nest_of_not_closing hk
    rw [nest_of_not_closing hk, hinner, List.append_assoc]

end TokenKind

theorem TokenSet.isFlat {c : TokenSet} {k : TokenKind} (h : c.contains k = true)
    (hc : ∀ j ∈ TokenKind.punctuation, c.contains j = false) : k.isFlat = true := by
  refine decide_eq_true fun hk => ?_
  rw [hc k hk] at h
  cases h

/-! ## Passages -/

/-- The tokens lead from the marks awaited in front of them to those awaited behind them, without
closing more.  If the passage is quiet, no comma and no semicolon stands where nothing is
awaited. -/
inductive Nests (quiet : Prop) : List TokenKind → List Token → List TokenKind → Prop
  | nil {awaited : List TokenKind} : Nests quiet awaited [] awaited
  | cons {awaited rest : List TokenKind} {t : Token} {ts : List Token}
    (hbrace : t.kind = .rBrace → .rBrace ∈ awaited)
    (hempty : awaited = [] → t.kind ∉ TokenKind.closing ∧ (quiet → t.kind ∉ TokenKind.stops))
    (h : Nests quiet (t.kind.nest awaited) ts rest) : Nests quiet awaited (t :: ts) rest

namespace Nests

variable {quiet calm : Prop} {awaited middle rest base : List TokenKind} {t : Token}
  {ts us : List Token}

theorem mono (h : Nests quiet awaited ts rest) (hq : calm → quiet) :
    Nests calm awaited ts rest := by
  induction h with
  | nil => exact .nil
  | cons hbrace hempty _ ih =>
    exact .cons hbrace (fun e => ⟨(hempty e).1, fun hcalm => (hempty e).2 (hq hcalm)⟩) ih

theorem append (h : Nests quiet awaited ts middle) (h' : Nests quiet middle us rest) :
    Nests quiet awaited (ts ++ us) rest := by
  induction h with
  | nil => exact h'
  | cons hbrace hempty _ ih => exact .cons hbrace hempty (ih h')

/-- A passage is quiet where something is open around it. -/
theorem frame (h : Nests quiet awaited ts rest) (hbase : base ≠ []) :
    Nests calm (awaited ++ base) ts (rest ++ base) := by
  induction h with
  | nil => exact .nil
  | cons hbrace hempty _ ih =>
    refine .cons (fun hk => List.mem_append_left _ (hbrace hk)) (fun e => ?_) ?_
    · exact absurd (List.append_eq_nil_iff.mp e).2 hbase
    · rw [TokenKind.nest_append hbrace fun e => (hempty e).1]
      exact ih

/-- A passage whatever is open around it. -/
theorem around (h : Nests quiet awaited ts rest) (base : List TokenKind) :
    Nests (base = [] → quiet) (awaited ++ base) ts (rest ++ base) := by
  by_cases hbase : base = []
  · subst hbase
    rw [List.append_nil, List.append_nil]
    exact h.mono fun hq => hq rfl
  · exact h.frame hbase

end Nests

/-! ## Groups of braces -/

def TokenKind.braces (k : TokenKind) (depth : Nat) : Nat :=
  match k with
  | .lBrace => depth + 1
  | .rBrace => depth - 1
  | _ => depth

/-- As many braces are open as the number says, with other marks that are left open inside. -/
inductive Deep : Nat → List TokenKind → Prop
  | nil : Deep 0 []
  | brace {depth : Nat} {awaited : List TokenKind} (h : Deep depth awaited) :
    Deep (depth + 1) (.rBrace :: awaited)
  | loose {depth : Nat} {awaited : List TokenKind} {k : TokenKind} (h : Deep (depth + 1) awaited)
    (hk : k ≠ .rBrace) : Deep (depth + 1) (k :: awaited)

namespace Deep

variable {depth : Nat} {awaited : List TokenKind} {k : TokenKind}

theorem eq_nil (h : Deep 0 awaited) : awaited = [] := by
  cases h
  rfl

theorem ne_nil (h : Deep (depth + 1) awaited) : awaited ≠ [] := by
  cases h with
  | brace | loose => exact List.cons_ne_nil _ _

theorem brace_mem (h : Deep (depth + 1) awaited) : .rBrace ∈ awaited := by
  generalize hd : depth + 1 = d at h
  induction h with
  | nil => cases hd
  | brace => exact List.mem_cons_self
  | loose _ _ ih => exact List.mem_cons_of_mem _ (ih hd)

/-- A closing brace closes the innermost brace and what is left open inside it. -/
theorem close (h : Deep (depth + 1) awaited) : Deep depth (TokenKind.rBrace.nest awaited) := by
  generalize hd : depth + 1 = d at h
  induction h with
  | nil => cases hd
  | brace h =>
    cases hd
    exact h
  | @loose _ awaited k _ hk ih =>
    show Deep depth (((k :: awaited).dropWhile (· ≠ .rBrace)).tail)
    rw [List.dropWhile_cons_of_pos (by simpa using hk)]
    exact ih hd

/-- Other tokens leave as many braces open. -/
theorem other (h : Deep (depth + 1) awaited) (hopen : k ≠ .lBrace) (hclose : k ≠ .rBrace) :
    Deep (depth + 1) (k.nest awaited) := by
  have htail (hk : awaited.head? = some k) : Deep (depth + 1) awaited.tail := by
    cases h with
    | brace => exact absurd (Option.some.inj hk).symm hclose
    | loose h => exact h
  cases k with
  | lBrace => exact absurd rfl hopen
  | rBrace => exact absurd rfl hclose
  | lParen | lBracket => exact .loose h (by decide)
  | rParen | rBracket =>
    rw [TokenKind.nest]
    split
    · next hk => exact htail hk
    · exact h
  | _ => exact h

theorem nest (h : Deep depth awaited) (hopen : depth = 0 → k = .lBrace) :
    Deep (k.braces depth) (k.nest awaited) := by
  cases depth with
  | zero =>
    obtain rfl := hopen rfl
    exact .brace h
  | succ depth =>
    unfold TokenKind.braces
    split
    · exact .brace h
    · exact h.close
    · next hleft hright => exact h.other hleft hright

/-- Where a group is read, a mark closes something in it. -/
theorem closes (h : Deep depth awaited) (hopen : depth = 0 → k = .lBrace) :
    (k = .rBrace → .rBrace ∈ awaited) ∧
      (awaited = [] → k ∉ TokenKind.closing ∧ k ∉ TokenKind.stops) := by
  cases depth with
  | zero =>
    obtain rfl := hopen rfl
    exact ⟨nofun, fun _ => by decide⟩
  | succ depth => exact ⟨fun _ => h.brace_mem, fun e => absurd e h.ne_nil⟩

end Deep

/-! ## Slots -/

namespace Token

def slotsFrom (awaited : List TokenKind) : List Token → List (List Token)
  | [] => [[]]
  | t :: ts =>
    if t.kind = .comma ∧ awaited = [] then [] :: slotsFrom awaited ts
    else (slotsFrom (t.kind.nest awaited) ts).modifyHead (t :: ·)

/-- The slots of a list: the tokens cut at the commas that no brackets, braces or parentheses
enclose, less one last slot that is empty. -/
def slots (ts : List Token) : List (List Token) :=
  if (slotsFrom [] ts).getLast? = some [] then (slotsFrom [] ts).dropLast else slotsFrom [] ts

variable {awaited rest : List TokenKind} {ts us : List Token} {t : Token}

theorem slotsFrom_ne_nil (awaited : List TokenKind) (ts : List Token) :
    slotsFrom awaited ts ≠ [] := by
  induction ts generalizing awaited with
  | nil => exact List.cons_ne_nil _ _
  | cons t ts ih =>
    rw [slotsFrom]
    split
    · exact List.cons_ne_nil _ _
    · simpa using ih _

/-- A quiet passage belongs to one slot. -/
theorem slotsFrom_append (h : Nests True awaited ts rest) (us : List Token) :
    slotsFrom awaited (ts ++ us) = (slotsFrom rest us).modifyHead (ts ++ ·) := by
  induction h with
  | nil => exact (congrFun List.modifyHead_id _).symm
  | @cons awaited rest t ts hbrace hempty _ ih =>
    have hnext : ¬(t.kind = .comma ∧ awaited = []) := by
      rintro ⟨hk, hawaited⟩
      exact (hempty hawaited).2 trivial (by simp [TokenKind.stops, hk])
    rw [List.cons_append, slotsFrom, if_neg hnext, ih, List.modifyHead_modifyHead]
    rfl

theorem slotsFrom_comma (ht : t.kind = .comma) (ts : List Token) :
    slotsFrom [] (t :: ts) = [] :: slotsFrom [] ts := by
  rw [slotsFrom, if_pos ⟨ht, rfl⟩]

/-- What is in front of a comma is a slot. -/
theorem slots_comma (h : Nests True [] ts []) (ht : t.kind = .comma) (us : List Token) :
    slots (ts ++ t :: us) = ts :: slots us := by
  have hcut : slotsFrom [] (ts ++ t :: us) = ts :: slotsFrom [] us := by
    rw [slotsFrom_append h, slotsFrom_comma ht, List.modifyHead_cons, List.append_nil]
  obtain ⟨first, more, hmore⟩ := List.exists_cons_of_ne_nil (slotsFrom_ne_nil [] us)
  rw [slots, slots, hcut, hmore, List.getLast?_cons_cons]
  split
  · rw [List.dropLast_cons_cons]
  · rfl

/-- What is behind the last comma is a slot if there is something. -/
theorem slots_last (h : Nests True [] ts []) (hne : ts ≠ []) : slots ts = [ts] := by
  have hcut : slotsFrom [] ts = [ts] := by
    have happend := slotsFrom_append h []
    rw [List.append_nil] at happend
    rw [happend]
    simp [slotsFrom]
  rw [slots, hcut, if_neg (by simpa using hne)]

end Token
end PhpSyntax
