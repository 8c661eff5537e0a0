/-
A formula is read back as the tree that it was written from.

What stands behind a formula is an operator, or a parenthesis, colon or semicolon that ends it,
so an operand ends with its last token.  The operators behind an operand are read as long as
they are tight enough.  By induction on the formula, with what will be read behind it left open
(`Formula.Readable`): reading a formula from a least precedence on comes to its tree in front of
what follows, where the operators are read that are no part of it.  The least precedence only
grows on the way down to the right, and what follows stops at each of them.
-/
import PhpSyntax.Parse.Machine
import PhpSyntax.Proofs.Formula.Lexing
import PhpSyntax.Proofs.Formula.Reads
import PhpSyntax.Proofs.Precedence.Table

namespace PhpSyntax

/-! ## What stands behind a formula -/

namespace TokenKind

def isFollower (k : TokenKind) : Bool := (Infix.ofToken? k).isSome || k ∈ [rParen, colon, semicolon]

def StopsAt (k : TokenKind) (min : Nat) : Prop :=
  ∀ op, Infix.ofToken? k = some op → op.precedence < min

theorem StopsAt.mono {k : TokenKind} {m n : Nat} (h : k.StopsAt m) (hmn : m ≤ n) : k.StopsAt n :=
  fun op hop => Nat.lt_of_lt_of_le (h op hop) hmn

/-- No assignment and no update begins behind a formula. -/
theorem ofToken?_of_isFollower {k : TokenKind} (h : k.isFollower = true) :
    AssignOp.ofToken? k = none ∧ UpdateOp.ofToken? k = none := by
  have hall : ∀ j ∈ all, j.isFollower = true →
      AssignOp.ofToken? j = none ∧ UpdateOp.ofToken? j = none := by decide +kernel
  exact hall k (mem_all k) h

end TokenKind

namespace Infix

theorem ofToken?_token (op : Infix) : ofToken? op.token.1 = some op := by
  cases op with
  | binary op => cases op <;> decide
  | coalesce => rfl
  | ternary => rfl

theorem isFollower_token (op : Infix) : op.token.1.isFollower = true := by
  rw [TokenKind.isFollower, ofToken?_token]
  rfl

theorem leftMin_le_of_admitsLeft {op q : Infix} (h : op.admitsLeft q = true) :
    op.leftMin ≤ q.precedence := by
  rw [admitsLeft, Bool.or_eq_true, Bool.and_eq_true, decide_eq_true_eq, decide_eq_true_eq,
    Bool.not_eq_true'] at h
  rw [leftMin]
  rcases h with hlt | ⟨heq, hleft⟩
  · split <;> omega
  · rw [hleft, if_neg Bool.false_ne_true, heq]

theorem rightMin_le_of_admitsRight {op q : Infix} (h : op.admitsRight q = true) :
    op.rightMin ≤ q.precedence := by
  rw [admitsRight, Bool.or_eq_true, Bool.and_eq_true, decide_eq_true_eq, decide_eq_true_eq] at h
  rw [rightMin]
  rcases h with hlt | ⟨heq, hright⟩
  · split <;> omega
  · rw [hright, if_pos rfl, heq]

theorem precedence_le_leftMin (op : Infix) : op.precedence ≤ op.leftMin := by
  rw [leftMin]
  split <;> omega

theorem precedence_le_rightMin (op : Infix) : op.precedence ≤ op.rightMin := by
  rw [rightMin]
  split <;> omega

/-- What may stand to the left of an operator is not continued by it. -/
theorem stopsAt_of_leftMin_le {op q : Infix} (h : op.leftMin ≤ q.precedence) :
    op.token.1.StopsAt q.rightMin := by
  intro p hp
  rw [ofToken?_token] at hp
  cases hp
  rw [leftMin] at h
  rw [rightMin]
  split at h
  · split <;> omega
  · next hleft =>
    split
    · next hright =>
      have hop := mt op.isRightAssoc_iff.mpr hleft
      have hq := q.isRightAssoc_iff.mp hright
      omega
    · omega

end Infix

namespace Grammar
open PhpSyntax.Parser

variable {k : TokenKind} {w : String} {fs : List (TokenKind × String)}

/-! ## Operands -/

theorem lookups_reads (hk : k.isFollower = true) (n : Node) (readOnly : Bool) {V : Node → Prop}
    (hn : V n) : Reads (call (.lookups n readOnly)) ((k, w) :: fs) V ((k, w) :: fs) := by
  have hnone : Reads (lookup? n readOnly) ((k, w) :: fs) (· = none) ((k, w) :: fs) := by
    refine .kind ?_
    split
    case h_6 => exact .pure rfl
    all_goals cases hk
  refine .call (.bind hnone fun m hm => ?_)
  subst hm
  exact .pure hn

theorem withoutDollar_append (name : String) : withoutDollar ("$" ++ name) = name := by
  rw [withoutDollar, String.toList_append]
  exact String.ofList_toList

theorem variable_reads (hk : k.isFollower = true) (name : String) :
    Reads operand ((.variable, "$" ++ name) :: (k, w) :: fs)
      (fun n => n.unplaced = ⟨default, .variable (.named name)⟩) ((k, w) :: fs) := by
  obtain ⟨hassign, hupdate⟩ := TokenKind.ofToken?_of_isFollower hk
  have hsimple : Reads (call .simpleVariable) ((.variable, "$" ++ name) :: (k, w) :: fs)
      (fun n => n.unplaced = ⟨default, .variable (.named name)⟩) ((k, w) :: fs) := by
    refine .call (.openNode fun o ho => .kind (.text (.advance (List.cons_ne_nil _ _) ?_)))
    rw [withoutDollar_append]
    exact .finish ho rfl
  have htarget : Reads (call (.variable false)) ((.variable, "$" ++ name) :: (k, w) :: fs)
      (fun n => n.unplaced = ⟨default, .variable (.named name)⟩) ((k, w) :: fs) := by
    exact .call (.kind (.bind hsimple fun n hn => lookups_reads hk n false hn))
  have hassignable : Reads assignable ((.variable, "$" ++ name) :: (k, w) :: fs)
      (fun n => n.unplaced = ⟨default, .variable (.named name)⟩) ((k, w) :: fs) := by
    refine .bind htarget fun n hn => .kind ?_
    rw [hassign, hupdate]
    exact .pure hn
  exact .kind (.isIn hassignable)

theorem integer_reads (digits : String) :
    Reads operand ((.lNumber, digits) :: (k, w) :: fs)
      (fun n => n.unplaced = ⟨default, .number digits⟩) ((k, w) :: fs) := by
  have hscalar : Reads scalar ((.lNumber, digits) :: (k, w) :: fs)
      (fun n => n.unplaced = ⟨default, .number digits⟩) ((k, w) :: fs) := by
    refine .kind (.text (.openNode fun o ho => .advance (List.cons_ne_nil _ _) ?_))
    exact .finish ho rfl
  refine .kind (.isIn (.isIn (.isAt (.bind hscalar fun n hn => .isAt ?_))))
  obtain ⟨info, p⟩ := n
  have hproduction : p.map Node.unplaced = .number digits :=
    (Node.production_unplaced _).symm.trans (congrArg Node.production hn)
  -- Nothing is looked up in a number.
  cases p with
  | number raw => exact .pure hn
  | _ => cases hproduction

theorem parenthesis_reads (hk : k.isFollower = true) {ts : List (TokenKind × String)} {m : Node}
    (hinner : Reads (call (.expression 0)) (ts ++ (.rParen, ")") :: (k, w) :: fs)
      (fun n => n.unplaced = m) ((.rParen, ")") :: (k, w) :: fs)) :
    Reads operand ((.lParen, "(") :: (ts ++ (.rParen, ")") :: (k, w) :: fs))
      (fun n => n.unplaced = ⟨default, .parenthesis m⟩) ((k, w) :: fs) := by
  refine .kind (.openNode fun o ho => .advance (by simp) (.bind hinner fun n hn => ?_))
  have hfinish : (Production.parenthesis n).map Node.unplaced = .parenthesis m :=
    congrArg Production.parenthesis hn
  exact .require (List.cons_ne_nil _ _)
    (.bind (.finish ho hfinish) fun n' hn' => lookups_reads hk n' false hn')

/-! ## Operators -/

variable {gs us : List (TokenKind × String)} {V : Node → Prop} {min : Nat}

/-- Where no operator is tight enough, what has been read is the expression. -/
theorem infixes_stop (hk : k.StopsAt min) {n : Node} (hn : V n) :
    Reads (infixes min n) ((k, w) :: fs) V ((k, w) :: fs) := by
  refine .kind ?_
  cases hop : Infix.ofToken? k with
  | none => exact .pure hn
  | some op =>
    simp only [if_pos (hk op hop)]
    exact .pure hn

/-- An operator that is tight enough takes what has been read to its left. -/
theorem infixes_step {op : Infix} (hop : Infix.ofToken? k = some op) (hmin : min ≤ op.precedence)
    {left : Node} {q : Production Node}
    (hoperation : Reads (infixOperation op left) ((k, w) :: fs)
      (fun p => p.map Node.unplaced = q) gs)
    (hrest : ∀ n : Node, n.unplaced = ⟨default, q⟩ → Reads (infixes min n) gs V us) :
    Reads (infixes min left) ((k, w) :: fs) V us := by
  refine .kind ?_
  simp only [hop, if_neg (Nat.not_lt.mpr hmin)]
  refine .openAt fun o ho => .bind hoperation fun p hp => ?_
  exact .bind (.finish ho hp) fun n hn => .call (hrest n hn)

/-- What stands to the right of an operator follows it. -/
theorem operation_reads (op : Infix) {left : Node} {l r : Node} (hleft : left.unplaced = l)
    (hfs : fs ≠ [])
    (hright : Reads (call (.expression op.rightMin)) fs (fun n => n.unplaced = r) gs) :
    Reads (infixOperation op left) (op.token :: (op.rest ++ fs))
      (fun p => p.map Node.unplaced = op.production l r) gs := by
  subst hleft
  cases op with
  | binary op =>
    have hoperation : Reads (do
        advance
        return Production.bin op left (← call (.expression (Infix.binary op).rightMin)))
        ((Infix.binary op).token :: fs)
        (fun p => p.map Node.unplaced = .bin op left.unplaced r) gs :=
      .advance hfs (.bind hright fun n hn => .pure (congrArg _ hn))
    by_cases hspaceship : op = .spaceship
    · rw [infixOperation, if_pos hspaceship]
      exact .requireOption rfl hoperation
    · rw [infixOperation, if_neg hspaceship]
      exact hoperation
  | coalesce =>
    refine .requireOption rfl (.advance hfs (.bind hright fun n hn => .pure ?_))
    exact congrArg (Production.coalesce _) hn
  | ternary =>
    refine .advance (List.cons_ne_nil _ _) (.eat hfs (.bind hright fun n hn => .pure ?_))
    exact congrArg (Production.ternary _ none) hn

/-- What stands in the middle of the conditional operator ends at the colon. -/
theorem choice_reads {left : Node} {l m r : Node} (hleft : left.unplaced = l)
    {ts : List (TokenKind × String)} {e : TokenKind × String} (he : e.1 ≠ .colon)
    (hfs : fs ≠ [])
    (hmiddle : Reads (call (.expression 0)) (e :: (ts ++ (.colon, ":") :: fs))
      (fun n => n.unplaced = m) ((.colon, ":") :: fs))
    (hright : Reads (call (.expression Infix.ternary.rightMin)) fs (fun n => n.unplaced = r) gs) :
    Reads (infixOperation .ternary left) ((.question, "?") :: e :: (ts ++ (.colon, ":") :: fs))
      (fun p => p.map Node.unplaced = .ternary l (some m) r) gs := by
  subst hleft
  refine .advance (List.cons_ne_nil _ _) (.eat_not he (.bind hmiddle fun middle hm => ?_))
  refine .require hfs (.bind hright fun right hr => .pure ?_)
  show Production.ternary _ (some middle.unplaced) _ = _
  rw [hm, hr]

end Grammar

/-! ## Formulas -/

open Grammar PhpSyntax.Parser

/-- From a least precedence on that the formula has, it is read as its tree in front of what
follows, unless that continues it. -/
def Formula.Readable (f : Formula) : Prop :=
  ∀ (min : Nat) (k : TokenKind) (w : String) (fs gs : List (TokenKind × String)) (V : Node → Prop),
    (∀ q ∈ f.operator?, min ≤ q.precedence) → k.isFollower = true →
    (∀ q ∈ f.operator?, k.StopsAt q.rightMin) →
    (∀ n : Node, n.unplaced = f.node → Reads (infixes min n) ((k, w) :: fs) V gs) →
    Reads (expressionFrom min) (f.tokens ++ (k, w) :: fs) V gs

namespace Formula

variable {f : Formula}

/-- In front of what stops at the least precedence, the formula is the whole expression. -/
theorem Readable.expression (h : f.Readable) {min : Nat}
    (hmin : ∀ q ∈ f.operator?, min ≤ q.precedence) {k : TokenKind} (hk : k.isFollower = true)
    (hstop : k.StopsAt min) (w : String) (fs : List (TokenKind × String)) :
    Reads (call (.expression min)) (f.tokens ++ (k, w) :: fs) (fun n => n.unplaced = f.node)
      ((k, w) :: fs) := by
  refine .call (h min k w fs _ _ hmin hk (fun q hq => ?_) fun n hn => infixes_stop hstop hn)
  exact hstop.mono (Nat.le_trans (hmin q hq) q.precedence_le_rightMin)

/-- In front of a mark that is no operator, the formula is the whole expression. -/
theorem Readable.whole (h : f.Readable) {k : TokenKind} (hk : k.isFollower = true)
    (hmark : Infix.ofToken? k = none) (w : String) (fs : List (TokenKind × String)) :
    Reads (call (.expression 0)) (f.tokens ++ (k, w) :: fs) (fun n => n.unplaced = f.node)
      ((k, w) :: fs) := by
  refine h.expression (fun _ _ => Nat.zero_le _) hk (fun op hop => ?_) w fs
  rw [hmark] at hop
  cases hop

/-- What may stand to the left of an operator is not continued by it. -/
theorem Readable.left (h : f.Readable) (op : Infix) (hf : f.operator?.all op.admitsLeft = true)
    {min : Nat} (hmin : min ≤ op.precedence) {fs gs : List (TokenKind × String)} {V : Node → Prop}
    (hrest : ∀ n : Node, n.unplaced = f.node → Reads (infixes min n) (op.token :: fs) V gs) :
    Reads (expressionFrom min) (f.tokens ++ op.token :: fs) V gs := by
  have hleft (q : Infix) (hq : q ∈ f.operator?) : op.leftMin ≤ q.precedence :=
    Infix.leftMin_le_of_admitsLeft ((Option.all_eq_true _ _).mp hf q hq)
  refine h min op.token.1 op.token.2 fs gs V (fun q hq => ?_) op.isFollower_token
    (fun q hq => Infix.stopsAt_of_leftMin_le (hleft q hq)) hrest
  exact Nat.le_trans hmin (Nat.le_trans op.precedence_le_leftMin (hleft q hq))

/-- What may stand to the right of an operator is the whole expression there. -/
theorem Readable.right (h : f.Readable) {op : Infix} (hf : f.operator?.all op.admitsRight = true)
    {k : TokenKind} (hk : k.isFollower = true) (hstop : k.StopsAt op.rightMin) (w : String)
    (fs : List (TokenKind × String)) :
    Reads (call (.expression op.rightMin)) (f.tokens ++ (k, w) :: fs)
      (fun n => n.unplaced = f.node) ((k, w) :: fs) :=
  h.expression (fun q hq => Infix.rightMin_le_of_admitsRight ((Option.all_eq_true _ _).mp hf q hq))
    hk hstop w fs

/-- What an operand reads is what the formula is. -/
theorem readable_of_operand
    (h : ∀ (k : TokenKind) (w : String) (fs : List (TokenKind × String)), k.isFollower = true →
      Reads operand (f.tokens ++ (k, w) :: fs) (fun n => n.unplaced = f.node) ((k, w) :: fs)) :
    f.Readable :=
  fun _ k w fs _ _ _ hk _ hrest => .bind (.call (h k w fs hk)) fun n hn => .call (hrest n hn)

/-- A formula in which each operator may stand where it does is read as its tree. -/
theorem readable (f : Formula) (hf : f.isGrouped = true) : f.Readable := by
  induction f with
  | «variable» name => exact readable_of_operand fun k w fs hk => variable_reads hk name
  | integer digits => exact readable_of_operand fun k w fs _ => integer_reads digits
  | parenthesis inner ih =>
    refine readable_of_operand fun k w fs hk => ?_
    have hinner := (ih hf).whole (k := .rParen) rfl rfl ")" ((k, w) :: fs)
    rw [tokens, List.cons_append, List.append_assoc]
    exact parenthesis_reads hk hinner
  | operation op left right ihleft ihright =>
    simp only [isGrouped, Bool.and_eq_true] at hf
    obtain ⟨⟨⟨hl, hr⟩, hleft⟩, hright⟩ := hf
    intro min k w fs gs V hmin hk hstop hrest
    have hoperand := (ihright hright).right hr hk (hstop op rfl) w fs
    rw [tokens, List.append_assoc, List.cons_append, List.append_assoc]
    refine (ihleft hleft).left op hl (hmin op rfl) fun n hn => ?_
    exact infixes_step op.ofToken?_token (hmin op rfl)
      (operation_reads op hn (by simp) hoperand) hrest
  | choice test middle otherwise ihtest ihmiddle ihotherwise =>
    simp only [isGrouped, Bool.and_eq_true] at hf
    obtain ⟨⟨⟨⟨hl, hr⟩, htest⟩, hmiddle⟩, hotherwise⟩ := hf
    intro min k w fs gs V hmin hk hstop hrest
    have hoperand := (ihotherwise hotherwise).right hr hk (hstop .ternary rfl) w fs
    have hinner := (ihmiddle hmiddle).whole (k := .colon) rfl rfl ":"
      (otherwise.tokens ++ (k, w) :: fs)
    obtain ⟨t, ts, htokens, ht⟩ := middle.tokens_head
    have hcolon : t.1 ≠ .colon := fun hcolon => by
      have hkind := ht.kind
      rw [hcolon] at hkind
      exact absurd hkind (by decide)
    rw [htokens, List.cons_append] at hinner
    rw [tokens, List.append_assoc, List.cons_append, List.append_assoc, List.cons_append, htokens,
      List.cons_append]
    refine (ihtest htest).left .ternary hl (hmin .ternary rfl) fun n hn => ?_
    exact infixes_step rfl (hmin .ternary rfl)
      (choice_reads hn hcolon (by simp) hinner hoperand) hrest

end Formula
end PhpSyntax
