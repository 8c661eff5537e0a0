import PhpSyntax.Grammar.ClassLike
import PhpSyntax.Proofs.Account.Action
import PhpSyntax.Proofs.Scanner.Spelling

namespace PhpSyntax.Grammar

variable {x : Text} {e d : Notes} {s : ParseState}

/-! ## Names -/

theorem identifierHere_tells (hk : s.kind.isMark = true) :
    Tells x e identifierHere s fun f n _ =>
      f = e + n.notes ∧ n.production = .identifier s.stream.current.text :=
  .of fun hs => .openNode <| .text <| .pass hk fun _ _ =>
    (Tells.finishAs (.inr (.inl (hs.marks hk))) rfl (by simp)).mono
      fun _ _ _ ⟨hf, hp, _⟩ => ⟨hf, hp⟩

theorem identifier_tells : Tells x e identifier s fun f n _ => f = e + n.notes :=
  .isAt (fun hk => (identifierHere_tells (hk ▸ rfl)).mono fun _ _ _ h => h.1)
    fun _ => .omission

theorem memberName_tells : Tells x e memberName s fun f n _ => f = e + n.notes := by
  refine .sees (.read (.ite (fun hk => ?_) fun _ => ?_) fun _ _ => rfl)
  · have hmark : s.kind.isMark = true := by
      rcases Bool.or_eq_true_iff.mp hk with hk | hk
      · rw [of_decide_eq_true hk]
        rfl
      · exact TokenSet.isMark hk (by decide)
    exact (identifierHere_tells hmark).mono fun _ _ _ h => h.1
  · exact .omission

/-- A variable is its name behind the dollar sign. -/
theorem withoutDollar_eq {text : String} (h : text.toList.head? = some '$') :
    "$" ++ withoutDollar text = text := by
  rw [withoutDollar]
  split
  · next cs htext =>
    simp [← String.toList_inj, htext]
  · next hnot =>
    cases htext : text.toList with
    | nil =>
      rw [htext] at h
      cases h
    | cons c cs =>
      rw [htext] at h
      cases h
      exact absurd htext (hnot cs)

/-- What is left of a variable without its dollar sign is its name. -/
theorem sigil_eq (hs : s.stream.Of x) (hk : s.kind = .variable) :
    "$" ++ withoutDollar s.stream.current.text = s.stream.current.text :=
  withoutDollar_eq ((tokenize_spelled (hs.leaf_mem (by rw [← ParseState.kind, hk]; rfl))).sigil hk)

theorem variableName_tells :
    Tells x e variableName s fun f n t => f = e + n.notes ∧ s.Eats x t :=
  .of fun hs => .isAt
    (fun hk => .openNode <| .text <| .leafNode rfl ⟨hk, sigil_eq hs hk⟩ rfl fun _ => by
      simp)
    fun _ => .missingNode

theorem segments_tells : Tells x e segments s fun f _ _ => f = e := by
  refine .sees (.peek (.ite (fun hk => ?_) fun _ => .pure rfl))
  obtain ⟨hsep, hpeek⟩ := Bool.and_eq_true_iff.mp hk
  refine .pass (of_decide_eq_true hsep ▸ rfl) fun t ht => .text ?_
  have hnext : t.kind = .identifier := by
    rw [ht]
    exact (Stream.advance_kind _).trans (of_decide_eq_true hpeek)
  refine .pass (hnext ▸ rfl) fun u _ => ?_
  exact .bind (.callSilent trivial rfl fun _ _ _ h => h) fun _ _ _ h => .pure h

theorem nameFrom_tells {o : Opened} {lead : String} {r : NameResolution}
    (ho : s.kind = .identifier → x.Marks o.start) :
    Tells x e (nameFrom o lead r) s fun f n _ => f = e + n.notes := by
  refine .isAt (fun hk => .text <| .pass (hk ▸ rfl) fun t _ => ?_) fun _ => ?_
  · refine .bind (.callSilent trivial rfl fun _ _ _ h => h) fun f _ u hf => ?_
    subst hf
    exact .finish (.inr (.inl (ho hk))) rfl (by simp)
  · exact .bind .omission fun _ _ _ hf => (Tells.abandon hf).mono fun _ _ _ h => h.1

theorem name_tells : Tells x e name s fun f n _ => f = e + n.notes := by
  refine .of fun hs => .openNode (.isAt (fun hk => ?_) fun _ => ?_)
  · have hmark : s.kind.isMark = true := hk ▸ rfl
    refine .pass hmark fun t _ => .bind (.require rfl) fun f _ u hf => ?_
    subst hf
    exact nameFrom_tells fun _ => hs.marks hmark
  · refine .ifEat rfl (fun hk t _ => ?_) fun _ => ?_
    · exact nameFrom_tells fun _ => hs.marks (show s.kind.isMark = true from hk ▸ rfl)
    · exact nameFrom_tells fun hk => hs.marks (show s.kind.isMark = true from hk ▸ rfl)

/-! ## Lists -/

theorem separated_tells {mark : TokenKind} {item : Rule .node}
    (hr : mark.isMark = true ∧ item.isPlain = true) :
    Tells x e (separated mark item) s fun f ns t =>
      (f = e + notesOf ns ∧ ns ≠ []) ∧ (item.isKeen = true → s.Eats x t) := by
  refine .bindKeen (.callPlain hr.2) fun f n t hf => .ifEat hr.1 (fun _ u _ => ?_) fun _ => ?_
  · refine .bind (.separated hr) fun g ns v ⟨hg, _⟩ => .pure ⟨?_, List.cons_ne_nil _ _⟩
    rw [hg, hf, notesOf_cons, add_assoc]
  · refine .pure ⟨?_, List.cons_ne_nil _ _⟩
    rw [hf, notesOf_cons, notesOf_nil, add_zero]

theorem delimited_tells {close : TokenKind} {item : Rule .node}
    (hr : close.isMark = true ∧ item.isPlain = true) :
    Tells x e (delimited close item) s fun f ns _ => f = e + notesOf ns := by
  refine .sees (.atEnd (.ite (fun _ => ?_) fun _ => ?_))
  · refine .bind (.require hr.1) fun f _ t hf => .pure ?_
    rw [hf, notesOf_nil, add_zero]
  · refine .bind (.callPlain hr.2) fun f n t ⟨hf, _⟩ => .ifEat rfl (fun _ u _ => ?_) fun _ => ?_
    · refine .bind (.delimited hr) fun g ns v hg => .pure ?_
      rw [hg, hf, notesOf_cons, add_assoc]
    · refine .bind (.require hr.1) fun g _ u hg => .pure ?_
      rw [hg, hf, notesOf_cons, notesOf_nil, add_zero]

/-- A token is only skipped where nothing has been consumed, and in strict mode it is no
node of its own. -/
theorem forceProgress_tells {s₀ : ParseState} (hon : s₀.Onward s) (heats : s₀.Eats x s) :
    Tells x e (Parser.forceProgress s₀.stream.current.start) s fun f _ _ => f = e := by
  refine .read (.ite (fun hstuck => ?_) fun _ => .pure rfl) fun _ _ => rfl
  simp only [Bool.and_eq_true, Bool.not_eq_true', decide_eq_true_eq] at hstuck
  obtain ⟨hend, hoffset⟩ := hstuck
  have hne : s.kind ≠ .eof := fun hk => by
    simp [Token.isEof, show s.stream.current.kind = .eof from hk] at hend
  have hstay : s.stream = s₀.stream ∨ s.stream = s₀.stream.modern := by
    rcases hon.moved with e | ⟨_, hlt⟩
    · exact e
    · exact absurd hoffset (Nat.ne_of_gt hlt)
  refine .of_advance (f := 0) (.mark hne fun hstrict => ?_) (add_zero e)
  -- A node of its own would have been consumed before.
  by_contra hleaf
  have hleaf : s.stream.current.kind.isLeaf = true := by simpa using hleaf
  have hkind : s₀.kind = s.stream.current.kind := by
    rcases hstay with e | e
    · rw [e, ParseState.kind]
    · rw [e]
      rfl
  have hlt := heats hstrict (hkind ▸ hleaf)
  rcases hstay with e | e
  · rw [e] at hlt
    omega
  · rw [e] at hlt
    exact absurd hlt (Nat.lt_irrefl _)

theorem statementList_tells {ends : ParseState → Bool} {statement : Parser Node}
    {rest : Rule .nodes} (count : List Node → Notes) (hnil : count [] = 0)
    (hcons : ∀ n ns, count (n :: ns) = count [n] + count ns)
    (hends : s.stream.Of x → x.HasNoFn → ends s.modern = ends s)
    (hstatement : Tells x e statement s fun f n t => f = e + count [n] ∧ s.Eats x t)
    (hrest : ∀ e t, Tells x e (Parser.call rest) t fun f ns _ => f = e + count ns) :
    Tells x e (statementList (Parser.read ends) statement rest) s fun f ns t =>
      f = e + count ns ∧ (ns = [] → t.offset = s.offset) := by
  refine .atEnd (.read (.ite (fun _ => .pure ⟨?_, fun _ => rfl⟩) fun _ => ?_) hends)
  · rw [hnil, add_zero]
  · refine .read (.bind hstatement.onward fun f n t ⟨⟨hf, heats⟩, hon⟩ => ?_) fun _ _ => rfl
    refine .bind (forceProgress_tells hon heats) fun g _ u hg => ?_
    refine .bind (hrest _ _) fun k ns v hk => .pure ⟨?_, fun h => nomatch h⟩
    rw [hk, hg, hf, hcons n ns, add_assoc]

theorem block_tells : Tells x e block s fun f n _ => f = e + n.notes ∧ n.after? = none := by
  refine .isAt (fun hk => .begin (hk ▸ rfl) fun o t ho _ => ?_) fun _ => .omissionInert
  refine .bind .statements fun f ns u ⟨hf, _⟩ => .bind (.require rfl) fun g _ v hg => ?_
  subst hf hg
  exact .finishInert (.inr (.inl ho)) rfl rfl (by simp)

theorem shortBlock_tells {close : TokenKind} (hc : close.isMark = true) :
    Tells x e (shortBlock close) s fun f n _ => f = e + n.notes := by
  refine .openNode (.bind (.requireMark rfl) fun f _ t ⟨hf, ho⟩ => ?_)
  refine .bind .statements fun g ns u ⟨hg, _⟩ => .bind (.require hc) fun g' _ v hg' => ?_
  refine .bind .endStatement fun k _ y hk => ?_
  subst hf hg hg' hk
  exact .finish (.inr (.inl ho)) rfl (by simp)

theorem condition_tells : Tells x e condition s fun f n _ => f = e + n.notes := by
  refine .bind (.require rfl) fun f _ t hf => .bind .expression fun g n u hg => ?_
  refine .bind (.require rfl) fun k _ v hk => .pure ?_
  rw [hk, hg, hf]

/-! ## Variables -/

/-- A name that is a literal answers for what the name does. -/
theorem notes_literalConstant (n : Node) : (literalConstant n).notes = n.notes := by
  unfold literalConstant
  split
  case h_1 word hp =>
    have hnotes {m : Node} (hinfo : m.toNodeInfo = n.toNodeInfo) (hm : m.children = [])
        (hl : m.production.leaf = .other) (hdue : ∀ k, m.production.due k = 0) :
        m.notes = n.notes := by
      have hn : n.children = [] := by
        rw [Node.children, hp]
        rfl
      rw [Node.notes_eq, Node.notes_eq, hdue, hp, Node.bare, Node.bare, Node.isBare, Node.isBare,
        hm, hn, hp, hinfo, hl]
      simp [Production.leaf]
    split
    · exact hnotes rfl rfl rfl fun _ => by simp
    · exact hnotes rfl rfl rfl fun _ => by simp
    · exact hnotes rfl rfl rfl fun _ => by simp
    · rfl
  case h_2 => rfl

theorem simpleVariable_tells :
    Tells x e simpleVariable s fun f n t => f = e + n.notes ∧ s.Eats x t := by
  refine .of fun hs => .openNode (.kind ?_)
  split
  case h_1 hk =>
    refine .text (.leafNode rfl ⟨hk, sigil_eq hs hk⟩ rfl fun _ => ?_)
    simp
  case h_2 hk =>
    have hmark : s.kind.isMark = true := by rw [show s.kind = .dollar from hk]; rfl
    refine .atMark hmark (.pass hmark fun t _ => .ifEat rfl (fun _ u _ => ?_) fun _ => ?_)
    · refine .bind .expression fun f n v hf => .bind (.require rfl) fun g _ y hg => ?_
      subst hf hg
      exact .finish (.inr (.inl (hs.marks hmark))) rfl (by simp)
    · refine .bind (.callPlain rfl) fun f n v h => ?_
      rw [h.1]
      exact .finish (.inr (.inl (hs.marks hmark))) rfl (by simp)
  case h_3 =>
    refine .bindEats .missingNode fun f n t hf => ?_
    exact (Tells.abandon hf).mono fun _ _ _ h => h.1

theorem variableWithLookups_tells {readOnly : Bool} :
    Tells x e (variableWithLookups readOnly) s fun f n t => f = e + n.notes ∧ s.Eats x t := by
  refine .kind ?_
  split
  case h_1 hk =>
    refine .atMark (hk ▸ rfl) (.begin (hk ▸ rfl) fun o t ho _ => ?_)
    refine .bind (.callPlain rfl) fun f n u h => ?_
    rw [h.1]
    exact .finish (.inr (.inl ho)) rfl (by simp)
  case h_2 | h_3 =>
    exact .bindEats (.callKeen rfl rfl) fun f n t hf => .lookups hf
  case h_4 hk =>
    refine .atMark (hk ▸ rfl) (.begin (hk ▸ rfl) fun o t ho _ => ?_)
    refine .bind (.finish (d := e) (.inr (.inl ho)) rfl ?_) fun f n u hf => .lookups hf
    simp
  case h_5 hk | h_6 hk | h_7 hk =>
    refine .atMark (hk ▸ rfl) (.bind (.callPlain rfl) fun f n t h => .kind ?_)
    split
    · exact .lookups h.1
    · exact .lookups (by rw [h.1, notes_literalConstant])
  case h_8 => exact .missingNode

theorem arguments_tells : Tells x e arguments s fun f ns _ => f = e + notesOf ns :=
  .ifExpect rfl (fun _ => .delimited ⟨rfl, rfl⟩) fun _ => .pure (by simp)

theorem argumentsIfAny_tells : Tells x e argumentsIfAny s fun f ns _ => f = e + notesOf ns :=
  .isAt (fun _ => arguments_tells) fun _ => .pure (by simp)

theorem argument_tells : Tells x e argument s fun f n _ => f = e + n.notes := by
  refine .isAt (fun hk => .begin (hk ▸ rfl) fun o t ho _ => ?_) fun _ => .expression
  refine .bind .expression fun f n u hf => ?_
  subst hf
  exact .finish (.inr (.inl ho)) rfl (by simp)

theorem memberOf_tells : Tells x e memberOf s fun f n _ => f = e + n.notes := by
  refine .kind ?_
  split
  case h_1 | h_2 => exact (Tells.callPlain rfl).mono fun _ _ _ h => h.1
  case h_3 => exact memberName_tells

/-- A lookup answers for its base, and where there is none the base stays. -/
theorem lookup?_tells {base : Node} {readOnly : Bool} (he : e = d + base.notes) :
    Tells x e (lookup? base readOnly) s fun f n _ => f = d + (n.getD base).notes := by
  refine .kind ?_
  split
  case h_1 hk =>
    refine .ite (fun _ => .pure he) fun _ => .openAt fun o t _ _ => ?_
    refine .bind arguments_tells fun f args u hf => ?_
    subst hf
    refine .map (.finish (d := d) (.inl (List.cons_ne_nil _ _)) rfl ?_) fun _ _ _ h => h
    simp [he, add_assoc]
  case h_2 hk =>
    refine .extend (hk ▸ rfl) fun o t => .sees ?_
    refine .bind (.optionally fun _ => .expression) fun f n v hf => ?_
    refine .bind (.require rfl) fun g _ y hg => ?_
    subst hf hg
    refine .map (.finish (d := d) (.inl (List.cons_ne_nil _ _)) rfl ?_) fun _ _ _ h => h
    simp [he, add_assoc]
  case h_3 hk =>
    refine .ite (fun _ => .extend (hk ▸ rfl) fun o t => ?_) fun _ => .pure he
    refine .bind .expression fun f n v hf => .bind (.require rfl) fun g _ y hg => ?_
    subst hf hg
    refine .map (.finish (d := d) (.inl (List.cons_ne_nil _ _)) rfl ?_) fun _ _ _ h => h
    simp [he, add_assoc]
  case h_4 hk =>
    refine .extend (hk ▸ rfl) fun o t => .bind memberOf_tells fun f n v hf => ?_
    subst hf
    refine .map (.finish (d := d) (.inl (List.cons_ne_nil _ _)) rfl ?_) fun _ _ _ h => h
    simp [he, add_assoc]
  case h_5 hk =>
    refine .extend (hk ▸ rfl) fun o t => .ifEat rfl (fun _ u _ => ?_) fun _ => ?_
    · refine .bind .expression fun f n v hf => .bind (.require rfl) fun g _ y hg => ?_
      subst hf hg
      refine .map (.finish (d := d) (.inl (List.cons_ne_nil _ _)) rfl ?_) fun _ _ _ h => h
      simp [he, add_assoc]
    · refine .bind memberOf_tells fun f n v hf => ?_
      subst hf
      refine .map (.finish (d := d) (.inl (List.cons_ne_nil _ _)) rfl ?_) fun _ _ _ h => h
      simp [he, add_assoc]
  case h_6 => exact .pure he

theorem lookups_tells {base : Node} {readOnly : Bool} (he : e = d + base.notes) :
    Tells x e (lookups base readOnly) s fun f n _ => f = d + n.notes := by
  refine .bind (lookup?_tells he) fun f n t hf => ?_
  cases n with
  | none => exact .pure hf
  | some n => exact .lookups hf

/-! ## Functions -/

theorem typeName_tells : Tells x e typeName s fun f n _ => f = e + n.notes := by
  refine .of fun hs => .kind ?_
  split
  case h_1 hk | h_2 hk =>
    have hmark : s.kind.isMark = true := hk ▸ rfl
    refine .openNode (.text (.pass hmark fun t _ => ?_))
    exact .finish (.inr (.inl (hs.marks hmark))) rfl (by simp)
  case h_3 => exact (Tells.callPlain rfl).mono fun _ _ _ h => h.1

theorem returnType_tells : Tells x e returnType s fun f r _ =>
    f = e + (notesOf r.1.toList + Gate.php7.due r.1.isSome) := by
  refine .isAt (fun hk => ?_) fun _ => .pure (by simp)
  refine .bind (.requireOption .php7 fun _ => rfl) fun f _ t ⟨hf, ht, _⟩ => ?_
  refine .pass ?_ fun u _ => .bind (.eatAny rfl) fun g nullable v hg => ?_
  · rw [ParseState.kind, ht, ← ParseState.kind, hk]
    rfl
  · refine .bind typeName_tells fun k type y hk => .pure ?_
    subst hf hg hk
    simp only [Option.toList, notesOf_cons, notesOf_nil, Option.isSome, Gate.due_true]
    abel

theorem initialValue_tells : Tells x e initialValue s fun f n _ => f = e + notesOf n.toList :=
  .after rfl fun _ => .expression

theorem parameter_tells : Tells x e parameter s fun f n _ => f = e + n.notes := by
  refine .openNode (.bind (.eatAny rfl) fun f nullable t hf => .kind ?_)
  refine .bind (.optionally fun _ => typeName_tells) fun g type u hg => ?_
  refine .bind (.eatAny rfl) fun g₁ byRef u₁ h₁ => .bind (.eatAny rfl) fun g₂ variadic u₂ h₂ => ?_
  refine .bind variableName_tells fun g₃ name u₃ ⟨h₃, _⟩ => ?_
  refine .bind initialValue_tells fun g₄ default u₄ h₄ => ?_
  subst hf hg h₁ h₂ h₃ h₄
  refine .finish (.inl ?_) rfl ?_
  · simp [Production.children]
  · simp [add_assoc, add_left_comm]

theorem parameters_tells : Tells x e parameters s fun f ns _ => f = e + notesOf ns :=
  .ifExpect rfl (fun _ => delimited_tells ⟨rfl, rfl⟩) fun _ => .pure (by simp)

theorem functionDeclaration_tells (hk : s.kind.isMark = true) :
    Tells x e functionDeclaration s fun f n _ => f = e + n.notes ∧ n.after? = none := by
  refine .begin hk fun o t ho _ => .bind (.eatAny rfl) fun f byRef u hf => ?_
  refine .bind identifier_tells fun g₁ name u₁ h₁ => ?_
  refine .bind parameters_tells fun g₂ arguments u₂ h₂ => ?_
  refine .bind returnType_tells fun g₃ type u₃ h₃ => .bind block_tells fun g₄ body u₄ ⟨h₄, _⟩ => ?_
  subst hf h₁ h₂ h₃ h₄
  exact .finishInert (.inr (.inl ho)) rfl rfl
    (by simp [add_assoc, add_left_comm])

/-! ## Methods -/

/-- What stands in the place of a reserved word is one. -/
theorem isReservedWord_of_contains (hs : s.stream.Of x)
    (hk : Category.identifier.set.contains s.kind = true) :
    isReservedWord s.stream.current.text = true := by
  have hmem : s.kind ∈ TokenKind.reservedWords := TokenSet.mem_ofList.mp hk
  have hne : s.kind ≠ .eof := fun h => by
    rw [h] at hmem
    exact absurd hmem (by decide)
  obtain ⟨t, ht, _, he⟩ := hs.token hne
  have hspells := tokenize_spelled ht
  have hreserved (h : t.kind ∈ TokenKind.reservedWords) : isReservedWord t.text = true := by
    simp [isReservedWord, hspells.reserved h, h]
  rw [he, Token.forGrammar_text]
  rw [ParseState.kind, he] at hmem
  unfold Token.forGrammar at hmem
  split at hmem
  case h_1 => exact absurd hmem (show TokenKind.semicolon ∉ _ by decide)
  case h_2 h =>
    have htext : t.text = "<?=" := String.toList_inj.mp (hspells.echo h)
    simp [isReservedWord, htext]
  case h_3 h =>
    split at hmem
    · exact hreserved hmem
    · exact absurd hmem (show TokenKind.identifier ∉ _ by decide)
  case h_4 => exact hreserved hmem

/-- An identifier is no reserved word, unless it is the keyword of an arrow function. -/
theorem isReservedWord_of_identifier (hs : s.stream.Of x) (hx : x.HasNoFn)
    (hk : s.kind = .identifier) : isReservedWord s.stream.current.text = false := by
  have hne : s.kind ≠ .eof := by
    rw [hk]
    decide
  obtain ⟨t, ht, _, he⟩ := hs.token hne
  have hkind : t.kind = .identifier := by
    rw [ParseState.kind, he] at hk
    unfold Token.forGrammar at hk
    split at hk
    case h_1 | h_2 => cases hk
    case h_3 h => exact absurd h (hx t ht)
    case h_4 => exact hk
  obtain ⟨hword, hhead⟩ := (tokenize_spelled ht).word hkind
  have htext : t.text ≠ "<?=" := fun h => hhead (by rw [h]; rfl)
  rw [he, Token.forGrammar_text, isReservedWord, hword, decide_eq_false htext]
  rfl

theorem Node.isReserved_of {n : Node} {word : String} (h : n.production = .identifier word) :
    n.isReserved = isReservedWord word := by
  rw [Node.isReserved, h]

def methodName : Parser Node :=
  Parser.option Options.php7 >>= fun c => if c = true then memberName else identifier

/-- The name of a method where version 7 of the language is switched off. -/
theorem identifier_told {answer : (c : Shape) → Rule c → ParseState → Outcome c.Value}
    (ha : Informs x answer) (hs : s.stream.Of x) (hx : x.IsPlain)
    (hshut : s.stream.options.php7 = false) :
    Told x e s (fun f n _ => f = e + n.notes + Gate.php7.due n.isReserved)
      ((identifier s).eval answer) ((memberName s.modern).eval answer) := by
  have hidentifier : (identifier s).eval answer =
      ((if decide (s.kind = .identifier) = true then identifierHere
        else Parser.missing (.kind .identifier)) s).eval answer := rfl
  have hmember : (memberName s.modern).eval answer =
      ((if (decide (s.kind = .identifier) || Category.identifier.set.contains s.kind) = true then
          identifierHere
        else Parser.missing (.category .identifier)) s.modern).eval answer := rfl
  rw [hidentifier, hmember]
  by_cases hk : s.kind = .identifier
  · -- Either way the identifier is read, and it is no reserved word.
    rw [if_pos (decide_eq_true hk), if_pos (by rw [decide_eq_true hk]; rfl)]
    refine (identifierHere_tells (hk ▸ rfl) answer ha hs).mono fun f n t ⟨hf, hp⟩ => ?_
    rw [Node.isReserved_of hp, isReservedWord_of_identifier hs hx.2 hk, hf, Gate.due_false,
      add_zero]
  · have hmissing {u : ParseState} {ex : Expected} (hu : u.stream.Of x) {n : Node}
        {t : ParseState} : (Parser.missing ex u).eval answer ≠ .ok (n, t) := fun ho => by
      obtain ⟨f, _, _, hn⟩ := (Tells.missing (e := 0) answer ha hu).ok ho
      have hstrict := hn.tolerant
      rw [hx.1] at hstrict
      cases hstrict
    have hne : ¬decide (s.kind = .identifier) = true := by simpa using hk
    rw [if_neg hne]
    refine ⟨fun ho => absurd ho (hmissing hs), fun _ _ _ ho => absurd ho (hmissing hs),
      fun _ _ n t _ hm => ?_⟩
    by_cases hc : Category.identifier.set.contains s.kind = true
    · rw [if_pos (by rw [hc, Bool.or_true])] at hm
      have hmodern := hs.modern hx.2
      have hmark : s.modern.kind.isMark = true := TokenSet.isMark hc (by decide)
      obtain ⟨f, hpass, hf, hp⟩ := (identifierHere_tells (e := e) hmark answer ha hmodern).ok hm
      have hgate : Passes x t.stream {.gate .php7} t.stream := .gate fun _ => by
        rw [hpass.options]
        exact Gate.isOpen_modern _ _
      refine ⟨f + {.gate .php7}, hpass.trans hgate, ?_, .php7, ?_, hshut⟩
      · have hword : isReservedWord s.modern.stream.current.text = true :=
          isReservedWord_of_contains hmodern hc
        rw [Node.isReserved_of hp, hword, ← add_assoc, hf, Gate.due_true]
      · exact Multiset.mem_add.mpr (Or.inr (Multiset.mem_singleton_self _))
    · rw [if_neg (by simp [hk, hc])] at hm
      exact absurd hm (hmissing (hs.modern hx.2))

/-- With version 7 only, a reserved word is the name of a method. -/
theorem methodName_tells : Tells x e methodName s fun f n _ =>
    f = e + n.notes + Gate.php7.due n.isReserved := by
  intro answer ha hs
  have heval (u : ParseState) : (methodName u).eval answer =
      ((if u.stream.options.php7 = true then memberName else identifier) u).eval answer := rfl
  rw [heval, heval, if_pos (show s.modern.stream.options.php7 = true from rfl)]
  by_cases hopen : s.stream.options.php7 = true
  · rw [if_pos hopen]
    refine (memberName_tells.note .php7 Node.isReserved (fun _ => hopen) answer ha hs).mono ?_
    exact fun f n t ⟨f', hf', hf⟩ => by rw [hf, hf']
  · rw [if_neg hopen]
    by_cases hx : x.IsPlain
    · exact identifier_told ha hs hx (Bool.eq_false_iff.mpr hopen)
    · have htold := identifier_tells.note (e := e) .php7 Node.isReserved (fun h => absurd h hx)
        answer ha hs
      refine ⟨fun ho => ?_, fun h => absurd h hx, fun h => absurd h hx⟩
      obtain ⟨f, hpass, f', hf', hf⟩ := htold.ok ho
      exact ⟨f, hpass, by rw [hf, hf']⟩

theorem methodNamed_tells {f : Node → Parser Node} {Q : Notes → Node → ParseState → Prop}
    (hf : ∀ e' n t, e' = e + n.notes + Gate.php7.due n.isReserved → Tells x e' (f n) t Q) :
    Tells x e (Parser.option Options.php7 >>= fun c =>
      if c = true then memberName >>= f else identifier >>= f) s Q := by
  have hname : methodName >>= f = Parser.option Options.php7 >>= fun c =>
      if c = true then memberName >>= f else identifier >>= f := by
    simp only [methodName, Parser.bind_bind, Parser.ite_bind]
  rw [← hname]
  exact .bind methodName_tells hf

theorem method_tells {o : Opened} {m : Modifiers} (hk : s.kind.isMark = true) :
    Tells x e (method o m) s fun f n _ => f = e + n.notes := by
  refine .pass hk fun t _ => .bind (.eatAny rfl) fun f byRef u hf => ?_
  refine methodNamed_tells fun g₁ name u₁ h₁ => ?_
  refine .bind parameters_tells fun g₂ arguments u₂ h₂ =>
    .bind returnType_tells fun g₃ type u₃ h₃ => ?_
  refine .isAt (fun _ => .bind .endStatement fun g₄ _ u₄ h₄ => ?_) fun _ =>
    .bind block_tells fun g₄ body u₄ ⟨h₄, _⟩ => ?_
  all_goals
    subst hf h₁ h₂ h₃ h₄
    refine .finish (.inl (List.cons_ne_nil _ _)) rfl ?_
    simp [add_assoc, add_comm, add_left_comm]

theorem lexicalVariable_tells : Tells x e lexicalVariable s fun f n _ => f = e + n.notes := by
  have hplain {t : ParseState} : Tells x e (Parser.call .simpleVariable) t fun f n _ =>
      f = e + n.notes := (Tells.callPlain rfl).mono fun _ _ _ h => h.1
  refine .isAt (fun hk => .begin (hk ▸ rfl) fun o t ho _ => ?_) fun _ => hplain
  refine .bind hplain fun f n u hf => ?_
  subst hf
  exact .finish (.inr (.inl ho)) rfl (by simp)

theorem lexicalVariables_tells :
    Tells x e lexicalVariables s fun f ns _ => f = e + notesOf ns := by
  refine .ifEat rfl (fun _ t _ => ?_) fun _ => .pure (by simp)
  exact .ifExpect rfl (fun _ => delimited_tells ⟨rfl, rfl⟩) fun _ => .pure (by simp)

theorem closure_tells {o : Opened} {isStatic : Bool} (hk : s.kind.isMark = true) :
    Tells x e (closure o isStatic) s fun f n _ => f = e + n.notes := by
  refine .pass hk fun t _ => .bind (.eatAny rfl) fun f byRef u hf => ?_
  refine .bind parameters_tells fun g₁ arguments u₁ h₁ => ?_
  refine .bind lexicalVariables_tells fun g₂ uses u₂ h₂ => ?_
  refine .bind returnType_tells fun g₃ type u₃ h₃ => .bind block_tells fun g₄ body u₄ ⟨h₄, _⟩ => ?_
  subst hf h₁ h₂ h₃ h₄
  refine .finish (.inl ?_) rfl ?_
  · simp [Production.children, Field.children]
  · simp [add_assoc, add_left_comm]

theorem arrowFunction_tells {o : Opened} {isStatic : Bool} (hk : s.kind.isMark = true) :
    Tells x e (arrowFunction o isStatic) s fun f n _ => f = e + n.notes := by
  refine .pass hk fun t _ => .bind (.eatAny rfl) fun f byRef u hf => ?_
  refine .bind parameters_tells fun g₁ arguments u₁ h₁ => ?_
  refine .bind returnType_tells fun g₂ type u₂ h₂ => .bind (.require rfl) fun g₃ _ u₃ h₃ => ?_
  refine .bind .expression fun g₄ body u₄ h₄ => ?_
  subst hf h₁ h₂ h₃ h₄
  refine .finish (.inl ?_) rfl ?_
  · simp [Production.children, Field.children]
  · simp [add_assoc, add_left_comm]

/-! ## Members -/

theorem memberModifiers_tells {m : Modifiers} :
    Tells x e (memberModifiers m) s fun f _ _ => f = e := by
  have hrest (m : Modifiers) (t : ParseState) (ht : t.stream = s.stream)
      (hin : Category.memberModifier.set.contains s.kind = true) :
      Tells x e (Parser.advance >>= fun _ => Parser.call (.memberModifiers m)) t
        fun f _ _ => f = e := by
    have hmark : t.kind.isMark = true := by
      rw [ParseState.kind, ht]
      exact TokenSet.isMark hin (by decide)
    exact .pass hmark fun u _ => .callSilent trivial rfl fun _ _ _ h => h
  refine .isIn (fun hin => .kind ?_) fun _ => .pure rfl
  obtain ⟨m', message⟩ := addModifier m s.kind
  cases message with
  | some message => exact .bind .objection fun f _ t h => h.1 ▸ hrest m' t h.2.2 hin
  | none => exact hrest m' s rfl hin

theorem constant_tells {reserved : Bool} :
    Tells x e (constant reserved) s fun f n _ => f = e + n.notes := by
  refine .openNode (.join (fun _ => memberName_tells) (fun _ => identifier_tells)
    fun f name t hf => ?_)
  refine .bind (.require rfl) fun g _ u hg => .bind .expression fun k value v hk => ?_
  subst hf hg hk
  exact .finish (.inl (List.cons_ne_nil _ _)) rfl (by simp [add_assoc])

theorem property_tells : Tells x e property s fun f n t => f = e + n.notes ∧ s.Eats x t := by
  refine .openNode (.bindEats variableName_tells fun f name t hf => ?_)
  refine .bind initialValue_tells fun g value u hg => ?_
  subst hf hg
  exact .finish (.inl (List.cons_ne_nil _ _)) rfl (by simp [add_assoc])

theorem propertyStatement_tells {o : Opened} {m : Modifiers} :
    Tells x e (propertyStatement o m) s fun f n t =>
      f = e + n.notes ∧ (s.kind = .variable → s.Eats x t) := by
  have hrest (f : Notes) (type : Option Node) (nullable : Bool) (t : ParseState)
      (hf : f = e + (notesOf type.toList + Gate.php74.due type.isSome)) :
      Tells x f (separated .comma .property >>= fun properties => Parser.endStatement >>= fun _ =>
        Parser.finish o (.propertyStatement properties m type nullable)) t
        fun f n u => f = e + n.notes ∧ t.Eats x u := by
    refine .bindEats ((separated_tells ⟨rfl, rfl⟩).mono fun _ _ _ h => ⟨h.1, h.2 rfl⟩)
      fun g properties u h => ?_
    refine .bind .endStatement fun k _ v hk => ?_
    obtain ⟨rfl, hne⟩ := h
    subst hf hk
    refine .finish (.inl ?_) rfl ?_
    · simp [Production.children, hne]
    · simp [add_assoc, add_comm, add_left_comm]
  refine .isAt (fun _ => (hrest e none false s (by simp)).mono fun _ _ _ h => ⟨h.1, fun _ => h.2⟩)
    fun hne => ?_
  refine .bind (.requireOption .php74 fun _ => rfl) fun f _ t hf => ?_
  refine .bind (.eatAny rfl) fun g nullable u hg => .bind typeName_tells fun k type v hk => ?_
  refine (hrest k (some type) nullable v ?_).mono fun _ _ _ h => ⟨h.1, fun h => absurd h hne⟩
  rw [hk, hg, hf.1]
  simp only [Option.toList, notesOf_cons, notesOf_nil, Option.isSome, Gate.due_true]
  abel

theorem classConstant_tells {o : Opened} {m : Modifiers} (hk : s.kind.isMark = true) :
    Tells x e (classConstant o m) s fun f n _ => f = e + n.notes := by
  refine .pass hk fun t _ =>
    .bind (separated_tells ⟨rfl, rfl⟩) fun f constants u ⟨⟨hf, hne⟩, _⟩ => ?_
  refine .bind .endStatement fun g _ v hg => ?_
  subst hf hg
  refine .finish (.inl ?_) rfl ?_
  · simpa [Production.children, Production.fields, Field.children] using hne
  · simp

theorem braceGroup_tells {depth : Nat} (hd : depth = 0 → s.kind = .lBrace) :
    Tells x e (braceGroup depth) s fun f _ t => ∃ g, f = e + g ∧ Rule.Skips x s g t := by
  refine .of fun hs => .kind ?_
  split
  case h_1 hk =>
    refine .bind .missing fun f _ t h => ?_
    obtain ⟨hf, hn⟩ := h
    have hx (h : x.strict = true) : False := by
      rw [hn.tolerant] at h
      cases h
    refine .pure ⟨0, by rw [hf, add_zero], fun n hn => absurd hn (Multiset.notMem_zero n),
      fun h => (hx h).elim, fun h => ?_⟩
    rw [h] at hk
    cases hk
  case h_2 k hne =>
    refine .bind (.of_advance (Q := fun f _ t => t = s.advance ∧
      f = e + {.skipped s.stream.current.stop.offset}) (.skip hne) ⟨rfl, rfl⟩)
      fun f _ t h => ?_
    obtain ⟨rfl, rfl⟩ := h
    have hopened (hk : s.kind = .lBrace) : s.offset ≤ s.advance.stream.prev.offset :=
      Stream.start_le_advance_prev hs.sound fun h => by
        rw [ParseState.kind, h] at hk
        cases hk
    refine .ite (fun hzero => .pure ⟨_, rfl, ?_⟩) fun hdepth => ?_
    · -- Only the brace that closes the group ends it.
      have hclose : s.stream.current.kind = .rBrace := by
        split at hzero
        case h_1 => omega
        case h_2 h => exact h
        case h_3 h _ => exact absurd (hd hzero) h
      have hprev : s.advance.stream.prev = s.stream.current.stop := by
        simp [ParseState.advance, Stream.advance, Stream.atTag, hclose]
      refine ⟨fun n hn => ⟨_, Multiset.mem_singleton.mp hn, fun _ => ?_⟩, fun _ => ?_, hopened⟩
      · rw [hprev]
      · rw [hprev]
    · refine (Tells.braceGroup fun h => absurd h hdepth).onward.mono
        fun f _ u h => ?_
      obtain ⟨⟨g, hf, hskips⟩, hon⟩ := h
      have hstop (hx : x.strict = true) :
          s.stream.current.stop.offset ≤ u.stream.prev.offset :=
        Nat.le_trans (Stream.stop_le_advance hs.sound) <|
          Nat.le_trans (Stream.advance_sound hs.sound).start_le (hskips.covers hx)
      refine ⟨_, hf.trans (add_assoc _ _ _), fun n hn => ?_, hstop,
        fun hk => Nat.le_trans (hopened hk) hon.prev_le⟩
      rcases Multiset.mem_add.mp hn with hn | hn
      · exact ⟨_, Multiset.mem_singleton.mp hn, hstop⟩
      · exact hskips.skipped n hn

theorem traitUse_tells (hk : s.kind.isMark = true) :
    Tells x e traitUse s fun f n _ => f = e + n.notes := by
  refine .begin hk fun o t ho hle => ?_
  refine .bind (separated_tells ⟨rfl, rfl⟩).onward fun f traits u ⟨⟨⟨hf, _⟩, _⟩, hon⟩ => ?_
  refine .isAt (fun hb => .read ?_ fun _ _ => rfl) fun _ => ?_
  · refine .bind (.quoted hb (.braceGroup fun _ => hb)) fun g _ v ⟨hv, hg⟩ =>
      .read ?_ fun _ _ => rfl
    have hstop : (v.finishNode o).1.span.stop = v.stream.prev := by
      have hopen := hon.offset_le
      show (if o.start.offset ≤ v.stream.prev.offset then v.stream.prev else o.start) = _
      rw [if_pos (by omega)]
    subst hf hg
    refine .finish (.inr (.inl ho)) rfl ?_
    rw [Production.due, hstop]
    simp [ParseState.offset, add_assoc, add_comm]
  · refine .bind .endStatement fun g _ v hg => ?_
    subst hf hg
    exact .finish (.inr (.inl ho)) rfl (by simp)

theorem isMark_of_startsPropertyType {k : TokenKind} (h : startsPropertyType k = true) :
    k.isMark = true := by
  unfold startsPropertyType at h
  split at h
  all_goals first | rfl | cases h

theorem memberAfter_tells {o : Opened} {m : Modifiers} :
    Tells x e (memberAfter o m) s fun f n t => f = e + n.notes ∧ s.Eats x t := by
  refine .kind (.ite (fun hc => ?_) fun _ => .ite (fun hf => ?_) fun _ => .ite (fun hp => ?_)
    fun _ => ?_)
  · exact .atMark (hc ▸ rfl) (classConstant_tells (hc ▸ rfl))
  · exact .atMark (hf ▸ rfl) (method_tells (hf ▸ rfl))
  · refine propertyStatement_tells.mono fun _ _ t ⟨hn, heats⟩ => ⟨hn, ?_⟩
    rcases Bool.or_eq_true_iff.mp hp with hk | hk
    · exact heats (of_decide_eq_true hk)
    · exact .of_isMark (isMark_of_startsPropertyType (Bool.and_eq_true_iff.mp hk).1)
  · refine .bind .missing fun f n t ⟨hf, hn⟩ => ?_
    refine .bind (.abandon (d := e) (by rw [hf, hn.notes, add_zero])) fun g m u ⟨hg, _⟩ => ?_
    exact (Tells.skip hn.tolerant).mono fun _ _ _ ⟨hk, hm⟩ =>
      ⟨by rw [hk, hm, hg], .of_tolerant hn.tolerant⟩

theorem member_tells : Tells x e member s fun f n t => f = e + n.notes ∧ s.Eats x t := by
  refine .isAt (fun hk => .atMark (hk ▸ rfl) (traitUse_tells (hk ▸ rfl))) fun _ => .openNode ?_
  refine .ifEat rfl (fun hk t _ => ?_) fun _ => ?_
  · have hmark : s.kind.isMark = true := by
      rw [show s.kind = .kwVar from hk]
      rfl
    exact propertyStatement_tells.mono fun _ _ _ h => ⟨h.1, .of_isMark hmark⟩
  · refine .bindLast (.callSilent trivial rfl fun _ _ _ h => h) fun f m t hf => ?_
    subst hf
    exact memberAfter_tells

theorem members_tells : Tells x e members s fun f ns _ => f = e + notesOf ns := by
  refine (statementList_tells notesOf notesOf_nil (fun n ns => by simp) (fun _ _ => rfl) ?_
    fun e t => ?_).mono fun _ _ _ h => h.1
  · exact member_tells.mono fun _ _ _ h => ⟨by simpa using h.1, h.2⟩
  · exact .callList trivial rfl fun _ _ _ h => h

/-! ## Classes -/

theorem classFlags_tells {isAbstract isFinal : Bool} :
    Tells x e (classFlags isAbstract isFinal) s fun f _ _ => f = e := by
  have hrest (isAbstract isFinal : Bool) (t : ParseState) (ht : t.stream = s.stream)
      (hk : s.kind.isMark = true) :
      Tells x e (Parser.advance >>= fun _ => Parser.call (.classFlags isAbstract isFinal)) t
        fun f _ _ => f = e := by
    refine .pass (by rwa [ParseState.kind, ht]) fun u _ => ?_
    exact .callSilent trivial rfl fun _ _ _ h => h
  refine .kind ?_
  split
  case h_1 hk | h_2 hk =>
    have hmark : s.kind.isMark = true := hk ▸ rfl
    refine .ite (fun _ => ?_) fun _ => .ite (fun _ => ?_) fun _ => hrest _ _ s rfl hmark
    · exact .bind .objection fun f _ t h => h.1 ▸ hrest _ _ t h.2.2 hmark
    · exact .bind .objection fun f _ t h => h.1 ▸ hrest _ _ t h.2.2 hmark
  case h_3 => exact .pure rfl

theorem classBody_tells : Tells x e classBody s fun f ns _ => f = e + notesOf ns := by
  refine .ifExpect rfl (fun t => ?_) fun _ => .pure (by simp)
  refine .bind (.callList trivial rfl fun _ _ _ h => h) fun f ns u hf => ?_
  exact .bind (.require rfl) fun g _ v hg => .pure (by rw [hg, hf])

theorem namesAfter_tells {j : TokenKind} (hj : j.isMark = true) :
    Tells x e (namesAfter j) s fun f ns _ => f = e + notesOf ns := by
  refine .ifEat hj (fun _ t _ => ?_) fun _ => .pure (by simp)
  exact (separated_tells ⟨rfl, rfl⟩).mono fun _ _ _ h => h.1.1

theorem heritage_tells :
    Tells x e heritage s fun f v _ => f = e + (notesOf v.1.toList + notesOf v.2) := by
  refine .bind (.after rfl fun t => (Tells.callPlain rfl).mono fun _ _ _ h => h.1)
    fun f parent t hf => ?_
  refine .bind (namesAfter_tells rfl) fun g interfaces u hg => .pure ?_
  rw [hg, hf, add_assoc]

theorem classDeclaration_tells :
    Tells x e classDeclaration s fun f n _ => f = e + n.notes ∧ n.after? = none := by
  refine .openNode (.bind (.callSilent trivial rfl fun _ _ _ h => h)
    fun f flags t hf => ?_)
  obtain ⟨isAbstract, isFinal⟩ := flags
  refine .ifEat rfl (fun _ u _ => ?_) fun _ => ?_
  · refine .bind identifier_tells fun g₁ name u₁ h₁ => ?_
    refine .bind heritage_tells fun g₂ above u₂ h₂ => ?_
    obtain ⟨parent, interfaces⟩ := above
    refine .bind classBody_tells fun g₃ body u₃ h₃ => ?_
    subst hf h₁ h₂ h₃
    refine .finishInert (.inl (List.cons_ne_nil _ _)) rfl rfl ?_
    simp [add_assoc]
  · refine .bind .omissionInert fun g n u h => ?_
    refine (Tells.abandon (d := e) (by rw [h.1, hf])).mono fun _ _ _ h' => ⟨h'.1, ?_⟩
    rw [h'.2.1, h.2]

theorem anonymousClass_tells (hk : s.kind.isMark = true) :
    Tells x e anonymousClass s fun f v _ => f = e + (v.1.notes + notesOf v.2) := by
  refine .begin hk fun o t ho _ => .bind argumentsIfAny_tells fun f args u hf => ?_
  refine .bind heritage_tells fun g₁ ⟨parent, interfaces⟩ u₁ h₁ => ?_
  refine .bind classBody_tells fun g₂ body u₂ h₂ => ?_
  subst hf h₁ h₂
  refine .bind (.finish (d := e + notesOf args) (.inr (.inl ho)) rfl ?_) fun g n v hg => .pure ?_
  · simp [add_assoc]
  · rw [hg, add_assoc, add_comm (notesOf args)]

theorem interfaceDeclaration_tells (hk : s.kind.isMark = true) :
    Tells x e interfaceDeclaration s fun f n _ => f = e + n.notes ∧ n.after? = none := by
  refine .begin hk fun o t ho _ => .bind identifier_tells fun f name u hf => ?_
  refine .bind (namesAfter_tells rfl) fun g₁ parents u₁ h₁ => ?_
  refine .bind classBody_tells fun g₂ body u₂ h₂ => ?_
  subst hf h₁ h₂
  exact .finishInert (.inr (.inl ho)) rfl rfl (by simp [add_assoc])

theorem traitDeclaration_tells (hk : s.kind.isMark = true) :
    Tells x e traitDeclaration s fun f n _ => f = e + n.notes ∧ n.after? = none := by
  refine .begin hk fun o t ho _ => .bind identifier_tells fun f name u hf => ?_
  refine .bind classBody_tells fun g₁ body u₁ h₁ => ?_
  subst hf h₁
  exact .finishInert (.inr (.inl ho)) rfl rfl (by simp [add_assoc])

end PhpSyntax.Grammar
