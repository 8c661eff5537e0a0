/-
A parse does not depend on the layout.

Two texts of the same grammar tokens can differ in what is skipped: blanks, comments, and
where a tag opens the code.  The offsets of their tokens align one to one, so the first
states are aligned, and every rule does the same from there.  What comes out is the same
but for positions, lines and copied text (`parse_ignores_layout`).
-/
import Mathlib.Data.List.Forall2
import PhpSyntax.Proofs.Layout.Statement
import PhpSyntax.Proofs.Progress.Termination

namespace PhpSyntax

/-! ## Rules -/

open Grammar in
/-- Every rule does the same in two layouts. -/
theorem Rule.body_alike {A : Alignment} {c : Shape} {r r' : Rule c} (h : r.Like r') :
    Alike A c.Like r.body r'.body := by
  cases h with
  | infixes min h => exact infixes_alike min h
  | lookups readOnly h => exact lookups_alike h readOnly
  | same r =>
    cases r with
    | separated mark item => exact separated_steady mark item
    | delimited close item => exact delimited_steady close item
    | statements stop => exact statements_steady stop
    | topStatements stop => exact topStatements_steady stop
    | namespaceStatements => exact namespaceStatements_steady
    | statement => exact statement_steady
    | ifStatement => exact ifStatement_steady
    | shortElseIf => exact shortElseIf_steady
    | cases close => exact cases_steady close
    | handlers => exact handlers_steady
    | useItem kind mixed => exact useItem_steady kind mixed
    | directive => exact directive_steady
    | staticVariable => exact staticVariable_steady
    | constant reserved => exact constant_steady reserved
    | classFlags isAbstract isFinal => exact classFlags_alike isAbstract isFinal
    | members => exact members_steady
    | memberModifiers before => exact memberModifiers_alike before
    | property => exact property_steady
    | braceGroup depth => exact braceGroup_alike depth
    | parameter => exact parameter_steady
    | lexicalVariable => exact lexicalVariable_steady
    | expression min => exact expressionFrom_steady min
    | infixes min left => exact infixes_alike min rfl
    | operand => exact operand_steady
    | «variable» readOnly => exact variableWithLookups_steady readOnly
    | simpleVariable => exact simpleVariable_steady
    | lookups base readOnly => exact lookups_alike rfl readOnly
    | argument => exact argument_steady
    | entries close isPattern => exact entries_steady close isPattern
    | name => exact name_steady
    | segments => exact segments_alike

theorem Rule.run_alike {A : Alignment} (depth : Nat) {c : Shape} {r r' : Rule c}
    {s t : ParseState} (h : r.Like r') (hs : s.Aligned A t) :
    (Rule.run depth c r s).Alike A c.Like (Rule.run depth c r' t) := by
  induction depth generalizing c s t with
  | zero => exact ParseState.Aligned.unclosed s t
  | succ depth ih => exact (body_alike h s t hs).eval fun _ _ _ _ _ hr hu => ih hr hu

/-! ## Aligning two texts -/

def Alignment.ofLists {xs ys : List Nat} (hx : xs.Nodup) (hy : ys.Nodup) : Alignment where
  Pairs a b := ∃ i : Nat, xs[i]? = some a ∧ ys[i]? = some b
  eq_iff := by
    rintro a b c d ⟨i, ha, hb⟩ ⟨j, hc, hd⟩
    have index {zs : List Nat} (hz : zs.Nodup) {u v : Nat} (hu : zs[i]? = some u)
        (hv : zs[j]? = some v) : u = v ↔ i = j := by
      constructor
      · rintro rfl
        exact (List.getElem?_inj (List.getElem?_eq_some_iff.mp hu).1 hz).mp (hu.trans hv.symm)
      · rintro rfl
        exact Option.some.inj (hu.symm.trans hv)
    rw [index hx ha hc, index hy hb hd]

def offsets (ts : List Token) (stop : Nat) : List Nat := ts.map (·.start.offset) ++ [stop]

theorem Contiguous.le_offsets {p q : Position} {ts : List Token} (h : Contiguous p ts q) :
    ∀ x ∈ offsets ts q.offset, p.offset ≤ x := by
  induction ts generalizing p with
  | nil =>
    intro x hx
    rw [List.mem_singleton.mp hx]
    exact h.offset_le
  | cons t ts ih =>
    have hlt := h.start_lt
    obtain ⟨rfl, _, _, _, hrest⟩ := h
    refine List.forall_mem_cons.mpr ⟨Nat.le_refl _, fun x hx => ?_⟩
    exact Nat.le_trans (Nat.le_of_lt hlt) (ih hrest x hx)

theorem Contiguous.offsets_pairwise {p q : Position} {ts : List Token} (h : Contiguous p ts q) :
    (offsets ts q.offset).Pairwise (· < ·) := by
  induction ts generalizing p with
  | nil => exact List.pairwise_singleton _ _
  | cons t ts ih =>
    have hlt := h.start_lt
    obtain ⟨_, _, _, _, hrest⟩ := h
    refine List.pairwise_cons.mpr ⟨fun x hx => ?_, ih hrest⟩
    exact Nat.lt_of_lt_of_le hlt (hrest.le_offsets x hx)

def marks (o : Options) (source : String) : List Nat :=
  offsets (grammarTokens o source) (Position.origin.advance source).offset

theorem marks_pairwise (o : Options) (source : String) : (marks o source).Pairwise (· < ·) := by
  have hpairwise := (Stream.ofSource_contiguous source o).offsets_pairwise
  have hseen : ((tokenize source).filter (!·.kind.isTrivia)).map (·.start.offset) =
      (grammarTokens o source).map (·.start.offset) := by
    rw [grammarTokens, List.map_map]
    exact List.map_congr_left fun t _ => congrArg Position.offset (Token.forGrammar_start _ t).symm
  have hsub : (marks o source).Sublist
      (offsets (tokenize source) (Position.origin.advance source).offset) := by
    rw [marks, offsets, ← hseen]
    exact (List.filter_sublist.map _).append (List.Sublist.refl _)
  exact hpairwise.sublist hsub

theorem marks_nodup (o : Options) (source : String) : (marks o source).Nodup :=
  (marks_pairwise o source).imp Nat.ne_of_lt

def Token.face (t : Token) : TokenKind × String := (t.kind, t.text)

namespace Alignment

variable {us vs : List Token} {p q : Nat} (hu : (offsets us p).Nodup) (hv : (offsets vs q).Nodup)

theorem length_eq_of_faces (h : us.map Token.face = vs.map Token.face) : us.length = vs.length := by
  have hlength := congrArg List.length h
  rwa [List.length_map, List.length_map] at hlength

/-- Tokens of the same kinds and texts are aligned one by one. -/
theorem forall₂_of_faces (h : us.map Token.face = vs.map Token.face) :
    List.Forall₂ (Token.Aligned (.ofLists hu hv)) us vs := by
  refine List.forall₂_iff_get.mpr ⟨length_eq_of_faces h, fun i hi hi' => ?_⟩
  have hface := congrArg (·[i]?) h
  simp only [List.getElem?_map, List.getElem?_eq_getElem hi, List.getElem?_eq_getElem hi',
    Option.map_some] at hface
  obtain ⟨hkind, htext⟩ := Prod.mk.inj (Option.some.inj hface)
  refine ⟨hkind, htext, i, ?_, ?_⟩
  · rw [offsets, List.getElem?_append_left (by rwa [List.length_map]), List.getElem?_map,
      List.getElem?_eq_getElem hi]
    rfl
  · rw [offsets, List.getElem?_append_left (by rwa [List.length_map]), List.getElem?_map,
      List.getElem?_eq_getElem hi']
    rfl

/-- So are the places behind them. -/
theorem pairs_stops (h : us.map Token.face = vs.map Token.face) :
    (Alignment.ofLists hu hv).Pairs p q := by
  refine ⟨us.length, ?_, ?_⟩
  · rw [offsets, List.getElem?_append_right (by rw [List.length_map]), List.length_map,
      Nat.sub_self]
    rfl
  · rw [offsets, List.getElem?_append_right (by rw [List.length_map, length_eq_of_faces h]),
      List.length_map, length_eq_of_faces h, Nat.sub_self]
    rfl

end Alignment

variable {o : Options} {text text' : String}

def Alignment.ofTexts (o : Options) (text text' : String) : Alignment :=
  .ofLists (marks_nodup o text) (marks_nodup o text')

theorem grammarTokens_aligned
    (h : (grammarTokens o text).map Token.face = (grammarTokens o text').map Token.face) :
    List.Forall₂ (Token.Aligned (.ofTexts o text text')) (grammarTokens o text)
      (grammarTokens o text') :=
  Alignment.forall₂_of_faces (marks_nodup o text) (marks_nodup o text') h

theorem stops_aligned
    (h : (grammarTokens o text).map Token.face = (grammarTokens o text').map Token.face) :
    (Alignment.ofTexts o text text').Pairs (Position.origin.advance text).offset
      (Position.origin.advance text').offset :=
  Alignment.pairs_stops (marks_nodup o text) (marks_nodup o text') h

namespace ParseState

theorem first_aligned (hdoc : o.extractDoc = false)
    (h : (grammarTokens o text).map Token.face = (grammarTokens o text').map Token.face)
    (fileName fileName' : Option String) :
    (first text fileName o).Aligned (.ofTexts o text text') (first text' fileName' o) where
  stream := .of_onward (s := Stream.ofSource text o.effective)
    (t := Stream.ofSource text' o.effective) rfl hdoc (grammarTokens_aligned h) (stops_aligned h)
    ⟨rfl, rfl⟩
  errors := rfl
  deferred := ⟨rfl, rfl⟩
  nextId := rfl
  openNodes := rfl
  namespaceDepth := rfl

/-! ## Programs -/

theorem Aligned.sealed {A : Alignment} {s t : ParseState} (h : s.Aligned A t)
    {root root' : Opened} (hroot : root.leading = root'.leading) :
    (s.sealed root).1.erased = (t.sealed root').1.erased ∧
      (s.sealed root).2.Aligned A (t.sealed root').2 := by
  have hend : { s with stream := s.stream.finish }.Aligned A { t with stream := t.stream.finish } :=
    ⟨h.stream.finish, h.errors, h.deferred, h.nextId, h.openNodes, h.namespaceDepth⟩
  exact hend.finishNode hroot

theorem Aligned.completed {A : Alignment} {s t : ParseState} (h : s.Aligned A t)
    {root root' : Opened} (hroot : root.leading = root'.leading) {children children' : List Node}
    (hchildren : children.map Node.erased = children'.map Node.erased) :
    (s.completed root children).erased = (t.completed root' children').erased := by
  obtain ⟨hinfo, hsealed⟩ := h.sealed hroot
  have hnone {u : ParseState} (hu : u.stream.options.extractDoc = false) (o : Opened)
      (ns : List Node) : (u.unsettled o ns).comments = none := by
    simp only [unsettled, hu, Bool.false_eq_true, if_false]
  have hs : s.stream.options.extractDoc = false := h.stream.extractDoc
  have ht : t.stream.options.extractDoc = false := h.stream.options ▸ hs
  have herased {u : ParseState} (o : Opened) (ns : List Node) :
      (u.unsettled o ns).erased =
        { (u.sealed o).1.erased with
          children := ns.map Node.erased
          errors := u.errors.toList.map Node.erased
          comments := (u.unsettled o ns).comments
          tokens := none } := rfl
  rw [ParseState.completed, ParseState.completed, Trivia.settle_of_nothing hsealed.deferred.1,
    Trivia.settle_of_nothing hsealed.deferred.2, herased, herased, hinfo, hchildren, h.errors,
    hnone hs, hnone ht]

end ParseState

/-- The statements of both texts come to the same. -/
theorem statementsFrom_alike (hdoc : o.extractDoc = false)
    (h : (grammarTokens o text).map Token.face = (grammarTokens o text').map Token.face)
    (fileName fileName' : Option String) :
    (statementsFrom (.first text fileName o)).Alike (.ofTexts o text text')
      (Same (List.map Node.erased)) (statementsFrom (.first text' fileName' o)) := by
  -- The bounds on the depth of calls differ, but nothing depends on them.
  have hrun (text : String) (fileName : Option String) (b : Nat)
      (hb : (ParseState.first text fileName o).callDepth + 1 ≤ b) :
      statementsFrom (.first text fileName o) =
        Rule.run b .nodes (.topStatements .empty) (.first text fileName o) := by
    have hcost := ParseState.outermost_cost text fileName o
    rw [statementsFrom_eq]
    exact Rule.run_congr (ParseState.outermost_due text fileName o) hcost
      (Nat.lt_of_lt_of_le hcost hb)
  let depth := max ((ParseState.first text fileName o).callDepth + 1)
    ((ParseState.first text' fileName' o).callDepth + 1)
  rw [hrun text fileName depth (Nat.le_max_left _ _),
    hrun text' fileName' depth (Nat.le_max_right _ _)]
  have hfirst := ParseState.first_aligned hdoc h fileName fileName'
  exact Rule.run_alike depth (.same (.topStatements .empty)) hfirst

/-- Where no comments are asked for, two texts of the same grammar tokens come to the same
outcome, whatever they are called and however they are laid out: to the same program up to
positions, lines and copied text, or to the same fault up to its place. -/
theorem parse_ignores_layout (hdoc : o.extractDoc = false)
    (h : (grammarTokens o text).map Token.face = (grammarTokens o text').map Token.face)
    (fileName fileName' : Option String) :
    erasedOutcome (parse text fileName o) = erasedOutcome (parse text' fileName' o) := by
  have hstatements := statementsFrom_alike hdoc h fileName fileName'
  rw [parse_eq, parse_eq]
  generalize statementsFrom (.first text fileName o) = out at hstatements
  generalize statementsFrom (.first text' fileName' o) = out' at hstatements
  cases out with
  | error f =>
    cases out' with
    | error g => exact congrArg Except.error hstatements
    | ok _ => exact hstatements.elim
  | ok last =>
    cases out' with
    | error g => exact hstatements.elim
    | ok last' => exact congrArg Except.ok (hstatements.2.completed rfl hstatements.1)

/-- A comment moves an error to another line, and changes nothing else. -/
theorem parse_ignores_layout_comment :
    Options.tolerant.extractDoc = false ∧
      (grammarTokens .tolerant "<?php 1 +;").map Token.face =
        (grammarTokens .tolerant "<?php // one\n1 + ;").map Token.face ∧
      ((parse "<?php 1 +;" none .tolerant).toOption.map (·.errors.map (·.span.start.line)) =
          some [1] ∧
        (parse "<?php // one\n1 + ;" none .tolerant).toOption.map
          (·.errors.map (·.span.start.line)) = some [2]) ∧
      erasedOutcome (parse "<?php 1 +;" none .tolerant) =
        erasedOutcome (parse "<?php // one\n1 + ;" none .tolerant) := by
  have hface : (grammarTokens .tolerant "<?php 1 +;").map Token.face =
      (grammarTokens .tolerant "<?php // one\n1 + ;").map Token.face := by
    decide +kernel
  refine ⟨rfl, hface, ⟨?_, ?_⟩, parse_ignores_layout rfl hface none none⟩
  · rw [parse_eq, statementsFrom_eq]
    decide +kernel
  · rw [parse_eq, statementsFrom_eq]
    decide +kernel

end PhpSyntax
