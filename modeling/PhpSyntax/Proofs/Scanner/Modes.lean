/-
Where a text is code and where it is HTML.

HTML lasts up to the next opening tag and not beyond it (`html_opens`), an opening tag starts
code and a closing tag ends it.  What stands before and behind a token of each kind follows
from what is found in either language; that code was opened by a tag, with nothing in between
that ends it, is by induction on the tokens in front of it (`code_opened`).
-/
import PhpSyntax.Proofs.Scanner.Place
import Mathlib.Data.List.Induction

namespace PhpSyntax

theorem Mode.after_of_not_tag (m : Mode) {k : TokenKind} (hopen : k ∉ TokenKind.openTags)
    (hclose : k ≠ .closeTag) : m.after k = m := by
  unfold after
  split
  · exact absurd (by decide) hopen
  · exact absurd (by decide) hopen
  · exact absurd rfl hclose
  · rfl

/-- The text starts with an opening tag: `<?=`, or `<?php` in any case in front of white space
or of the end of the text. -/
inductive OpensTag : List Char → Prop
  | echo (r : List Char) : OpensTag ('<' :: '?' :: '=' :: r)
  | long (word r : List Char) : word.map Char.toLower = ['p', 'h', 'p'] →
      (∀ c ∈ r.head?, c ∈ [' ', '\t', '\n', '\r']) → OpensTag ('<' :: '?' :: (word ++ r))

namespace Lexeme

variable {cs : List Char}

/-! ## Opening tags -/

theorem isSpace_iff (c : Char) : isSpace c = true ↔ c ∈ [' ', '\t', '\n', '\r'] := by
  simp [isSpace, isBlank, or_assoc]

theorem opensTag_of_openTag? (h : (openTag? cs).isSome = true) : OpensTag cs := by
  unfold openTag? at h
  split at h
  · next r =>
    split at h
    · next hr =>
      obtain ⟨r', rfl⟩ := List.head?_eq_some_iff.mp hr
      exact .echo r'
    · split at h
      · next hword =>
        have hlower : (r.take 3).map Char.toLower = ['p', 'h', 'p'] :=
          (startsWith_iff (List.length_take_le 3 r)).mp hword
        rw [← List.take_append_drop 3 r]
        refine .long _ _ hlower fun c hc => ?_
        rw [← isSpace_iff]
        split at h
        · next hnil => simp [hnil] at hc
        · next hline =>
          rw [hline] at hc
          cases hc
          rfl
        · next d r' _ hcons =>
          rw [hcons] at hc
          cases hc
          split at h
          · assumption
          · cases h
      · cases h
  · cases h

theorem openTag?_of_opensTag (h : OpensTag cs) : (openTag? cs).isSome = true := by
  cases h with
  | echo r => rfl
  | long word r hword hr =>
    have hlength : word.length = 3 := by
      rw [← List.length_map Char.toLower, hword]
      rfl
    have hequal : ¬(word ++ r).head? = some '=' := by
      intro h
      cases word with
      | nil => cases hword
      | cons c word =>
        cases h
        exact absurd (List.cons.inj hword).1 (by decide)
    have hstarts : startsWith "php" ((word ++ r).take 3) = true := by
      rw [← hlength, List.take_left, startsWith, hword]
      rfl
    have hdrop : (word ++ r).drop 3 = r := by rw [← hlength, List.drop_left]
    simp only [openTag?, hequal, hstarts, hdrop, if_true, if_false]
    split
    · rfl
    · rfl
    · next c r' _ =>
      have hc := (isSpace_iff c).mpr (hr c rfl)
      rw [hc]
      rfl

theorem openTag?_isSome : (openTag? cs).isSome = true ↔ OpensTag cs :=
  ⟨opensTag_of_openTag?, openTag?_of_opensTag⟩

/-! ## HTML -/

/-- No tag begins in HTML. -/
theorem html_tagless {i : Nat} (hi : i < htmlLength cs) : ¬OpensTag (cs.drop i) := by
  induction cs generalizing i with
  | nil => exact absurd hi (Nat.not_lt_zero i)
  | cons c r ih =>
    rw [htmlLength] at hi
    split at hi
    · exact absurd hi (Nat.not_lt_zero i)
    · next hnone =>
      cases i with
      | zero =>
        rw [openTag?_isSome] at hnone
        exact hnone
      | succ i => exact ih (by omega)

/-- Behind HTML there is nothing but a tag. -/
theorem html_opens (h : cs.drop (htmlLength cs) ≠ []) : OpensTag (cs.drop (htmlLength cs)) := by
  induction cs with
  | nil => exact absurd rfl h
  | cons c r ih =>
    rw [htmlLength] at h ⊢
    split
    · next hsome => exact openTag?_isSome.mp hsome
    · next hnone =>
      rw [if_neg hnone, Nat.add_comm] at h
      rw [Nat.add_comm]
      exact ih h

end Lexeme

/-! ## One token -/

namespace Token.FoundIn

open TokenKind

variable {t u : Token} {m : Mode} {cs ds rest : List Char}

/-- Outside of code a token is a tag if and only if a tag stands there. -/
theorem tag_iff (h : t.FoundIn .html cs rest) : t.kind ∈ openTags ↔ OpensTag cs := by
  rw [h.kind, ← Lexeme.openTag?_isSome]
  show (Lexeme.html cs).kind ∈ openTags ↔ _
  rw [Lexeme.html]
  cases hfind : Lexeme.openTag? cs with
  | none => simp [openTags]
  | some l => simp [Lexeme.openTag?_finds cs l hfind]

theorem html_length (h : t.FoundIn m cs rest) (hk : t.kind = .inlineHtml) :
    (Lexeme.ofMode m cs).length = Lexeme.htmlLength cs := by
  have hm : m = .html := h.html_iff.mp (hk ▸ List.mem_cons_self)
  subst hm
  have htag : ¬OpensTag cs := by
    rw [← h.tag_iff, hk]
    decide
  rw [← Lexeme.openTag?_isSome, Bool.not_eq_true, Option.isSome_eq_false_iff,
    Option.isNone_iff_eq_none] at htag
  show (Lexeme.html cs).length = _
  rw [Lexeme.html, htag]
  rfl

/-- Behind HTML there is a tag, if anything. -/
theorem tag_of_html (h : t.FoundIn m cs ds) (hk : t.kind = .inlineHtml)
    (hu : u.FoundIn (m.after t.kind) ds rest) : u.kind ∈ openTags := by
  have hm : m = .html := h.html_iff.mp (hk ▸ List.mem_cons_self)
  have hds : ds = cs.drop (Lexeme.htmlLength cs) := by rw [h.rest, h.html_length hk]
  have hu' : u.FoundIn .html ds rest := by
    rw [hk, hm] at hu
    exact hu
  rw [hu'.tag_iff, hds]
  apply Lexeme.html_opens
  rw [← hds]
  exact hu.ahead

/-- Code does not end but at a closing tag. -/
theorem closes (h : t.FoundIn m cs ds) (hafter : m.after t.kind = .html) :
    t.kind = .inlineHtml ∨ t.kind = .closeTag := by
  by_cases hclose : t.kind = .closeTag
  · exact .inr hclose
  · have hopen : t.kind ∉ openTags := by
      intro hk
      have hk' : t.kind = .openTag ∨ t.kind = .openTagWithEcho := by simpa [openTags] using hk
      rcases hk' with e | e
      all_goals
        rw [e] at hafter
        cases hafter
    have hhtml : t.kind ∈ htmlKinds := by
      rw [h.html_iff, ← Mode.after_of_not_tag m hopen hclose]
      exact hafter
    rcases List.mem_cons.mp hhtml with hk | hk
    · exact .inl hk
    · exact absurd hk hopen

end Token.FoundIn

/-! ## All tokens -/

open TokenKind

/-- Where the tokens of a text lead to code, the last tag among them opens it. -/
theorem code_opened {source : String} {before after : List Token}
    (h : tokenize source = before ++ after) (hmode : Mode.html.behind before = .code) :
    ∃ init tag mid, before = init ++ tag :: mid ∧ tag.kind ∈ openTags ∧
      ∀ u ∈ mid, u.kind ∉ .closeTag :: htmlKinds := by
  induction before using List.reverseRecOn generalizing after with
  | nil => cases hmode
  | append_singleton init t ih =>
    rw [Mode.behind_concat] at hmode
    by_cases hopen : t.kind ∈ openTags
    · exact ⟨init, t, [], rfl, hopen, by simp⟩
    · have hclose : t.kind ≠ .closeTag := by
        intro hk
        rw [hk] at hmode
        cases hmode
      rw [Mode.after_of_not_tag _ hopen hclose] at hmode
      have h' : tokenize source = init ++ t :: after := by
        rw [h, List.append_assoc, List.singleton_append]
      obtain ⟨cs, ht⟩ := tokenize_place h'
      have hhtml : t.kind ∉ htmlKinds := by
        rw [ht.html_iff, hmode]
        nofun
      obtain ⟨first, tag, mid, rfl, htag, hmid⟩ := ih h' hmode
      refine ⟨first, tag, mid ++ [t], by simp, htag, fun u hu => ?_⟩
      rcases List.mem_append.mp hu with hu | hu
      · exact hmid u hu
      · rw [List.mem_singleton.mp hu]
        exact List.not_mem_cons_of_ne_of_not_mem hclose hhtml

/-- How a token between the tokens `before` and `after` of a text stands to HTML and to the tags
around it. -/
structure KeepsModes (before : List Token) (t : Token) (after : List Token) : Prop where
  /-- HTML comes first or behind a closing tag. -/
  htmlBehind : t.kind = .inlineHtml → ∀ u ∈ before.getLast?, u.kind = .closeTag
  /-- It lasts up to an opening tag or the end of the text. -/
  htmlBefore : t.kind = .inlineHtml → ∀ u ∈ after.head?, u.kind ∈ openTags
  /-- No opening tag begins in it. -/
  htmlTagless : t.kind = .inlineHtml → ∀ i < t.text.toList.length,
    ¬OpensTag ((t.text.toList ++ Token.chars after).drop i)
  /-- An opening tag comes first, behind HTML or behind a closing tag. -/
  tagBehind : t.kind ∈ openTags → ∀ u ∈ before.getLast?, u.kind = .inlineHtml ∨ u.kind = .closeTag
  /-- It is spelled as an opening tag. -/
  tagSpelled : t.kind ∈ openTags → OpensTag (t.text.toList ++ Token.chars after)
  /-- Behind a closing tag there is HTML, an opening tag or nothing. -/
  closeBefore : t.kind = .closeTag → ∀ u ∈ after.head?, u.kind ∈ htmlKinds
  /-- Anything else has an opening tag in front of it, and no HTML or tag in between. -/
  codeOpened : t.kind ∉ htmlKinds → ∃ init tag mid, before = init ++ tag :: mid ∧
    tag.kind ∈ openTags ∧ ∀ u ∈ mid, u.kind ∉ .closeTag :: htmlKinds

/-- HTML and code alternate at the tags: HTML starts at the beginning or behind a closing tag
and lasts up to the first opening tag, opening tags are only found there, and everything else
is between an opening tag and the next closing tag. -/
theorem tokenize_keepsModes {source : String} {before after : List Token} {t : Token}
    (h : tokenize source = before ++ t :: after) : KeepsModes before t after := by
  obtain ⟨cs, ht⟩ := tokenize_place h
  -- the neighbours of the token, if it has them
  have hlast : ∀ u ∈ before.getLast?, ∃ m cs ds, u.FoundIn m cs ds ∧
      t.FoundIn (m.after u.kind) ds (Token.chars after) := by
    intro u hu
    obtain ⟨init, rfl⟩ := List.getLast?_eq_some_iff.mp hu
    rw [List.append_assoc, List.singleton_append] at h
    exact tokenize_neighbours h
  have hhead : ∀ u ∈ after.head?, ∃ m cs ds rest, t.FoundIn m cs ds ∧
      u.FoundIn (m.after t.kind) ds rest := by
    intro u hu
    obtain ⟨behind, rfl⟩ := List.head?_eq_some_iff.mp hu
    obtain ⟨m, cs, ds, ht, hu⟩ := tokenize_neighbours h
    exact ⟨m, cs, ds, _, ht, hu⟩
  refine ⟨fun hk u hu => ?_, fun hk u hu => ?_, fun hk i hi => ?_, fun hk u hu => ?_,
    fun hk => ?_, fun hk u hu => ?_, fun hk => ?_⟩
  · obtain ⟨m, cs, ds, hu, ht⟩ := hlast u hu
    rcases hu.closes (ht.html_iff.mp (hk ▸ List.mem_cons_self)) with hhtml | hclose
    · have htag := hu.tag_of_html hhtml ht
      rw [hk] at htag
      exact absurd htag (by decide)
    · exact hclose
  · obtain ⟨m, cs, ds, rest, ht, hu⟩ := hhead u hu
    exact ht.tag_of_html hk hu
  · rw [ht.append]
    apply Lexeme.html_tagless
    rw [ht.text, ht.html_length hk, List.length_take] at hi
    omega
  · obtain ⟨m, cs, ds, hu, ht⟩ := hlast u hu
    exact hu.closes (ht.html_iff.mp (List.mem_cons_of_mem _ hk))
  · have hmode := ht.html_iff.mp (List.mem_cons_of_mem _ hk)
    rw [hmode] at ht
    rw [ht.append]
    exact ht.tag_iff.mp hk
  · obtain ⟨m, cs, ds, rest, _, hu⟩ := hhead u hu
    rw [hk] at hu
    exact hu.html_iff.mpr rfl
  · apply code_opened h
    rw [ht.html_iff] at hk
    cases hmode : Mode.html.behind before with
    | html => exact absurd hmode hk
    | code => rfl

/-- In `a<?php b ?>c<?=d` the middle stretch of HTML stands between a closing and an opening
tag. -/
theorem tokenize_keepsModes_html :
    ∃ before after t, tokenize "a<?php b ?>c<?=d" = before ++ t :: after ∧
      t.kind = .inlineHtml ∧ before.length = 5 ∧ KeepsModes before t after := by
  have h : ∃ t, tokenize "a<?php b ?>c<?=d" =
      (tokenize "a<?php b ?>c<?=d").take 5 ++ t :: (tokenize "a<?php b ?>c<?=d").drop 6 ∧
        t.kind = .inlineHtml ∧ ((tokenize "a<?php b ?>c<?=d").take 5).length = 5 :=
    ⟨⟨.inlineHtml, "c", ⟨1, 11, 11⟩, ⟨1, 12, 12⟩⟩, by decide +kernel⟩
  obtain ⟨t, htokens, hkind, hlength⟩ := h
  exact ⟨_, _, t, htokens, hkind, hlength, tokenize_keepsModes htokens⟩

end PhpSyntax
