/-
Texts that are laid out like others.

To compare the parses of two texts that have most of their tokens in common, the second one is
relaid: its tokens stand where those of the first stand, and those that only it has stand
behind the end of the first (`Token.beyond`).  A parse does not depend on where its tokens
stand, as long as they stand apart (`ParseState.relaid_aligned`).
-/
import PhpSyntax.Proofs.Fork.Stream
import PhpSyntax.Proofs.Layout.Independence
import PhpSyntax.Proofs.Span.Reading

namespace PhpSyntax

/-! ## Tokens in the eyes of the grammar -/

namespace Token

def visible (o : Options) (ts : List Token) : List Token :=
  (ts.filter (!·.kind.isTrivia)).map (·.forGrammar o)

variable {o : Options} {t u : Token} {ts us vs : List Token}

theorem visible_append : visible o (us ++ vs) = visible o us ++ visible o vs := by
  rw [visible, List.filter_append, List.map_append]
  rfl

theorem IsSeen.visible_cons (h : t.IsSeen) : visible o (t :: ts) = t :: visible o ts := by
  rw [visible, filter_kept h.kept, List.map_cons, h.same]
  rfl

/-- Where the grammar sees a token there is one, with the others in front of it and behind. -/
theorem exists_of_visible (h : visible o ts = us ++ t :: vs) :
    ∃ before u behind, ts = before ++ u :: behind ∧ u.forGrammar o = t ∧
      visible o before = us ∧ visible o behind = vs := by
  obtain ⟨as, bs, hfilter, rfl, hbs⟩ := List.map_eq_append_iff.mp h
  obtain ⟨u, cs, rfl, rfl, rfl⟩ := List.map_eq_cons_iff.mp hbs
  obtain ⟨xs, ys, rfl, hxs, hys⟩ := List.filter_eq_append_iff.mp hfilter
  obtain ⟨zs, behind, rfl, hzs, _, hbehind⟩ := List.filter_eq_cons_iff.mp hys
  refine ⟨xs ++ zs, u, behind, by rw [List.append_assoc], rfl, ?_, by rw [visible, hbehind]⟩
  have hnone : zs.filter (!·.kind.isTrivia) = [] := List.filter_eq_nil_iff.mpr hzs
  rw [visible, List.filter_append, hxs, hnone, List.append_nil]

def masks : List TokenKind := [.closeTag, .openTagWithEcho, .kwFn]

theorem isSeen_of {k : TokenKind} (h : t.kind = k) (hkept : k.isTrivia = false) (heof : k ≠ .eof)
    (hk : k ∉ masks) : t.IsSeen := by
  subst h
  refine ⟨hkept, heof, fun o => ?_⟩
  simp only [masks, List.mem_cons, List.not_mem_nil, or_false, not_or] at hk
  rw [forGrammar]
  split
  case h_1 he => exact absurd he hk.1
  case h_2 he => exact absurd he hk.2.1
  case h_3 he => exact absurd he hk.2.2
  case h_4 => rfl

/-- A brace is what the grammar sees in it. -/
theorem eq_of_forGrammar (h : u.forGrammar o = t) (hk : t.kind ∉ TokenKind.assumed)
    (hmask : t.kind ∉ masks) : u = t := by
  have hkind : t.kind = u.kind := by
    have hkinds := forGrammar_kind o u
    rw [h] at hkinds
    exact hkinds.resolve_right hk
  rw [hkind] at hmask
  simp only [masks, List.mem_cons, List.not_mem_nil, or_false, not_or] at hmask
  rw [← h, forGrammar]
  split
  case h_1 he => exact absurd he hmask.1
  case h_2 he => exact absurd he hmask.2.1
  case h_3 he => exact absurd he hmask.2.2
  case h_4 => rfl

def as (t : Token) (k : TokenKind) (text : String) : Token := { t with kind := k, text := text }

end Token

/-! ## What stands apart -/

variable {o : Options} {text : String}

/-- A token behind the end of a text, where nothing else is. -/
def Token.beyond (text : String) (i : Nat) (k : TokenKind) (word : String) (stop : Position) :
    Token :=
  ⟨k, word, { Position.origin.advance text with
    offset := (Position.origin.advance text).offset + 1 + i }, stop⟩

theorem Token.lt_beyond (text : String) (i : Nat) {k : TokenKind} {word : String}
    {stop : Position} :
    (Position.origin.advance text).offset < (beyond text i k word stop).start.offset := by
  show _ < (Position.origin.advance text).offset + 1 + i
  omega

/-- Tokens at places of tokens of a text, and others behind its end. -/
theorem relaid_nodup {ts us : List Token}
    (hts : (ts.map fun t => t.start.offset).Sublist
      ((grammarTokens o text).map fun t => t.start.offset))
    (hus : us.Pairwise fun t u => t.start.offset < u.start.offset)
    (hlt : ∀ u ∈ us, (Position.origin.advance text).offset < u.start.offset) :
    (offsets (ts ++ us) (Position.origin.advance text).offset).Nodup := by
  have hmarks := marks_pairwise o text
  rw [marks, offsets, List.pairwise_append] at hmarks
  obtain ⟨hstarts, _, hend⟩ := hmarks
  rw [offsets, List.map_append, List.append_assoc, List.nodup_append]
  refine ⟨(hstarts.sublist hts).imp Nat.ne_of_lt, ?_, fun x hx y hy => ?_⟩
  · rw [List.nodup_append]
    refine ⟨(List.pairwise_map.mpr hus).imp Nat.ne_of_lt, List.pairwise_singleton _ _, ?_⟩
    rintro x hx y hy
    obtain ⟨u, hu, rfl⟩ := List.mem_map.mp hx
    rw [List.mem_singleton.mp hy]
    exact Nat.ne_of_gt (hlt u hu)
  · have hx := hend x (hts.subset hx) _ (List.mem_singleton_self _)
    rcases List.mem_append.mp hy with hy | hy
    · obtain ⟨u, hu, rfl⟩ := List.mem_map.mp hy
      exact Nat.ne_of_lt (Nat.lt_trans hx (hlt u hu))
    · rw [List.mem_singleton.mp hy]
      exact Nat.ne_of_lt hx

/-! ## Streams -/

namespace Stream

def relaid (text : String) (o : Options) (ts : List Token) : Stream :=
  { ofSource text o.effective with ahead := ts }

theorem advance_of_onward {s : Stream} {t : Token} {ts : List Token} (h : s.onward = t :: ts) :
    s.advance.current = t ∧ s.advance.onward = ts := by
  rw [advance_current, advance_onward, h]
  exact ⟨rfl, rfl⟩

end Stream

def ParseState.relaid (text : String) (fileName : Option String) (o : Options) (ts : List Token) :
    ParseState :=
  { ParseState.first text fileName o with stream := (Stream.relaid text o ts).advance }

/-- What is relaid is aligned with any text of the same kinds and texts of tokens. -/
theorem ParseState.relaid_aligned (text text' : String) {ts : List Token}
    (hdoc : o.extractDoc = false)
    (hmarks : (offsets (Token.visible o.effective ts) (Position.origin.advance text).offset).Nodup)
    (hfaces : (Token.visible o.effective ts).map Token.face =
      (grammarTokens o text').map Token.face) (fileName fileName' : Option String) :
    (ParseState.relaid text fileName o ts).Aligned (.ofLists hmarks (marks_nodup o text'))
      (.first text' fileName' o) where
  stream := .of_onward (s := .relaid text o ts) (t := Stream.ofSource text' o.effective) rfl hdoc
    (Alignment.forall₂_of_faces hmarks (marks_nodup o text') hfaces)
    (Alignment.pairs_stops hmarks (marks_nodup o text') hfaces) ⟨rfl, rfl⟩
  errors := rfl
  deferred := ⟨rfl, rfl⟩
  nextId := rfl
  openNodes := rfl
  namespaceDepth := rfl

end PhpSyntax
