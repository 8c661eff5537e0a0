import PhpSyntax.Proofs.Echo.Run

namespace PhpSyntax

def Stream.unlogged (u : Stream) : Stream :=
  { u with options := { u.options with extractTokens := false }, log := none }

def ParseState.unlogged (s : ParseState) : ParseState := { s with stream := s.stream.unlogged }

/-- The same program without its tokens. -/
def Program.unlogged (p : Program) : Program := { p with tokens := none }

namespace Echo

def unlogged : Echo where
  Index := Unit
  order := PUnit.instLinearOrder.toPartialOrder.toPreorder
  renumber := fun _ id => id
  place := id
  hear := id
  trim := id
  tail := id
  limit := none
  States := fun _ s t => t = s.unlogged

theorem adjust_unlogged (p : Production Node) : unlogged.adjust p = p := by
  cases p <;> rfl

theorem image_unlogged (i : unlogged.Index) (n : Node) : unlogged.image i n = n := by
  induction n using Node.induction with
  | step n ih =>
    have hsame : n.production.map (unlogged.image i) = n.production := by
      rw [Production.map_congr (g := id) ih, Production.map_id]
    rw [image_eq, adjust_unlogged, hsame]
    cases n
    rfl

instance : unlogged.Lawful where
  hear_nil := rfl
  hear_append := fun _ _ => rfl
  isOpen_of_leads := fun _ _ _ => nofun
  trim_of_isCase := fun _ _ _ => rfl
  kind := by rintro w s t rfl; rfl
  text := by rintro w s t rfl; rfl
  peek := by rintro w s t rfl j _; exact Iff.rfl
  php7 := by rintro w s t rfl; rfl
  php74 := by rintro w s t rfl; rfl
  tolerates := by rintro w s t rfl; rfl
  namespaceDepth := by rintro w s t rfl; rfl
  start := by rintro w s t rfl; rfl
  offset_iff := by rintro w s t rfl _ p; exact Iff.rfl
  prev := by rintro w s t rfl; rfl
  textBetween := by rintro w s t rfl p; rfl
  advance := by rintro w s t rfl _; rfl
  openNode := by rintro w s t rfl; exact ⟨rfl, rfl⟩
  openAt := by rintro w s t rfl p q; rfl
  finishNode := by rintro w s t rfl o; exact ⟨(), le_rfl, rfl, fun _ _ => rfl⟩
  abandon := by rintro w s t rfl o o' m n; rfl
  record := by
    rintro w s t rfl _ message e
    exact ⟨(), le_rfl, rfl, fun i _ => image_unlogged i _⟩
  tail_empty := fun _ _ => rfl
  fault := by rintro w s t rfl _ cause message; rfl
  nest := by rintro w s t rfl f; rfl
  halt := by rintro w s t rfl _; exact ⟨rfl, rfl⟩
  alone := by
    rintro w s t rfl
    have hsame : s.unlogged.hasUnread = s.hasUnread := rfl
    rw [hsame]
    cases s.hasUnread with
    | false => exact .inl ⟨rfl, rfl⟩
    | true => exact .inr (.inl ⟨rfl, rfl, fun _ => rfl⟩)

end Echo

variable (source : String) (fileName : Option String) (o : Options)

theorem ParseState.completed_unlogged (s : ParseState) (root : Opened) (children : List Node) :
    s.unlogged.completed root children = (s.completed root children).unlogged := by
  have hsettle (t : Trivia) (p : Program) : t.settle p.unlogged = (t.settle p).unlogged := by
    unfold Trivia.settle
    split <;> rfl
  exact hsettle _ (s.unsettled root children)

/-- Whether the tokens are logged shows in the log only. -/
theorem parse_unlogged :
    parse source fileName { o with extractTokens := false } =
      (parse source fileName o).map Program.unlogged := by
  have hfirst : Echo.unlogged.States () (.first source fileName o)
      (.first source fileName { o with extractTokens := false }) := rfl
  have hstatements := statementsFrom_echoes hfirst
  rw [parse_eq, parse_eq]
  cases hout : statementsFrom (.first source fileName o) with
  | error f =>
    rw [hout] at hstatements
    rw [hstatements rfl]
    rfl
  | ok last =>
    rw [hout] at hstatements
    obtain ⟨x, children, t, hout', _, hchildren, rfl⟩ := hstatements fun b hb => nomatch hb
    have himages : last.1.map (Echo.unlogged.image x) = children := hchildren x le_rfl
    have hsame : children = last.1 := by
      rw [← himages]
      exact List.map_id'' (Echo.image_unlogged x) last.1
    rw [hout', hsame]
    exact congrArg Except.ok (ParseState.completed_unlogged last.2 _ last.1)

end PhpSyntax
