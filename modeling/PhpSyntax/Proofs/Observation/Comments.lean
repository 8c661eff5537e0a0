import Mathlib.Data.List.Nodup
import Mathlib.Data.List.Perm.Subperm
import PhpSyntax.Proofs.Echo.Run
import PhpSyntax.Proofs.Layout.Aligned
import PhpSyntax.Proofs.Observation.Undocumented

namespace PhpSyntax

/-! ## Identities -/

/-- The identities drawn so far that the echo lacks. -/
structure Dropped where
  bound : Nat
  ids : List Nat
  ids_lt : ∀ d ∈ ids, d < bound
  nodup : ids.Nodup

namespace Dropped

instance : Preorder Dropped where
  le w x := w.bound ≤ x.bound ∧ ∃ more, x.ids = w.ids ++ more ∧ ∀ d ∈ more, w.bound ≤ d
  le_refl w := ⟨Nat.le_refl _, [], (List.append_nil _).symm, nofun⟩
  le_trans w x y := by
    rintro ⟨hwx, more, hx, hmore⟩ ⟨hxy, later, hy, hlater⟩
    refine ⟨Nat.le_trans hwx hxy, more ++ later, ?_, fun d hd => ?_⟩
    · rw [hy, hx, List.append_assoc]
    · rcases List.mem_append.mp hd with hd | hd
      · exact hmore d hd
      · exact Nat.le_trans hwx (hlater d hd)

variable {w x : Dropped}

/-- No identity changes later. -/
theorem shift_of_le (h : w ≤ x) {id : Nat} (hid : id < w.bound) :
    shift x.ids id = shift w.ids id := by
  obtain ⟨_, more, hids, hmore⟩ := h
  have hnone : more.countP (· < id) = 0 := by
    apply List.countP_eq_zero.mpr
    intro d hd
    have hle := hmore d hd
    simp only [decide_eq_true_eq]
    omega
  rw [shift, shift, hids, List.countP_append, hnone, Nat.add_zero]

theorem length_le (w : Dropped) : w.ids.length ≤ w.bound := by
  have hsub : w.ids ⊆ List.range w.bound := fun d hd => List.mem_range.mpr (w.ids_lt d hd)
  have hle := (List.subperm_of_subset w.nodup hsub).length_le
  rwa [List.length_range] at hle

theorem shift_bound (w : Dropped) : shift w.ids w.bound = w.bound - w.ids.length :=
  shift_of_forall_lt w.ids_lt

def draw (w : Dropped) : Dropped :=
  ⟨w.bound + 1, w.ids, fun d hd => Nat.lt_succ_of_lt (w.ids_lt d hd), w.nodup⟩

def skip (w : Dropped) : Dropped where
  bound := w.bound + 1
  ids := w.ids ++ [w.bound]
  ids_lt := fun d hd => by
    rcases List.mem_append.mp hd with hd | hd
    · exact Nat.lt_succ_of_lt (w.ids_lt d hd)
    · rw [List.mem_singleton.mp hd]
      exact Nat.lt_succ_self _
  nodup := by
    refine List.nodup_append.mpr ⟨w.nodup, List.nodup_singleton _, fun d hd e he => ?_⟩
    rw [List.mem_singleton.mp he]
    exact Nat.ne_of_lt (w.ids_lt d hd)

theorem le_draw (w : Dropped) : w ≤ w.draw :=
  ⟨Nat.le_succ _, [], (List.append_nil _).symm, nofun⟩

theorem le_skip (w : Dropped) : w ≤ w.skip := by
  refine ⟨Nat.le_succ _, [w.bound], rfl, fun d hd => ?_⟩
  rw [List.mem_singleton.mp hd]

/-- The identity that is drawn in both runs. -/
theorem shift_draw {i : Dropped} (h : w.draw ≤ i) :
    shift i.ids w.bound = w.bound - w.ids.length := by
  rw [shift_of_le h (Nat.lt_succ_self _)]
  exact w.shift_bound

end Dropped

/-! ## The run without comments -/

def Stream.undocumented (u : Stream) : Stream :=
  { u with options := { u.options with extractDoc := false }, comments := #[] }

structure ParseState.Undocumented (w : Dropped) (s t : ParseState) : Prop where
  stream : t.stream = s.stream.undocumented
  sound : s.stream.Sound
  fileName : t.fileName = s.fileName
  deferred : t.trivia.deferred = #[]
  openNodes : t.openNodes = s.openNodes
  namespaceDepth : t.namespaceDepth = s.namespaceDepth
  bound : w.bound = s.nextId
  nextId : t.nextId = s.nextId - w.ids.length
  errors : ∀ i, w ≤ i → s.errors.toList.map (Node.undocumented i.ids) = t.errors.toList
  /-- An error is not left out. -/
  recorded : ∀ e ∈ s.errors.toList, e.isError = true ∧ e.id < s.nextId ∧ e.id ∉ w.ids

namespace Echo

def undocumented : Echo where
  Index := Dropped
  order := inferInstance
  renumber := fun w id => shift w.ids id
  place := id
  hear := fun _ => []
  trim := Node.emptied
  tail := id
  limit := none
  States := ParseState.Undocumented

theorem image_undocumented (w : undocumented.Index) (n : Node) :
    undocumented.image w n = n.undocumented (Dropped.ids w) := by
  let f := NodeInfo.undocumented (Dropped.ids w)
  have hadjust (p : Production Node) :
      undocumented.adjust (p.map (Node.mapInfo f)) = p.emptied.map (Node.mapInfo f) := by
    rw [← Production.emptied_mapInfo f fun _ => rfl]
    cases p <;> rfl
  induction n using Node.induction with
  | step n ih =>
    have hmap : n.production.map (undocumented.image w) =
        (n.production.map Node.withoutStandIns).map (Node.mapInfo f) := by
      rw [Production.map_map]
      exact Production.map_congr ih
    rw [image_eq, hmap, hadjust, Node.undocumented, Node.mapInfo_eq, Node.withoutStandIns_eq]
    rfl

end Echo

/-! ## The actions of both runs -/

namespace ParseState.Undocumented

variable {w : Dropped} {s t : ParseState}

theorem kind (h : Undocumented w s t) : t.kind = s.kind := by
  rw [ParseState.kind, h.stream]
  rfl

theorem hasUnread (h : Undocumented w s t) : t.hasUnread = false := by
  rw [ParseState.hasUnread, h.stream]
  show (!(t.trivia.unread #[]).isEmpty) = false
  rw [Trivia.unread_of_nothing]
  rfl

/-- An identity has been drawn in both runs, for a node that is no error. -/
theorem draw (h : Undocumented w s t) (trivia trivia' : Trivia)
    (hdeferred : trivia'.deferred = #[]) :
    Undocumented w.draw
      { s with trivia := trivia, nextId := s.nextId + 1, openNodes := s.openNodes - 1 }
      { t with trivia := trivia', nextId := t.nextId + 1, openNodes := t.openNodes - 1 } where
  stream := h.stream
  sound := h.sound
  fileName := h.fileName
  deferred := hdeferred
  openNodes := congrArg (· - 1) h.openNodes
  namespaceDepth := h.namespaceDepth
  bound := congrArg (· + 1) h.bound
  nextId := by
    have hle : w.ids.length ≤ s.nextId := h.bound ▸ w.length_le
    have hnext := h.nextId
    show t.nextId + 1 = s.nextId + 1 - w.ids.length
    omega
  errors := fun i hi => h.errors i (w.le_draw.trans hi)
  recorded := fun e he => by
    obtain ⟨herror, hlt, hkept⟩ := h.recorded e he
    exact ⟨herror, Nat.lt_succ_of_lt hlt, hkept⟩

/-- An identity has been drawn for a node that is missing in the echo. -/
theorem skip (h : Undocumented w s t) (trivia : Trivia) (opened : Nat)
    (hopened : t.openNodes = opened) :
    Undocumented w.skip
      { s with trivia := trivia, nextId := s.nextId + 1, openNodes := opened } t where
  stream := h.stream
  sound := h.sound
  fileName := h.fileName
  deferred := h.deferred
  openNodes := hopened
  namespaceDepth := h.namespaceDepth
  bound := congrArg (· + 1) h.bound
  nextId := by
    have hnext := h.nextId
    show t.nextId = s.nextId + 1 - (w.ids ++ [w.bound]).length
    rw [List.length_append, List.length_singleton]
    omega
  errors := fun i hi => h.errors i (w.le_skip.trans hi)
  recorded := fun e he => by
    obtain ⟨herror, hlt, hkept⟩ := h.recorded e he
    refine ⟨herror, Nat.lt_succ_of_lt hlt, fun hmem => ?_⟩
    rcases List.mem_append.mp hmem with hmem | hmem
    · exact hkept hmem
    · have hbound := h.bound
      have heq := List.mem_singleton.mp hmem
      omega

theorem finishNode (h : Undocumented w s t) (o : Opened) :
    Undocumented w.draw (s.finishNode o).2 (t.finishNode (Echo.undocumented.opened o)).2 ∧
      ∀ i : Dropped, w.draw ≤ i →
        Echo.undocumented.info i (s.finishNode o).1 =
          (t.finishNode (Echo.undocumented.opened o)).1 := by
  have hcomments : t.stream.comments = #[] := congrArg Stream.comments h.stream
  have hprev : t.stream.prev = s.stream.prev := by
    rw [h.stream]
    rfl
  have htrail := Trivia.trail_of_nothing h.deferred t.nextId t.stream.prev t.stream.current.isEof
  rw [← hcomments] at htrail
  refine ⟨h.draw _ _ htrail.2, fun i hi => ?_⟩
  have hid : shift i.ids s.nextId = t.nextId := by
    rw [← h.bound, Dropped.shift_draw hi, h.nextId, h.bound]
  let span (prev : Position) : Span :=
    .between o.start (if o.start.offset ≤ prev.offset then prev else o.start)
  show NodeInfo.mk (shift i.ids s.nextId) (span s.stream.prev) [] [] =
    NodeInfo.mk t.nextId (span t.stream.prev) []
      (t.trivia.trail t.stream.comments t.nextId t.stream.prev t.stream.current.isEof).1
  rw [hid, htrail.1, hprev]

/-- An error that is recorded is an error of both runs. -/
theorem record (h : Undocumented w s t) (message : String) (e : Expected) :
    Undocumented w.draw (s.record message e) (t.record message e) ∧
      ∀ i : Dropped, w.draw ≤ i →
        (s.errorNode message e).undocumented i.ids = t.errorNode message e := by
  have hlength : w.ids.length ≤ s.nextId := h.bound ▸ w.length_le
  have hcurrent : t.stream.current = s.stream.current := by
    rw [h.stream]
    rfl
  have hnode (i : Dropped) (hi : w.draw ≤ i) :
      (s.errorNode message e).undocumented i.ids = t.errorNode message e := by
    have hid : shift i.ids s.nextId = t.nextId := by
      rw [← h.bound, Dropped.shift_draw hi, h.nextId, h.bound]
    rw [ParseState.errorNode, ParseState.errorNode, hcurrent, ← hid]
    rfl
  refine ⟨?_, hnode⟩
  exact
    { stream := h.stream
      sound := h.sound
      fileName := h.fileName
      deferred := h.deferred
      openNodes := h.openNodes
      namespaceDepth := h.namespaceDepth
      bound := congrArg (· + 1) h.bound
      nextId := by
        have hnext := h.nextId
        show t.nextId + 1 = s.nextId + 1 - w.ids.length
        omega
      errors := fun i hi => by
        show (s.errors.push _).toList.map _ = (t.errors.push _).toList
        rw [Array.toList_push, Array.toList_push, List.map_append,
          h.errors i (w.le_draw.trans hi), List.map_singleton, hnode i hi]
      recorded := fun n hn => by
        have hn : n ∈ (s.errors.push (s.errorNode message e)).toList := hn
        rw [Array.toList_push] at hn
        rcases List.mem_append.mp hn with hn | hn
        · obtain ⟨herror, hlt, hkept⟩ := h.recorded n hn
          exact ⟨herror, Nat.lt_succ_of_lt hlt, hkept⟩
        · rw [List.mem_singleton.mp hn]
          refine ⟨rfl, Nat.lt_succ_self _, fun hmem => ?_⟩
          have hlt := w.ids_lt _ hmem
          rw [h.bound] at hlt
          exact Nat.lt_irrefl _ hlt }

/-- The stream goes on in both runs. -/
theorem goOn (h : Undocumented w s t) {u v : Stream} (hv : v = u.undocumented) (hu : u.Sound) :
    Undocumented w { s with stream := u } { t with stream := v } :=
  ⟨hv, hu, h.fileName, h.deferred, h.openNodes, h.namespaceDepth, h.bound, h.nextId, h.errors,
    h.recorded⟩

/-- Where comments are unread a node is made for them in the first run.  It has no text. -/
theorem alone (h : Undocumented w s t) :
    let last := s.openNode.2.finishNode s.openNode.1
    Undocumented w.skip last.2 t ∧
      ∀ i : Dropped, ∀ info, Node.emptied ⟨info, .block [(⟨last.1, .noop⟩ : Node).undocumented i.ids]⟩ =
        ⟨info, .block []⟩ := by
  refine ⟨h.skip _ _ h.openNodes, fun i info => ?_⟩
  let here := s.stream.current.start
  have hprev := h.sound.prev_le
  have hstand : (⟨(s.openNode.2.finishNode s.openNode.1).1, .noop⟩ : Node).isStandIn = true := by
    show (true && decide (here.offset =
      (if here.offset ≤ s.stream.prev.offset then s.stream.prev else here).offset)) = true
    rw [Bool.true_and, decide_eq_true_eq]
    split
    · exact Nat.le_antisymm ‹_› hprev
    · rfl
  have himage : ((⟨(s.openNode.2.finishNode s.openNode.1).1, .noop⟩ : Node).undocumented
      i.ids).isStandIn = true := hstand
  simp only [Node.emptied, himage, if_true]

end ParseState.Undocumented

open ParseState.Undocumented

instance : Echo.undocumented.Lawful where
  hear_nil := rfl
  hear_append := fun _ _ => rfl
  isOpen_of_leads := fun _ _ _ => nofun
  trim_of_isCase := fun info ns h => by
    match ns with
    | [] => rfl
    | [n] =>
      obtain ⟨info', p⟩ := n
      have hcase := h _ (List.mem_singleton.mpr rfl)
      cases p with
      | noop => cases hcase
      | _ => rfl
    | _ :: _ :: _ => rfl
  kind := kind
  text := fun h => by rw [h.stream]; rfl
  peek := fun h j _ => by rw [h.stream]; exact Iff.rfl
  php7 := fun h => by rw [h.stream]; rfl
  php74 := fun h => by rw [h.stream]; rfl
  tolerates := fun h => by
    rw [ParseState.tolerates, h.stream]
    rfl
  namespaceDepth := ParseState.Undocumented.namespaceDepth
  start := fun h => by rw [h.stream]; rfl
  offset_iff := fun {w s t} h _ p => by
    rw [ParseState.offset, h.stream]
    exact Iff.rfl
  prev := fun h => by rw [h.stream]; rfl
  textBetween := fun h p => by rw [h.stream]; rfl
  advance := fun {w s t} h _ => by
    refine h.goOn ?_ (Stream.advance_sound h.sound)
    rw [h.stream]
    rfl
  openNode := fun {w s t} h => by
    have hopened : t.openNode.1 = Echo.undocumented.opened s.openNode.1 := by
      show Opened.mk t.stream.current.start (t.trivia.unread t.stream.comments) =
        ⟨s.stream.current.start, []⟩
      rw [h.stream]
      exact congrArg (Opened.mk _) t.trivia.unread_of_nothing
    exact ⟨hopened, h.stream, h.sound, h.fileName, h.deferred, congrArg (· + 1) h.openNodes,
      h.namespaceDepth, h.bound, h.nextId, h.errors, h.recorded⟩
  openAt := fun {w s t} h p q =>
    ⟨h.stream, h.sound, h.fileName, h.deferred, congrArg (· + 1) h.openNodes, h.namespaceDepth,
      h.bound, h.nextId, h.errors, h.recorded⟩
  finishNode := fun {w s t} h o => ⟨w.draw, w.le_draw, h.finishNode o⟩
  abandon := fun {w s t} h o o' m n =>
    ⟨h.stream, h.sound, h.fileName, h.deferred, congrArg (· - 1) h.openNodes, h.namespaceDepth,
      h.bound, h.nextId, h.errors, h.recorded⟩
  record := fun {w s t} h _ message e => by
    obtain ⟨hs, hnode⟩ := h.record message e
    exact ⟨w.draw, w.le_draw, hs, fun i hi => (Echo.image_undocumented i _).trans (hnode i hi)⟩
  tail_empty := fun _ _ => rfl
  fault := fun {w s t} h _ cause message => by
    rw [ParseState.fault, ParseState.fault, h.stream, h.fileName]
    rfl
  nest := fun {w s t} h f =>
    ⟨h.stream, h.sound, h.fileName, h.deferred, h.openNodes, congrArg f h.namespaceDepth, h.bound,
      h.nextId, h.errors, h.recorded⟩
  halt := fun {w s t} h _ => by
    have hhalt : t.stream.halt = (s.stream.halt.1, s.stream.halt.2.undocumented) := by
      rw [h.stream]
      rfl
    refine ⟨?_, h.goOn ?_ (Stream.halt_sound h.sound)⟩
    · rw [hhalt]
      rfl
    · rw [hhalt]
  alone := fun {w s t} h => by
    by_cases hs : s.hasUnread = true
    · have halone := h.alone
      refine .inr (.inr ⟨hs, h.hasUnread, w.skip, w.le_skip, halone.1, fun i _ info => ?_⟩)
      rw [Echo.image_undocumented]
      exact halone.2 i info
    · exact .inl ⟨eq_false_of_ne_true hs, h.hasUnread⟩

end PhpSyntax
