/-
Running rules.

`Rule.body` says what each rule does.  `Rule.run` answers the calls of a body by
running the rules that it asks for, to a given depth; a deeper call is the fault of
giving up.  Calls nest as deep as the text does, and the nesting of a text has no
bound, so the parser itself runs on a list of suspended bodies instead of on nested
calls: `Config.run` keeps that list.  `Config.run_eq` says that the outcome is the
same.
-/
import PhpSyntax.Grammar.Operation
import PhpSyntax.Grammar.Scope

namespace PhpSyntax

def Rule.body : {c : Shape} → Rule c → Parser c.Value
  | _, .separated mark item => Grammar.separated mark item
  | _, .delimited close item => Grammar.delimited close item
  | _, .statements stop => Grammar.statements stop
  | _, .topStatements stop => Grammar.topStatements stop
  | _, .namespaceStatements => Grammar.namespaceStatements
  | _, .statement => Grammar.statement
  | _, .ifStatement => Grammar.ifStatement
  | _, .shortElseIf => Grammar.shortElseIf
  | _, .cases close => Grammar.cases close
  | _, .handlers => Grammar.handlers
  | _, .useItem kind mixed => Grammar.useItem kind mixed
  | _, .directive => Grammar.directive
  | _, .staticVariable => Grammar.staticVariable
  | _, .constant reserved => Grammar.constant reserved
  | _, .classFlags isAbstract isFinal => Grammar.classFlags isAbstract isFinal
  | _, .members => Grammar.members
  | _, .memberModifiers before => Grammar.memberModifiers before
  | _, .property => Grammar.property
  | _, .braceGroup depth => Grammar.braceGroup depth
  | _, .parameter => Grammar.parameter
  | _, .lexicalVariable => Grammar.lexicalVariable
  | _, .expression min => Grammar.expressionFrom min
  | _, .infixes min left => Grammar.infixes min left
  | _, .operand => Grammar.operand
  | _, .variable readOnly => Grammar.variableWithLookups readOnly
  | _, .simpleVariable => Grammar.simpleVariable
  | _, .lookups base readOnly => Grammar.lookups base readOnly
  | _, .argument => Grammar.argument
  | _, .entries close isPattern => Grammar.entries close isPattern
  | _, .name => Grammar.name
  | _, .segments => Grammar.segments

def Rule.run : (depth : Nat) → (c : Shape) → Rule c → ParseState → Outcome c.Value
  | 0, _, _, s => .error s.unclosed
  | depth + 1, _, r, s => (r.body s).eval (run depth)

/-- Suspended bodies, each with the depth to which it may call, from one that waits
for a value of shape `c` to one that yields the value of shape `d`. -/
inductive Frames (d : Shape) : Shape → Type where
  | nil : Frames d d
  | cons {c e : Shape} (depth : Nat) (next : c.Value → ParseState → Step e.Value)
      (rest : Frames d e) : Frames d c

structure Config (d : Shape) where
  {shape : Shape}
  depth : Nat
  step : Step shape.Value
  frames : Frames d shape

namespace Config

variable {d : Shape}

def resume {c : Shape} (frames : Frames d c) (v : c.Value) (s : ParseState) :
    Config d ⊕ Outcome d.Value :=
  match frames with
  | .nil => .inr (.ok (v, s))
  | .cons depth next rest => .inl ⟨depth, next v s, rest⟩

def next (x : Config d) : Config d ⊕ Outcome d.Value :=
  match x with
  | ⟨_, .stop e, _⟩ => .inr (.error e)
  | ⟨_, .done v s, frames⟩ => resume frames v s
  | ⟨depth, .advance s k, frames⟩ => .inl ⟨depth, k s.advance, frames⟩
  | ⟨0, .call _ s _, _⟩ => .inr (.error s.unclosed)
  | ⟨depth + 1, .call r s k, frames⟩ => .inl ⟨depth, r.body s, .cons (depth + 1) k frames⟩

/-! ## Every run ends -/

def Leads (y x : Config d) : Prop := x.next = .inl y

theorem acc_of_next {x : Config d} (h : ∀ y, x.next = .inl y → Acc Leads y) : Acc Leads x :=
  ⟨x, fun y hy => h y hy⟩

/-- A body of limited depth ends if all that waits for it ends. -/
theorem acc_of_frames {c : Shape} (depth : Nat) (t : Step c.Value) (frames : Frames d c)
    (h : ∀ n v s, Acc Leads (⟨n, .done v s, frames⟩ : Config d)) :
    Acc Leads (⟨depth, t, frames⟩ : Config d) := by
  induction depth generalizing c with
  | zero =>
    induction t with
    | done v s => exact h 0 v s
    | stop e => exact acc_of_next fun y hy => by simp [next] at hy
    | advance s k iht =>
      refine acc_of_next fun y hy => ?_
      simp only [next, Sum.inl.injEq] at hy
      subst hy
      exact iht s.advance
    | call r s k => exact acc_of_next fun y hy => by simp [next] at hy
  | succ depth ih =>
    induction t with
    | done v s => exact h _ v s
    | stop e => exact acc_of_next fun y hy => by simp [next] at hy
    | advance s k iht =>
      refine acc_of_next fun y hy => ?_
      simp only [next, Sum.inl.injEq] at hy
      subst hy
      exact iht s.advance
    | call r s k iht =>
      refine acc_of_next fun y hy => ?_
      simp only [next, Sum.inl.injEq] at hy
      subst hy
      refine ih (r.body s) _ fun n v s' => acc_of_next fun z hz => ?_
      simp only [next, resume, Sum.inl.injEq] at hz
      subst hz
      exact iht v s'

theorem acc_done {c : Shape} (frames : Frames d c) (n : Nat) (v : c.Value) (s : ParseState) :
    Acc Leads (⟨n, .done v s, frames⟩ : Config d) := by
  induction frames generalizing n s with
  | nil => exact acc_of_next fun y hy => by simp [next, resume] at hy
  | cons depth k rest ih =>
    refine acc_of_next fun y hy => ?_
    simp only [next, resume, Sum.inl.injEq] at hy
    subst hy
    exact acc_of_frames depth (k v s) rest fun n v s => ih n v s

instance : WellFoundedRelation (Config d) where
  rel := Leads
  wf := ⟨fun x => acc_of_frames x.depth x.step x.frames fun n v s => acc_done x.frames n v s⟩

def run (x : Config d) : Outcome d.Value :=
  match _h : x.next with
  | .inr result => result
  | .inl y => y.run
termination_by x
decreasing_by exact _h

end Config

/-! ## The outcome is that of nested calls -/

def Frames.unwind {d : Shape} : {c : Shape} → Frames d c → c.Value → ParseState → Outcome d.Value
  | _, .nil, v, s => .ok (v, s)
  | _, .cons depth next rest, v, s =>
    match (next v s).eval (Rule.run depth) with
    | .ok (v, s) => rest.unwind v s
    | .error e => .error e

namespace Config

variable {d : Shape}

theorem run_of_inr {x : Config d} {o : Outcome d.Value} (h : x.next = .inr o) : x.run = o := by
  rw [run]
  split
  · simp_all
  · simp_all

theorem run_of_inl {x y : Config d} (h : x.next = .inl y) : x.run = y.run := by
  rw [run]
  split
  · simp_all
  · simp_all

theorem run_of_frames {c : Shape} (depth : Nat) (t : Step c.Value) (frames : Frames d c)
    (h : ∀ n v s, (⟨n, .done v s, frames⟩ : Config d).run = frames.unwind v s) :
    (⟨depth, t, frames⟩ : Config d).run =
      match t.eval (Rule.run depth) with
      | .ok (v, s) => frames.unwind v s
      | .error e => .error e := by
  induction depth generalizing c with
  | zero =>
    induction t with
    | done v s => exact h 0 v s
    | stop e => exact run_of_inr rfl
    | advance s k iht =>
      rw [run_of_inl (y := ⟨0, k s.advance, frames⟩) rfl]
      exact iht s.advance
    | call r s k => exact run_of_inr rfl
  | succ depth ih =>
    induction t with
    | done v s => exact h _ v s
    | stop e => exact run_of_inr rfl
    | advance s k iht =>
      rw [run_of_inl (y := ⟨depth + 1, k s.advance, frames⟩) rfl]
      exact iht s.advance
    | call r s k iht =>
      rw [run_of_inl (y := ⟨depth, r.body s, .cons (depth + 1) k frames⟩) rfl, ih]
      · simp only [Step.eval, Rule.run, Frames.unwind]
        cases (r.body s).eval (Rule.run depth) <;> rfl
      · intro n v s'
        rw [run_of_inl (y := ⟨depth + 1, k v s', frames⟩) rfl]
        exact iht v s'

theorem run_done {c : Shape} (frames : Frames d c) (n : Nat) (v : c.Value) (s : ParseState) :
    (⟨n, .done v s, frames⟩ : Config d).run = frames.unwind v s := by
  induction frames generalizing n s with
  | nil => exact run_of_inr rfl
  | cons depth k rest ih =>
    rw [run_of_inl (y := ⟨depth, k v s, rest⟩) rfl, run_of_frames _ _ _ fun n v s => ih n v s]
    rfl

/-- A body run on suspended bodies has the outcome of nested calls. -/
theorem run_eq (depth : Nat) (t : Step d.Value) :
    (⟨depth, t, .nil⟩ : Config d).run = t.eval (Rule.run depth) := by
  rw [run_of_frames depth t .nil fun n v s => run_done .nil n v s]
  cases t.eval (Rule.run depth) <;> rfl

end Config
end PhpSyntax
