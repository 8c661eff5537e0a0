/-
What the body of a rule does.

A body is a tree.  It is done, or it stops with a fault, or it consumes the current
token, or it asks for another rule and says how it goes on with what that rule
yields.  Bodies are composed as programs that work on a state, and run by whoever
answers their calls: `Step.eval` does that by a function from rules to outcomes.
Composition and evaluation agree (`eval_bind`), and composition may be regrouped
(`bind_bind`).
-/
import PhpSyntax.Parse.Rule
import PhpSyntax.Parse.State

namespace PhpSyntax

/-- How a body ends: with a value and a state, or with a fault. -/
abbrev Outcome (α : Type) := Except Fault (α × ParseState)

inductive Step (α : Type) where
  | done (value : α) (s : ParseState)
  | stop (f : Fault)
  | advance (s : ParseState) (next : ParseState → Step α)
  | call {c : Shape} (r : Rule c) (s : ParseState) (next : c.Value → ParseState → Step α)

namespace Step

def bind {α β : Type} (t : Step α) (f : α → ParseState → Step β) : Step β :=
  match t with
  | done a s => f a s
  | stop e => stop e
  | advance s next => advance s fun s => (next s).bind f
  | call r s next => call r s fun v s => (next v s).bind f

def eval {α : Type} (answer : (c : Shape) → Rule c → ParseState → Outcome c.Value) :
    Step α → Outcome α
  | done a s => .ok (a, s)
  | stop e => .error e
  | advance s next => (next s.advance).eval answer
  | call (c := c) r s next =>
    match answer c r s with
    | .ok (v, s) => (next v s).eval answer
    | .error e => .error e

end Step

def Parser (α : Type) : Type := ParseState → Step α

namespace Parser

protected def pure {α : Type} (a : α) : Parser α := fun s => .done a s

protected def bind {α β : Type} (p : Parser α) (f : α → Parser β) : Parser β :=
  fun s => (p s).bind f

instance : Monad Parser where
  pure := Parser.pure
  bind := Parser.bind

def advance : Parser Unit := fun s => .advance s (.done ())

def call {c : Shape} (r : Rule c) : Parser c.Value := fun s => .call r s .done

def stop {α : Type} (f : ParseState → Fault) : Parser α := fun s => .stop (f s)

def read {α : Type} (f : ParseState → α) : Parser α := fun s => .done (f s) s

def modify (f : ParseState → ParseState) : Parser Unit := fun s => .done () (f s)

def update {α : Type} (f : ParseState → α × ParseState) : Parser α :=
  fun s => let (a, s) := f s; .done a s

end Parser

theorem Step.eval_bind {α β : Type}
    (answer : (c : Shape) → Rule c → ParseState → Outcome c.Value)
    (t : Step α) (f : α → ParseState → Step β) :
    (t.bind f).eval answer =
      match t.eval answer with
      | .ok (a, s) => (f a s).eval answer
      | .error e => .error e := by
  induction t with
  | done a s => rfl
  | stop e => rfl
  | advance s next ih => exact ih _
  | call r s next ih =>
    simp only [bind, eval]
    split
    · exact ih _ _
    · rfl

theorem Step.bind_bind {α β γ : Type} (t : Step α) (f : α → ParseState → Step β)
    (g : β → ParseState → Step γ) : (t.bind f).bind g = t.bind fun a s => (f a s).bind g := by
  induction t with
  | done | stop => rfl
  | advance s next ih => exact congrArg (Step.advance s) (funext ih)
  | call r s next ih => exact congrArg (Step.call r s) (funext fun v => funext (ih v))

namespace Parser

variable {α β γ : Type}

theorem bind_bind (p : Parser α) (f : α → Parser β) (g : β → Parser γ) :
    (p >>= f) >>= g = p >>= fun a => f a >>= g :=
  funext fun s => (p s).bind_bind (fun a => f a) fun b => g b

theorem pure_bind (a : α) (f : α → Parser β) : pure a >>= f = f a := rfl

theorem ite_bind {c : Prop} [Decidable c] (p q : Parser α) (f : α → Parser β) :
    (if c then p else q) >>= f = if c then p >>= f else q >>= f := by
  split
  · rfl
  · rfl

end Parser

end PhpSyntax
