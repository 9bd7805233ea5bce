import Landing.Store.Call
import Landing.Submission.Signal

/-!
# Programs over the stores

A program is a tree: it is done with a result, or it gives a signal and goes on,
or it makes a store call and goes on according to the answer.  What the stores
are is left open, so the same program is run against a world, against stores that
fail, and in turns with other programs.

Walks over histories carry a budget.  A program that has used its budget up stops
as `exhausted`, which is neither a result nor a failure.
-/

namespace Landing

/-- A computation that may call the stores and give signals. -/
inductive Program (α : Type) where
  | done (a : α)
  /-- The budget is used up. -/
  | exhausted
  | call (c : StoreCall) (next : Except StoreError c.Reply → Program α)
  | signal (s : Signal) (next : Program α)

namespace Program

/-- Go on with the result. -/
def bind : Program α → (α → Program β) → Program β
  | done a, f => f a
  | exhausted, _ => exhausted
  | call c next, f => call c fun r => (next r).bind f
  | signal s next, f => signal s (next.bind f)

instance : Monad Program where
  pure := done
  bind := bind

theorem bind_done (p : Program α) : p.bind done = p := by
  induction p with
  | done => rfl
  | exhausted => rfl
  | call c next ih => simp [bind, ih]
  | signal s next ih => simp [bind, ih]

theorem bind_assoc (p : Program α) (f : α → Program β) (g : β → Program γ) :
    (p.bind f).bind g = p.bind fun a => (f a).bind g := by
  induction p with
  | done => rfl
  | exhausted => rfl
  | call c next ih => simp [bind, ih]
  | signal s next ih => simp [bind, ih]

instance : LawfulMonad Program :=
  LawfulMonad.mk' Program bind_done (fun _ _ => rfl) bind_assoc

/-- Make one call and give its answer back. -/
def ask (c : StoreCall) : Program (Except StoreError c.Reply) := call c done

/-- Give a signal. -/
def tell (s : Signal) : Program Unit := signal s (done ())

/-- What a program runs against: a state that answers calls and takes note of signals. -/
structure Host (σ : Type) where
  answer : σ → (c : StoreCall) → Except StoreError c.Reply × σ
  note : σ → Signal → σ

/-- Run a program to its end; no result means that its budget was used up. -/
def run (host : Host σ) : Program α → σ → Option α × σ
  | done a, s => (some a, s)
  | exhausted, s => (none, s)
  | call c next, s =>
    let (r, s) := host.answer s c
    run host (next r) s
  | signal g next, s => run host next (host.note s g)

end Program

end Landing
