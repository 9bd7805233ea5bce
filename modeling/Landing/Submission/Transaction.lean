import Landing.Program

/-!
# Steps that can be taken back

There is no single order that moves several branches at once.  Steps are taken
one by one and logged; when one fails, the logged steps are undone, newest first.
Undoing stops at the first step that cannot be undone.
-/

namespace Landing

/-- A step to take. -/
inductive Step where
  /-- Move a branch from where it was seen to a commit. -/
  | swap (branch : Branch) (old : Option CommitId) (new : CommitId)
  /-- Record that a change went in. -/
  | mark (change : ChangeId) (tip : CommitId) (submitter : AccountId)
  deriving DecidableEq

/-- A step that was taken, with what it takes to undo it. -/
inductive TakenStep where
  | refSwap (branch : Branch) (old : Option CommitId) (new : CommitId)
  | markMerged (change : ChangeId)
  deriving DecidableEq

namespace TakenStep

/-- The step for a message to people. -/
def describe : TakenStep → String
  | refSwap branch _ _ => "ref " ++ branch.text
  | markMerged change => "change " ++ toString change.toNat

/-- The call that undoes the step. -/
def undo : TakenStep → Program (Except StoreError Unit)
  | refSwap branch old new => Program.ask (.compareAndSwap branch (some new) old)
  | markMerged change => Program.ask (.reopen change)

end TakenStep

namespace Step

/-- A lost race for a branch is a failure of its own; any other error is passed on. -/
def swapFailure : StoreError → Failure
  | .refConflict branch expected actual => .concurrentModification branch expected actual
  | e => .storage e

/-- Take the step. -/
def take : Step → Program (Except Failure TakenStep)
  | swap branch old new => do
    match ← Program.ask (.compareAndSwap branch old (some new)) with
    | .ok _ => pure (.ok (.refSwap branch old new))
    | .error e => pure (.error (swapFailure e))
  | mark change tip submitter => do
    match ← Program.ask (.markMerged change tip submitter) with
    | .ok _ => pure (.ok (.markMerged change))
    | .error e => pure (.error (.storage e))

end Step

namespace Transaction

/-- Take steps in order until one fails; the log lists the taken ones, oldest first. -/
def perform : (steps : List Step) → (log : List TakenStep) →
    Program (List TakenStep × Option Failure)
  | [], log => pure (log, none)
  | step :: steps, log => do
    match ← step.take with
    | .ok taken => perform steps (log ++ [taken])
    | .error failure => pure (log, some failure)

/-- Undo steps in the given order until one cannot be undone. -/
def unwind : (newestFirst : List TakenStep) → Program (Except Failure Unit)
  | [] => pure (.ok ())
  | step :: steps => do
    match ← step.undo with
    | .ok _ => unwind steps
    | .error e => do
      Program.tell (.compensationFailed step.describe e)
      pure (.error (.rollbackFailed step.describe e))

/-- Undo all logged steps, newest first, and count them. -/
def rollback (log : List TakenStep) : Program (Except Failure Nat) := do
  match ← unwind log.reverse with
  | .ok _ => pure (.ok log.length)
  | .error failure => pure (.error failure)

end Transaction

end Landing
