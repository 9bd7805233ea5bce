import Landing.Store.Answer

/-!
# Stores that misbehave

A backend answers calls from a world, with two kinds of trouble that can be
arranged beforehand.  A fault makes a later call of some name fail without effect.
An interference moves a branch right before the next swap of that branch, as
another writer would.  A fault is considered before an interference.
-/

namespace Landing

/-- A call of this name is to fail after `skip` calls of that name went through. -/
structure Fault where
  call : String
  skip : Nat
  detail : String
  deriving DecidableEq

/-- A branch is to be moved right before its next swap. -/
structure Interference where
  branch : Branch
  tip : CommitId
  deriving DecidableEq

/-- A world with arranged trouble. -/
structure Backend where
  world : World
  interference : Option Interference
  faults : List Fault

namespace Fault

/-- What the first fault for a call does: it strikes and is used up, or it lets the call pass. -/
def strike (call : String) : List Fault → Option String × List Fault
  | [] => (none, [])
  | f :: rest =>
    if f.call = call then
      match f.skip with
      | 0 => (some f.detail, rest)
      | skip + 1 => (none, { f with skip } :: rest)
    else
      let (struck, rest) := strike call rest
      (struck, f :: rest)

end Fault

namespace Backend

/-- A world without trouble. -/
def calm (w : World) : Backend := ⟨w, none, []⟩

/-- The branch that a call swaps. -/
def swapped? : StoreCall → Option Branch
  | .compareAndSwap branch _ _ => some branch
  | _ => none

/-- The interference that a call sets off. -/
def triggered? (b : Backend) (c : StoreCall) : Option Interference :=
  b.interference.filter fun i => swapped? c == some i.branch

/-- Move the branch of an interference from wherever it is. -/
def interfere (w : World) (i : Interference) : Except StoreError World := do
  let current ← w.branchTip i.branch
  w.compareAndSwap i.branch current (some i.tip)

/-- Answer a call from the world. -/
def answerCalmly (b : Backend) (c : StoreCall) : Except StoreError c.Reply × Backend :=
  let (r, w) := b.world.answer c
  (r, { b with world := w })

/-- Answer a call, an interference taking place first if the call sets it off. -/
def answerDisturbed (b : Backend) (c : StoreCall) : Except StoreError c.Reply × Backend :=
  match b.triggered? c with
  | none => b.answerCalmly c
  | some i =>
    let b := { b with interference := none }
    match interfere b.world i with
    | .error e => (.error e, b)
    | .ok w => { b with world := w }.answerCalmly c

/-- Answer a call, unless a fault strikes. -/
def answer (b : Backend) (c : StoreCall) : Except StoreError c.Reply × Backend :=
  match Fault.strike c.name b.faults with
  | (some detail, faults) => (.error (.backend detail), { b with faults })
  | (none, faults) => { b with faults }.answerDisturbed c

end Backend

end Landing
