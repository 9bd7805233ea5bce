import Landing.History.ParentsFirst
import Landing.History.Walk

/-!
# Computations that plan a submission

Planning reads histories, asks the stores, and may fail for a reason that the
requester is told.  A store error met on the way is one such reason.
-/

namespace Landing

/-- A computation that plans a submission. -/
abbrev Planning (α : Type) := ExceptT Failure (StateT History Program) α

namespace Planning

/-- A store's answer as a step of planning. -/
def ofAnswer (r : Except StoreError α) : Except Failure α := r.mapError .storage

/-- A question to a history as a step of planning. -/
def read (x : Reading α) : Planning α :=
  ExceptT.mk (do
    let r ← x.run
    pure (ofAnswer r))

instance : MonadLift Reading Planning := ⟨read⟩

/-- Make a store call. -/
def ask (c : StoreCall) : Planning c.Reply :=
  ExceptT.mk fun h => .call c fun r => .done (ofAnswer r, h)

/-- Give a signal. -/
def tell (s : Signal) : Planning Unit :=
  ExceptT.mk fun h => .signal s (.done (.ok (), h))

end Planning

end Landing
