import Landing.Event

/-!
# A bounded event bus

One reader follows the events through a ring of slots.  Each new event takes the
slot of the oldest one when the ring is full; a reader that comes too late learns
how many events it missed and goes on with the oldest one that is left.
-/

namespace Landing

/-- The events that a reader has not taken yet, oldest first, and how many were overwritten. -/
structure Bus where
  /-- The number of slots. -/
  slots : Nat
  /-- Unread events that were overwritten. -/
  missed : Nat
  unread : List Event

namespace Bus

/-- The least power of two that is at least `n`, searched from `p` in `steps` doublings. -/
def powerAbove (n : Nat) : (steps : Nat) → (p : Nat) → Nat
  | 0, p => p
  | steps + 1, p => if n ≤ p then p else powerAbove n steps (2 * p)

/-- An empty bus; the number of slots is the capacity rounded up to a power of two. -/
def ofCapacity (capacity : Nat) : Bus := ⟨powerAbove capacity capacity 1, 0, []⟩

/-- Add an event, overwriting the oldest unread one when every slot is taken. -/
def publish (b : Bus) (e : Event) : Bus :=
  let unread := b.unread ++ [e]
  if b.slots < unread.length then { b with missed := b.missed + 1, unread := unread.tail }
  else { b with unread }

/-- The bus after the reader took everything. -/
def drained (b : Bus) : Bus := { b with missed := 0, unread := [] }

end Bus

end Landing
