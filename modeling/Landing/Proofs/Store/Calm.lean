import Landing.Proofs.Program.Study
import Landing.Proofs.Store.Effects
import Landing.Service

/-!
# Runs against stores without trouble

A world by itself is a host: it answers every call, and signals leave it alone.
A service whose backend is calm does to its world what the world does by itself
(`Service.run_calm`), so results about such a service are proved for the world.
A program that only asks comes to its result and changes nothing
(`World.run_of_inquires`), and what no call spoils no program spoils
(`World.run_keeps`).
-/

namespace Landing

namespace World

variable {α β ε : Type} {w : World}

/-- A world that answers calls. -/
def host : Program.Host World := ⟨World.answer, fun w _ => w⟩

/-- Run a program against a world. -/
def run (w : World) (p : Program α) : Option α × World := p.run host w

@[simp] theorem run_pure (a : α) : w.run (pure a) = (some a, w) := rfl

@[simp] theorem run_ask (c : StoreCall) :
    w.run (Program.ask c) = (some (w.answer c).1, (w.answer c).2) := rfl

/-- A program goes on in the world that the program before it left behind. -/
theorem run_bind (p : Program α) (f : α → Program β) :
    w.run (p >>= f) =
      match w.run p with
      | (some a, w') => w'.run (f a)
      | (none, w') => (none, w') := by
  show Program.run host (p.bind f) w = _
  rw [Program.run_bind, run]
  obtain ⟨r, w'⟩ := Program.run host p w
  cases r with
  | none => rfl
  | some a => rfl

/-- The run of a program whose first part ends with a value. -/
theorem run_bind_of {p : Program α} {f : α → Program β} {a : α} {w' : World}
    (hp : w.run p = (some a, w')) : w.run (p >>= f) = w'.run (f a) := by
  rw [run_bind, hp]

/-- The run of a program that gives a signal first. -/
@[simp] theorem run_tell_bind (g : Signal) (f : Unit → Program β) :
    w.run (Program.tell g >>= f) = w.run (f ()) := rfl

/-- A program that only asks changes nothing. -/
theorem run_of_inquires [Relay ε] {E : ε → Prop} {τ : Type} {p : Program (Except ε α × τ)}
    (hp : p.Inquires E) : w.run p = (p.result w, w) := by
  induction p with
  | done r => rfl
  | exhausted => rfl
  | signal g next ih => exact ih hp.2
  | call c next ih =>
    show Program.run host (next (w.answer c).1) (w.answer c).2 = ((next (w.answer c).1).result w, w)
    rw [w.answer_question hp.1]
    rcases hp.next (w.answer c).1 with hnext | ⟨e, t, _, hrelay⟩
    · exact ih (w.answer c).1 hnext
    · rw [hrelay]
      rfl

/-- What no call spoils no program spoils. -/
theorem run_keeps {I : World → Prop} (hanswer : ∀ w c, I w → I (World.answer w c).2) (h : I w)
    (p : Program α) : I (w.run p).2 := by
  induction p generalizing w with
  | done a => exact h
  | exhausted => exact h
  | signal g next ih => exact ih h
  | call c next ih => exact ih (w.answer c).1 (hanswer w c h)

theorem Keyed.run (hkeyed : w.Keyed) (p : Program α) : (w.run p).2.Keyed :=
  run_keeps (I := World.Keyed) (fun _ c h => Keyed.answer h c) hkeyed p

end World

/-! ### Services -/

namespace Service

variable {α : Type} {s : Service} {w : World}

/-- A calm backend answers as its world does. -/
theorem answer_calm (hs : s.backend = .calm w) (c : StoreCall) :
    (s.answer c).1 = (w.answer c).1 ∧ (s.answer c).2.backend = .calm (w.answer c).2 := by
  unfold answer
  rw [hs]
  exact ⟨rfl, rfl⟩

theorem backend_note (s : Service) (g : Signal) : (s.note g).backend = s.backend := by
  unfold note deliver
  split
  · rfl
  · rfl

/-- A service with a calm backend runs a program as its world does. -/
theorem run_calm (hs : s.backend = .calm w) (p : Program α) :
    (s.run p).1 = (w.run p).1 ∧ (s.run p).2.backend = .calm (w.run p).2 := by
  induction p generalizing s w with
  | done a => exact ⟨rfl, hs⟩
  | exhausted => exact ⟨rfl, hs⟩
  | signal g next ih => exact ih ((backend_note s g).trans hs)
  | call c next ih =>
    obtain ⟨hanswer, hbackend⟩ := answer_calm hs c
    have hrest := ih (s.answer c).1 hbackend
    have hservice : s.run (.call c next) = (s.answer c).2.run (next (s.answer c).1) := rfl
    have hworld : w.run (.call c next) = (w.answer c).2.run (next (w.answer c).1) := rfl
    rw [hservice, hworld, hanswer]
    rw [hanswer] at hrest
    exact hrest

/-- A run in the world is a run of the service. -/
theorem exists_run_of_calm (hs : s.backend = .calm w) {p : Program α} {r : Option α} {w' : World}
    (hrun : w.run p = (r, w')) : ∃ after, s.run p = (r, after) ∧ after.backend = .calm w' := by
  obtain ⟨hresult, hbackend⟩ := run_calm hs p
  rw [hrun] at hresult hbackend
  exact ⟨(s.run p).2, Prod.ext hresult rfl, hbackend⟩

end Service
end Landing
