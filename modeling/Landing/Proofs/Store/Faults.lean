import Landing.Proofs.Program.Study
import Landing.Proofs.Store.Calm
import Landing.Submission.Engine

/-!
# Planning in the presence of faults

The faults of a service are arranged beforehand, and a call that one of them strikes
fails with its text.  An interference waits for a swap.  So a service answers questions
from its world or with the text of one of its faults, and planning in it comes to what
it comes to in the world, or it fails with such a text (`Service.run_withHistory`).
-/

namespace Landing

namespace Fault

/-- The text of a fault that strikes was arranged. -/
theorem mem_of_strike {call detail : String} {faults : List Fault}
    (hstruck : (strike call faults).1 = some detail) : detail ∈ faults.map (·.detail) := by
  induction faults with
  | nil => cases hstruck
  | cons f rest ih =>
    rw [strike] at hstruck
    split at hstruck
    · split at hstruck
      · cases hstruck
        exact List.mem_cons_self
      · cases hstruck
    · exact List.mem_cons_of_mem _ (ih hstruck)

/-- No fault is added by a call. -/
theorem sublist_strike (call : String) (faults : List Fault) :
    ((strike call faults).2.map (·.detail)).Sublist (faults.map (·.detail)) := by
  induction faults with
  | nil => exact .slnil
  | cons f rest ih =>
    rw [strike]
    split
    · split
      · exact List.sublist_cons_self ..
      · exact .refl _
    · exact ih.cons_cons f.detail

end Fault

/-- A backend answers a question from its world, or with the text of a fault. -/
theorem Backend.answer_question (b : Backend) {c : StoreCall} (hc : c.IsQuestion) :
    (b.answer c).2.world = b.world ∧
      ((b.answer c).2.faults.map (·.detail)).Sublist (b.faults.map (·.detail)) ∧
      ((b.answer c).1 = (b.world.answer c).1 ∨
        ∃ detail ∈ b.faults.map (·.detail), (b.answer c).1 = .error (.backend detail)) := by
  have hleft := Fault.sublist_strike c.name b.faults
  -- Only a swap sets an interference off.
  have hcalm : ∀ b : Backend, b.triggered? c = none := by
    intro b
    unfold triggered?
    cases c with
    | compareAndSwap => exact hc.elim
    | _ => simp [swapped?]
  cases hstrike : Fault.strike c.name b.faults with
  | mk struck faults =>
    rw [hstrike] at hleft
    cases struck with
    | some detail =>
      have hanswer : b.answer c = (.error (.backend detail), { b with faults }) := by
        rw [answer, hstrike]
      rw [hanswer]
      exact ⟨rfl, hleft, .inr ⟨detail, Fault.mem_of_strike (congrArg Prod.fst hstrike), rfl⟩⟩
    | none =>
      have hanswer : b.answer c = ((b.world.answer c).1, { b with faults }) := by
        rw [answer, hstrike]
        dsimp only
        rw [answerDisturbed, hcalm]
        show ((b.world.answer c).1, { b with world := (b.world.answer c).2, faults }) = _
        rw [b.world.answer_question hc]
      rw [hanswer]
      exact ⟨rfl, hleft, .inl rfl⟩

namespace Service

open Submission

variable {α : Type}

/-- The world is `w`, and every fault to come has one of the given texts. -/
structure Offers (w : World) (details : List String) (s : Service) : Prop where
  world_eq : s.world = w
  details_mem : s.backend.faults.map (·.detail) ⊆ details

/-- Questions are answered from the world, or with the text of a fault. -/
theorem answersFrom (w : World) (details : List String) :
    host.AnswersFrom (Offers w details) w fun e => ∃ detail ∈ details, e = .backend detail where
  answer s c hs hc := by
    obtain ⟨hworld, hfaults, hanswer⟩ := s.backend.answer_question hc
    refine ⟨⟨hworld.trans hs.world_eq, fun detail hdetail => hs.details_mem (hfaults.subset hdetail)⟩, ?_⟩
    rw [← hs.world_eq]
    refine hanswer.imp_right ?_
    rintro ⟨detail, hdetail, hfail⟩
    exact ⟨_, ⟨detail, hs.details_mem hdetail, rfl⟩, hfail⟩
  note s g hs _ := by
    have hsame : (host.note s g).backend = s.backend := backend_note s g
    exact ⟨(congrArg Backend.world hsame).trans hs.world_eq, hsame ▸ hs.details_mem⟩

/-- Planning leaves the world of a service alone.  It fails with the text of a fault, or it comes to
what it comes to in the world. -/
theorem run_withHistory (s : Service) {x : Planning α} (hx : Planning.IsInquiry x) (budget : Nat) :
    (s.run (withHistory budget x)).2.world = s.world ∧
      ((∃ fault ∈ s.backend.faults, (s.run (withHistory budget x)).1 =
        some (.error (.storage (.backend fault.detail)))) ∨
      (s.run (withHistory budget x)).1 =
        (Program.result s.world (x (.start budget))).map (·.1)) := by
  obtain ⟨hoffers, hend⟩ := Program.run_of_inquires
    (answersFrom s.world (s.backend.faults.map (·.detail))) (hx.inquires (.start budget)) (s := s)
    ⟨rfl, List.Subset.refl _⟩
  have hrun : s.run (withHistory budget x) =
      (((x (.start budget)).run host s).1.map (·.1), ((x (.start budget)).run host s).2) := by
    show Program.run host ((x (.start budget)).bind fun r => .done r.1) s = _
    rw [Program.run_bind]
    obtain ⟨r, s'⟩ := Program.run host (x (.start budget)) s
    cases r with
    | none => rfl
    | some r => rfl
  rw [hrun]
  refine ⟨hoffers.world_eq, hend.imp ?_ fun heq => congrArg (Option.map (·.1)) heq⟩
  rintro ⟨e, h, ⟨detail, hdetail, rfl⟩, heq⟩
  obtain ⟨fault, hfault, rfl⟩ := List.mem_map.1 hdetail
  exact ⟨fault, hfault, congrArg (Option.map (·.1)) heq⟩

end Service
end Landing
