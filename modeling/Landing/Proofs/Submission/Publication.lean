import Landing.Proofs.Submission.Reliance

/-!
# What a submission publishes

Planning, applying a plan and taking it back give signals, but none of them tells
an event (`Program.Discreet`).  So a submission that does not succeed publishes
nothing, whatever goes wrong with the stores, and one that succeeds publishes the
events of the plan that it has carried out (`Submission.recorded_of_run_submit`).

Where nobody else moves a branch, a submission that succeeds has carried out the
plan of the world that it found, and `Submission.exists_plan_of_success` says
what its outcome, its events and the world are then.
-/

namespace Landing

/-! ### Programs that publish nothing -/

namespace Program

variable {α β ε τ : Type}

/-- None of the signals that the program may give tells an event. -/
def Discreet : Program α → Prop
  | done _ => True
  | exhausted => True
  | call _ next => ∀ r, (next r).Discreet
  | signal g next => g.event? = none ∧ next.Discreet

theorem Discreet.bind {p : Program α} {f : α → Program β} (hp : p.Discreet)
    (hf : ∀ a, (f a).Discreet) : (p.bind f).Discreet := by
  induction p with
  | done a => exact hf a
  | exhausted => trivial
  | call c next ih => exact fun r => ih r (hp r)
  | signal g next ih => exact ⟨hp.1, ih hp.2⟩

theorem Inquires.discreet [Relay ε] {E : ε → Prop} {p : Program (Except ε α × τ)}
    (hp : p.Inquires E) : p.Discreet := by
  induction p with
  | done r => trivial
  | exhausted => trivial
  | call c next ih =>
    intro r
    rcases hp.next r with hnext | ⟨e, t, _, hrelay⟩
    · exact ih r hnext
    · rw [hrelay]
      trivial
  | signal g next ih => exact ⟨hp.1, ih hp.2⟩

end Program

namespace Service

variable {α : Type} {s : Service}

theorem run_bind {β : Type} (s : Service) (p : Program α) (f : α → Program β) :
    s.run (p >>= f) =
      match s.run p with
      | (some a, s') => s'.run (f a)
      | (none, s') => (none, s') := by
  show Program.run host (p.bind f) s = _
  rw [Program.run_bind, run]
  obtain ⟨r, s'⟩ := Program.run host p s
  cases r with
  | none => rfl
  | some a => rfl

theorem run_tell_bind (s : Service) (g : Signal) (f : Unit → Program α) :
    s.run (Program.tell g >>= f) = (s.note g).run (f ()) := rfl

/-- After a program without events the recorder holds what it held before. -/
theorem recorded_run_of_discreet {p : Program α} (hp : p.Discreet) :
    (s.run p).2.recorded = s.recorded := by
  induction p generalizing s with
  | done a => rfl
  | exhausted => rfl
  | call c next ih => exact ih (s.answer c).1 (hp (s.answer c).1)
  | signal g next ih =>
    have hnote : (s.note g).recorded = s.recorded := by
      unfold note
      rw [hp.1]
    exact (ih hp.2).trans hnote

/-- Publishing events puts them on record, in order. -/
theorem run_publish (s : Service) (events : List Event) :
    (s.run (Submission.publish events)).1 = some () ∧
      (s.run (Submission.publish events)).2.recorded = s.recorded ++ events := by
  induction events generalizing s with
  | nil => exact ⟨rfl, (List.append_nil _).symm⟩
  | cons e events ih =>
    obtain ⟨hended, hrecorded⟩ := ih (s.note (.published e))
    have hnote : (s.note (.published e)).recorded = s.recorded ++ [e] := rfl
    refine ⟨hended, hrecorded.trans ?_⟩
    rw [hnote, List.append_assoc]
    rfl

end Service

/-! ### The parts of a submission -/

namespace Submission

open Program

theorem discreet_withHistory {α : Type} {x : Planning α} (hx : Planning.IsInquiry x)
    (budget : Nat) : (withHistory budget x).Discreet :=
  Discreet.bind (p := x (History.start budget)) (hx.inquires _).discreet fun _ => trivial

theorem discreet_storeAll (l : List (ProjectName × Draft)) : (Plan.storeAll l).Discreet := by
  induction l with
  | nil => trivial
  | cons e l ih =>
    intro r
    cases r with
    | ok id => exact ih
    | error error => trivial

theorem discreet_take (s : Step) : s.take.Discreet := by
  cases s with
  | swap b old new =>
    intro r
    cases r with
    | ok reply => trivial
    | error e => trivial
  | mark k tip submitter =>
    intro r
    cases r with
    | ok reply => trivial
    | error e => trivial

theorem discreet_perform (steps : List Step) (log : List TakenStep) :
    (Transaction.perform steps log).Discreet := by
  induction steps generalizing log with
  | nil => trivial
  | cons s steps ih =>
    refine Discreet.bind (discreet_take s) fun r => ?_
    cases r with
    | ok taken => exact ih _
    | error f => trivial

theorem discreet_unwind (log : List TakenStep) : (Transaction.unwind log).Discreet := by
  induction log with
  | nil => trivial
  | cons s log ih =>
    have hundo : s.undo.Discreet := by
      cases s with
      | refSwap => exact fun _ => trivial
      | markMerged => exact fun _ => trivial
    refine Discreet.bind hundo fun r => ?_
    cases r with
    | ok u => exact ih
    | error e => exact ⟨rfl, trivial⟩

theorem discreet_apply (p : Plan) : p.apply.Discreet := by
  refine Discreet.bind (discreet_storeAll p.inserts) fun r => ?_
  cases r with
  | error f => trivial
  | ok u =>
    refine Discreet.bind (discreet_perform p.steps []) fun r => ?_
    obtain ⟨log, failure⟩ := r
    cases failure with
    | none => trivial
    | some cause =>
      -- The rollback is signalled, and no event belongs to that.
      refine ⟨rfl, Discreet.bind (p := Transaction.rollback log) ?_ fun r => ?_⟩
      · refine Discreet.bind (discreet_unwind log.reverse) fun r => ?_
        cases r with
        | ok u => trivial
        | error f => trivial
      · cases r with
        | ok n => trivial
        | error f => trivial

theorem discreet_planAndApply (policy : Policy) (budget : Nat) (change : ChangeId)
    (actor : Account) : (planAndApply policy budget change actor).Discreet := by
  refine Discreet.bind (discreet_withHistory isInquiry_plan budget) fun r => ?_
  cases r with
  | error f => trivial
  | ok p =>
    refine Discreet.bind (discreet_apply p) fun r => ?_
    cases r with
    | ok applied => trivial
    | error f => trivial

variable {s after : Service} {policy : Policy} {budget : Nat} {change : ChangeId}
variable {actor : Account}

/-- A submission publishes the events of the plan that it has carried out, and nothing if it has not
carried out any. -/
theorem recorded_of_run_submit {ended : Option (Except Failure Outcome)}
    (hrun : s.run (submit policy budget change actor) = (ended, after)) :
    (∃ outcome applied s', ended = some (.ok outcome) ∧
      (s.note (.started change actor.id false)).run (planAndApply policy budget change actor) =
        (some (.ok applied), s') ∧
      after.recorded = s.recorded ++ applied.events) ∨
    (∀ outcome, ended ≠ some (.ok outcome)) ∧ after.recorded = s.recorded := by
  have hdiscreet : ((s.note (.started change actor.id false)).run
      (planAndApply policy budget change actor)).2.recorded = s.recorded :=
    Service.recorded_run_of_discreet (discreet_planAndApply policy budget change actor)
  rw [submit, Service.run_tell_bind, Service.run_bind] at hrun
  cases happly : (s.note (.started change actor.id false)).run
      (planAndApply policy budget change actor) with
  | mk r s₁ =>
    rw [happly] at hrun hdiscreet
    have hbefore : s₁.recorded = s.recorded := hdiscreet
    cases r with
    | none =>
      cases hrun
      refine .inr ⟨fun outcome hended => ?_, hbefore⟩
      cases hended
    | some r =>
      cases r with
      | error f =>
        cases hrun
        refine .inr ⟨fun outcome hended => ?_, hbefore⟩
        cases hended
      | ok applied =>
        -- With the plan applied, its events are published, and then the outcome is given.
        left
        dsimp only at hrun
        rw [Service.run_tell_bind, Service.run_bind] at hrun
        obtain ⟨hended, hrecorded⟩ := Service.run_publish (s₁.note (.applied applied.tips.size
          applied.batch.size applied.fastForwardCount applied.mergeCount)) applied.events
        cases hpublish : (s₁.note (.applied applied.tips.size applied.batch.size
            applied.fastForwardCount applied.mergeCount)).run (publish applied.events) with
        | mk r s₂ =>
          rw [hpublish] at hrun hended hrecorded
          cases hended
          cases hrun
          refine ⟨_, applied, s₁, rfl, rfl, hrecorded.trans ?_⟩
          rw [← hbefore]
          rfl

end Submission

/-! ### Successful submissions -/

/-- Where nobody moves a branch, a program that needs every answer and that comes to a good value has
done what it does in the world by itself, whatever faults were arranged. -/
theorem Service.run_world_of_needs {α : Type} {good : α → Prop} {s after : Service} {p : Program α}
    {a : α} (hp : p.Needs good) (hquiet : s.backend.interference = none)
    (hrun : s.run p = (some a, after)) (ha : good a) : s.world.run p = (some a, after.world) := by
  have hstart : s.Follows s.backend.faults s.recorded (Trial.start s.world none) :=
    ⟨rfl, hquiet, rfl, (List.append_nil _).symm⟩
  obtain ⟨hended, hfollows⟩ := run_eq_trial hstart p
  rw [hrun] at hended hfollows
  have htrial : s.world.run p = _ := Trial.run_eq_of_needs hp rfl (Prod.ext hended.symm rfl) ha
  rw [htrial]
  exact congrArg (Prod.mk (some a)) hfollows.world.symm

/-- Whether a plan was applied makes no difference to the events. -/
theorem Plan.events_markApplied (p : Plan) : p.markApplied.events = p.events := by
  unfold events markApplied BranchPlan.events
  rw [List.filter_map, List.filterMap_map, List.flatMap_map]
  rfl

namespace Submission

variable {s after : Service} {policy : Policy} {budget : Nat} {change : ChangeId}
variable {actor : Account} {outcome : Outcome}

/-- A submission that succeeds where nobody else moves a branch has carried out the plan of the world
that it found. -/
theorem exists_plan_of_success (hquiet : s.backend.interference = none)
    (hkeyed : s.world.Keyed)
    (hrun : s.run (submit policy budget change actor) = (some (.ok outcome), after)) :
    ∃ p, s.world.planned policy budget change actor = some (.ok p) ∧ p.Of s.world ∧
      s.world.CanLand p ∧ after.world = p.landed s.world ∧
      outcome = ⟨p.tips, p.batch.changes.map (·.id)⟩ ∧
      after.recorded = s.recorded ++ p.events := by
  have hworld := Service.run_world_of_needs (needs_submit policy budget change actor) hquiet hrun
    ⟨outcome, rfl⟩
  obtain ⟨p, hplanned, hplan, hland, hlanded⟩ := World.exists_plan_of_run_submit hkeyed hworld
  refine ⟨p, hplanned, hplan, hland, hlanded, ?_, ?_⟩
  · rw [World.run_submit_of_plan hplanned hplan hland] at hworld
    exact (Except.ok.inj (Option.some.inj (congrArg Prod.fst hworld))).symm
  · rcases recorded_of_run_submit hrun with ⟨_, applied, s', _, happly, hrecorded⟩ | ⟨hnot, _⟩
    · -- What was applied is the plan, since nothing was refused.
      have hnote : (s.note (.started change actor.id false)).world = s.world := rfl
      have happlied := Service.run_world_of_needs (needs_planAndApply policy budget change actor)
        (s := s.note (.started change actor.id false)) hquiet happly ⟨applied, rfl⟩
      rw [hnote, World.run_planAndApply_of_plan hplanned hplan hland] at happlied
      have hsame : p.markApplied = applied :=
        Except.ok.inj (Option.some.inj (congrArg Prod.fst happlied))
      rw [hrecorded, ← hsame, Plan.events_markApplied]
    · exact absurd rfl (hnot outcome)

end Submission
end Landing
