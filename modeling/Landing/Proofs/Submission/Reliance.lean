import Landing.Proofs.Submission.Recovery
import Landing.Proofs.Submission.Submit

/-!
# Submissions need every answer

A submission that succeeds was refused nothing: after the first call that fails,
whichever it is, no way to go on leads to a success (`Submission.needs_submit`).
So a submission that succeeds against an adversary, with nothing else going on, has
done what it does where nothing goes wrong (`Trial.run_eq_of_needs`).
-/

namespace Landing

namespace Program

variable {α β σ ε τ : Type} {good : α → Prop} {fine : β → Prop}

/-- However calls are answered, the program comes to no good value. -/
def Fails (good : α → Prop) : Program α → Prop
  | done a => ¬ good a
  | exhausted => True
  | call _ next => ∀ r, (next r).Fails good
  | signal _ next => next.Fails good

/-- After any call that fails, the program comes to no good value. -/
def Needs (good : α → Prop) : Program α → Prop
  | done _ => True
  | exhausted => True
  | call _ next => (∀ e, (next (.error e)).Fails good) ∧ ∀ r, (next r).Needs good
  | signal _ next => next.Needs good

/-- Whatever comes before it, a program that comes to no good value comes to none. -/
theorem fails_bind (p : Program α) {f : α → Program β} (hf : ∀ a, (f a).Fails fine) :
    (p.bind f).Fails fine := by
  induction p with
  | done a => exact hf a
  | exhausted => trivial
  | call c next ih => exact fun r => ih r
  | signal s next ih => exact ih

theorem Fails.bind {p : Program α} (hp : p.Fails good) {f : α → Program β}
    (hf : ∀ a, ¬ good a → (f a).Fails fine) : (p.bind f).Fails fine := by
  induction p with
  | done a => exact hf a hp
  | exhausted => trivial
  | call c next ih => exact fun r => ih r (hp r)
  | signal s next ih => exact ih hp

theorem Needs.bind {p : Program α} (hp : p.Needs good) {f : α → Program β}
    (hbad : ∀ a, ¬ good a → (f a).Fails fine) (hf : ∀ a, (f a).Needs fine) :
    (p.bind f).Needs fine := by
  induction p with
  | done a => exact hf a
  | exhausted => trivial
  | call c next ih => exact ⟨fun e => (hp.1 e).bind hbad, fun r => ih r (hp.2 r)⟩
  | signal s next ih => exact ih hp

theorem Fails.needs {p : Program α} (hp : p.Fails good) : p.Needs good := by
  induction p with
  | done a => trivial
  | exhausted => trivial
  | call c next ih => exact ⟨fun e => hp (.error e), fun r => ih r (hp r)⟩
  | signal s next ih => exact ih hp

theorem Fails.not_good {p : Program α} (hp : p.Fails good) {host : Host σ} {s s' : σ} {a : α}
    (hrun : p.run host s = (some a, s')) : ¬ good a := by
  induction p generalizing s with
  | done b =>
    cases hrun
    exact hp
  | exhausted => cases hrun
  | call c next ih => exact ih _ (hp _) hrun
  | signal g next ih => exact ih hp hrun

/-- A program that only asks ends at the first call that fails, and not with a success. -/
theorem Inquires.needs [Relay ε] {E : ε → Prop} {p : Program (Except ε α × τ)}
    (hp : p.Inquires E) : p.Needs fun r => ∃ a, r.1 = .ok a := by
  have hrefused : ∀ (e : ε) (t : τ),
      (done ((.error e : Except ε α), t)).Fails fun r => ∃ a, r.1 = .ok a := by
    rintro e t ⟨a, ha⟩
    cases ha
  induction p with
  | done r => trivial
  | exhausted => trivial
  | call c next ih =>
    refine ⟨fun e => ?_, fun r => ?_⟩
    · obtain ⟨t, hrelay⟩ := hp.2.1 e
      rw [hrelay]
      exact hrefused _ t
    · rcases hp.next r with hnext | ⟨e, t, _, hrelay⟩
      · exact ih r hnext
      · rw [hrelay]
        trivial
  | signal s next ih => exact ih hp.2

end Program

/-! ### The parts of a submission -/

/-- The result is a success. -/
def Succeeds {ε α : Type} (r : Except ε α) : Prop := ∃ a, r = .ok a

theorem not_succeeds_error {ε α : Type} (e : ε) : ¬ Succeeds (.error e : Except ε α) := by
  rintro ⟨a, ha⟩
  cases ha

namespace Submission

open Program

/-- A failure is passed on. -/
theorem fails_done_error {α : Type} (f : Failure) :
    (Program.done (.error f : Except Failure α)).Fails Succeeds :=
  not_succeeds_error f

theorem needs_withHistory {α : Type} {x : Planning α} (hx : Planning.IsInquiry x) (budget : Nat) :
    (withHistory budget x).Needs Succeeds := by
  refine Needs.bind (p := x (History.start budget)) (hx.inquires _).needs (fun r hr => ?_) fun r => trivial
  rintro ⟨a, ha⟩
  exact hr ⟨a, ha⟩

theorem needs_storeAll (l : List (ProjectName × Draft)) : (Plan.storeAll l).Needs Succeeds := by
  induction l with
  | nil => trivial
  | cons e l ih =>
    refine ⟨fun error => fails_done_error (.storage error), fun r => ?_⟩
    cases r with
    | ok id => exact ih
    | error error => trivial

theorem needs_take (s : Step) : s.take.Needs Succeeds := by
  cases s with
  | swap b old new =>
    refine ⟨fun e => fails_done_error (Step.swapFailure e), fun r => ?_⟩
    cases r with
    | ok reply => trivial
    | error e => trivial
  | mark k tip submitter =>
    refine ⟨fun e => fails_done_error (.storage e), fun r => ?_⟩
    cases r with
    | ok reply => trivial
    | error e => trivial

/-- Taking steps is good if none of them fails. -/
theorem needs_perform (steps : List Step) (log : List TakenStep) :
    (Transaction.perform steps log).Needs fun r => r.2 = none := by
  induction steps generalizing log with
  | nil => trivial
  | cons s steps ih =>
    refine Needs.bind (needs_take s) (fun r hr => ?_) fun r => ?_
    · cases r with
      | ok taken => exact absurd ⟨taken, rfl⟩ hr
      | error f =>
        intro hnone
        cases hnone
    · cases r with
      | ok taken => exact ih _
      | error f => trivial

/-- Once a step has failed, undoing the others does not make a success of it. -/
theorem fails_undoing (log : List TakenStep) (cause : Failure) :
    (Transaction.rollback log >>= fun r => match r with
      | .ok _ => pure (.error cause)
      | .error failure => pure (.error failure) :
        Program (Except Failure (List TakenStep × Plan))).Fails Succeeds := by
  refine fails_bind _ fun r => ?_
  cases r with
  | ok n => exact fails_done_error cause
  | error f => exact fails_done_error f

theorem needs_apply (p : Plan) : p.apply.Needs Succeeds := by
  refine Needs.bind (needs_storeAll p.inserts) (fun r hr => ?_) fun r => ?_
  · cases r with
    | ok u => exact absurd ⟨u, rfl⟩ hr
    | error f => exact fails_done_error f
  · cases r with
    | error f => trivial
    | ok u =>
      refine Needs.bind (needs_perform p.steps []) (fun r hr => ?_) fun r => ?_
      · obtain ⟨log, failure⟩ := r
        cases failure with
        | none => exact absurd rfl hr
        | some cause => exact fails_undoing log cause
      · obtain ⟨log, failure⟩ := r
        cases failure with
        | none => trivial
        | some cause => exact (fails_undoing log cause).needs

theorem needs_planAndApply (policy : Policy) (budget : Nat) (change : ChangeId) (actor : Account) :
    (planAndApply policy budget change actor).Needs Succeeds := by
  refine Needs.bind (needs_withHistory isInquiry_plan budget) (fun r hr => ?_) fun r => ?_
  · cases r with
    | ok p => exact absurd ⟨p, rfl⟩ hr
    | error f => exact fails_done_error f
  · cases r with
    | error f => trivial
    | ok p =>
      refine Needs.bind (needs_apply p) (fun r hr => ?_) fun r => ?_
      · cases r with
        | ok applied => exact absurd ⟨applied, rfl⟩ hr
        | error f => exact fails_done_error f
      · cases r with
        | ok applied => trivial
        | error f => trivial

/-- Publishing makes no calls. -/
theorem needs_publish {α : Type} {good : α → Prop} (events : List Event) (a : α) :
    ((publish events).bind fun _ => .done a).Needs good := by
  induction events with
  | nil => trivial
  | cons e events ih => exact ih

/-- A submission that was refused anything does not succeed. -/
theorem needs_submit (policy : Policy) (budget : Nat) (change : ChangeId) (actor : Account) :
    (submit policy budget change actor).Needs Succeeds := by
  refine Needs.bind (p := planAndApply policy budget change actor)
    (needs_planAndApply policy budget change actor) (fun r hr => ?_) fun r => ?_
  · cases r with
    | ok p => exact absurd ⟨p, rfl⟩ hr
    | error f => exact fails_done_error f
  · cases r with
    | error f => trivial
    | ok p => exact needs_publish p.events _

end Submission

/-! ### Runs against an adversary -/

namespace Trial

variable {α : Type} {good : α → Prop} {adversary : Adversary} {t t' : Trial} {a : α}

/-- Without an interference to come, a call is refused and nothing happens, or the world answers it. -/
theorem answer_cases_of_unarmed (harmed : t.armed = none) (c : StoreCall) :
    (answer adversary t c).2.armed = none ∧
      ((∃ e, (answer adversary t c).1 = .error e ∧ (answer adversary t c).2.world = t.world) ∨
        (answer adversary t c).1 = (t.world.answer c).1 ∧
          (answer adversary t c).2.world = (t.world.answer c).2) := by
  have hanswered := answered adversary t c
  generalize (answer adversary t c).1 = r at hanswered
  generalize (answer adversary t c).2 = t₂ at hanswered
  have hdrift : ∀ {t₁ : Trial}, t.Drift t₁ → t₁.armed = none ∧ t₁.world = t.world := by
    intro t₁ h
    cases h with
    | @stays armed hsub =>
      refine ⟨?_, rfl⟩
      cases harm : armed with
      | none => rfl
      | some i =>
        have hi := hsub i harm
        rw [harmed] at hi
        cases hi
    | moves hi =>
      rw [harmed] at hi
      cases hi
  cases hanswered with
  | failed e h => exact ⟨(hdrift h).1, .inl ⟨e, rfl, (hdrift h).2⟩⟩
  | settled h hcalm =>
    obtain ⟨hnone, hworld⟩ := hdrift h
    exact ⟨hnone, .inr (by rw [hworld]; exact ⟨rfl, rfl⟩)⟩

/-- A program that needs every answer, and that comes to a good value although calls may have been
refused, has done what it does in the world by itself. -/
theorem run_eq_of_needs {p : Program α} (hp : p.Needs good) (harmed : t.armed = none)
    (hrun : p.run (host adversary) t = (some a, t')) (ha : good a) :
    t.world.run p = (some a, t'.world) := by
  induction p generalizing t with
  | done b =>
    cases hrun
    rfl
  | exhausted => cases hrun
  | signal g next ih => exact ih (t := t.note g) hp harmed hrun
  | call c next ih =>
    obtain ⟨hnone, hcases⟩ := @answer_cases_of_unarmed adversary t harmed c
    have hrest : (next (answer adversary t c).1).run (host adversary) (answer adversary t c).2 =
        (some a, t') := hrun
    rcases hcases with ⟨e, hrefused, _⟩ | ⟨hanswer, hworld⟩
    · rw [hrefused] at hrest
      exact absurd ha ((hp.1 e).not_good hrest)
    · have hgo := ih _ (hp.2 _) hnone hrest
      rw [hanswer, hworld] at hgo
      exact hgo

end Trial
end Landing
