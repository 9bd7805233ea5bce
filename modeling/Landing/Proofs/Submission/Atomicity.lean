import Landing.Proofs.Submission.Recovery
import Landing.Proofs.Submission.Submit

/-!
# All or nothing

However the stores fail during a submission, and even if a branch is moved behind
its back, a submission that does not succeed leaves everything as it was, except
for what the interference has done and for merge commits that no branch leads to
(`Submission.submit_all_or_nothing`).  The one way out is that undoing a step
fails, and then the submission says so.

Planning asks only, so it needs no undoing.  What comes after it is the matter of
`Trial.ends_apply`.
-/

namespace Landing

open Submission

namespace World

variable {w : World} {policy : Policy} {budget : Nat} {change : ChangeId} {actor : Account}

/-- Reopening a change that is open and without traces does nothing. -/
theorem Unsubmitted.reopen_eq (hclean : w.Unsubmitted) {k : ChangeId} {c : Change}
    (hc : w.changes.get? k = some c) (hopen : c.isOpen = true) : c.reopen = c :=
  Change.reopen_eq_iff.2 ⟨hopen, hclean k c hc hopen⟩

/-- The commits that the planned submission would store. -/
def plannedInserts (w : World) (policy : Policy) (budget : Nat) (change : ChangeId)
    (actor : Account) : List (ProjectName × Draft) :=
  match w.planned policy budget change actor with
  | some (.ok p) => p.inserts
  | _ => []

theorem mem_plannedInserts {q : ProjectName} {d : Draft}
    (hd : (q, d) ∈ w.plannedInserts policy budget change actor) :
    ∃ p, w.planned policy budget change actor = some (.ok p) ∧ d ∈ p.draftsFor q := by
  unfold plannedInserts at hd
  split at hd
  · next p hp => exact ⟨p, hp, Plan.mem_inserts.1 hd⟩
  · cases hd

end World

/-- The records that a plan marks are open. -/
theorem Plan.Of.marksOpen {w : World} {p : Plan} (hplan : p.Of w) :
    ∀ s ∈ p.steps, Trial.MarksOpen w s := by
  intro s hs
  cases s with
  | swap => trivial
  | mark k tip submitter =>
    obtain ⟨⟨bp, hbp, _, hk⟩, _⟩ := Plan.mark_mem_steps.1 hs
    obtain ⟨c, hc, rfl, _⟩ := (hplan.mem_changes_iff hbp).1 hk
    have hrecord := hplan.openRecord c hc
    exact ⟨c, hrecord.recorded, hrecord.isOpen⟩

namespace Trial

variable {w : World} {interference : Option Interference} {adversary : Adversary} {t : Trial}
variable {policy : Policy} {budget : Nat} {change : ChangeId} {actor : Account}

/-- What has become of `w` is described by the log, and the records differ by merges that are in the
log only. -/
structure Recoverable (w : World) (interference : Option Interference)
    (inserts : List (ProjectName × Draft)) (log : List TakenStep) (t : Trial) : Prop
    extends Undoable w interference inserts log t where
  records : MarkedBy log w.changes t.world.changes

/-- Where open changes carry no traces, undoing gives every record back. -/
theorem Undoable.recoverable {inserts : List (ProjectName × Draft)} {log : List TakenStep}
    (h : t.Undoable w interference inserts log) (hclean : w.Unsubmitted) :
    t.Recoverable w interference inserts log :=
  { h with records := h.altered.markedBy fun _ _ hc hopen => hclean.reopen_eq hc hopen }

/-- As long as nothing but questions were asked, nothing has to be undone. -/
theorem undoable_of_view {inserts : List (ProjectName × Draft)}
    (h : t.view = (start w interference).view) : t.Undoable w interference inserts [] := by
  obtain ⟨world, armed, moved, published, exchanges⟩ := t
  simp only [view, start, Prod.mk.injEq] at h
  obtain ⟨rfl, rfl, rfl, rfl⟩ := h
  exact { undoable_start world armed inserts with logged := fun s hs => by cases hs }

/-- Whatever the adversary does, planning ends with a failure that is not one of undoing, or with
what it comes to in the world, and leaves everything alone. -/
theorem comes_planning :
    Comes adversary (withHistory budget (plan policy change actor)) t fun r t' =>
      t'.view = t.view ∧
        ((∃ f, r = some (.error f) ∧ ∀ step cause, f ≠ .rollbackFailed step cause) ∨
          r = t.world.planned policy budget change actor) := by
  have hasks : (plan policy change actor (History.start budget)).Inquires _ := isInquiry_plan.inquires _
  obtain ⟨hview, hend⟩ := Program.run_of_inquires (answersFrom adversary t) hasks (s := t) rfl
  have hplan : Comes adversary (plan policy change actor (History.start budget)) t fun r t' =>
      t'.view = t.view ∧
        ((∃ f h, r = some (.error f, h) ∧ ∀ step cause, f ≠ .rollbackFailed step cause) ∨
          r = Program.result t.world (plan policy change actor (History.start budget))) := by
    refine ⟨hview, hend.imp_left ?_⟩
    rintro ⟨e, h, -, heq⟩
    exact ⟨.storage e, h, heq, fun _ _ => Failure.noConfusion⟩
  -- The history is dropped at the end.
  rw [World.planned, World.run_withHistory isInquiry_plan]
  refine Comes.bind hplan (fun r t' ht' => ⟨ht'.1, ?_⟩) fun t' ht' => ⟨ht'.1, ?_⟩
  · rcases ht'.2 with ⟨f, h, heq, hforward⟩ | heq
    · cases heq
      exact .inl ⟨f, rfl, hforward⟩
    · rw [← heq]
      exact .inr rfl
  · rcases ht'.2 with ⟨f, h, heq, _⟩ | heq
    · cases heq
    · rw [← heq]
      exact .inr rfl

/-- Whatever the adversary does, a preview changes nothing. -/
theorem world_preview : ((preview policy budget change actor).run (host adversary) t).2.world =
    t.world := by
  have hall : Comes adversary (withHistory budget (plan policy change actor) >>= fun r =>
      pure (r.map Plan.tips)) (t.note (.started change actor.id true)) fun _ t' =>
        t'.world = t.world := by
    refine comes_planning.bind (fun r t' ht' => ?_) fun t' ht' => ?_
    · exact congrArg Prod.fst ht'.1
    · exact congrArg Prod.fst ht'.1
  exact hall

/-- Publishing ends. -/
theorem ends_publish (events : List Event) :
    Ends adversary (publish events) t fun _ _ => True := by
  induction events generalizing t with
  | nil => exact ends_pure trivial
  | cons e events ih =>
    exact (ends_tell (Q := fun _ _ => True) trivial).bind fun _ t' _ => ih

/-- What is said about the end of a submission, or of a part of it.  A failure leaves nothing to be
undone, which is what `Undone` says, or undoing has failed. -/
def Settled {α : Type} (Undone : Trial → Prop) (ended : Option (Except Failure α)) (t : Trial) :
    Prop :=
  match ended with
  | some (.ok _) => True
  | some (.error f) =>
    (Undone t ∧ ∀ step cause, f ≠ .rollbackFailed step cause) ∨
      ∃ s cause, f = .rollbackFailed s.describe cause ∧ t.UndoFailed s cause
  | none => Undone t

/-- What holds whenever nothing is left to be undone. -/
theorem Settled.imp {α : Type} {P Q : Trial → Prop} {ended : Option (Except Failure α)}
    (h : Settled P ended t) (himp : P t → Q t) : Settled Q ended t := by
  cases ended with
  | none => exact himp h
  | some r =>
    cases r with
    | ok a => trivial
    | error f => exact h.imp_left fun hundone => ⟨himp hundone.1, hundone.2⟩

/-- Planning and applying. -/
theorem comes_planAndApply (hkeyed : w.Keyed) (hview : t.view = (start w interference).view) :
    Comes adversary (planAndApply policy budget change actor) t
      (Settled fun t =>
        t.Undoable w interference (w.plannedInserts policy budget change actor) []) := by
  have hworld : t.world = w := congrArg Prod.fst hview
  -- While planning goes on, nothing has to be undone.
  have hundoable : ∀ t' : Trial, t'.view = t.view →
      t'.Undoable w interference (w.plannedInserts policy budget change actor) [] :=
    fun t' ht' => undoable_of_view (ht'.trans hview)
  refine Comes.bind comes_planning (fun r t₁ ht₁ => ?_) fun t₁ ht₁ => hundoable t₁ ht₁.1
  obtain ⟨hview₁, hend⟩ := ht₁
  cases r with
  | error f =>
    refine Or.inl ⟨hundoable t₁ hview₁, ?_⟩
    rcases hend with ⟨f', heq, hforward⟩ | hplanned
    · cases heq
      exact hforward
    · rw [hworld] at hplanned
      exact World.ne_rollbackFailed_of_planned hplanned.symm
  | ok p =>
    have hplanned : w.planned policy budget change actor = some (.ok p) := by
      rcases hend with ⟨f, heq, _⟩ | hplanned
      · cases heq
      · rw [← hworld]
        exact hplanned.symm
    have hplan : p.Of w := World.of_planned hkeyed hplanned
    have hinserts : w.plannedInserts policy budget change actor = p.inserts := by
      rw [World.plannedInserts, hplanned]
    have hstart := hundoable t₁ hview₁
    rw [hinserts] at hstart ⊢
    refine ((ends_apply hplan.marksOpen hstart).bind (R := fun r t' =>
      Settled (fun t => t.Undoable w interference p.inserts []) (some r) t')
      fun r t₂ ht₂ => ?_).comes fun r t₂ ht₂ => ht₂
    cases r with
    | ok applied => exact ends_pure trivial
    | error f => exact ends_pure (ht₂ f rfl)

/-- How a submission ends, whatever the adversary does and whatever traces open changes carry. -/
theorem comes_submit_undoable (hkeyed : w.Keyed) (adversary : Adversary)
    (interference : Option Interference) (policy : Policy) (budget : Nat) (change : ChangeId)
    (actor : Account) :
    Comes adversary (submit policy budget change actor) (start w interference)
      (Settled fun t =>
        t.Undoable w interference (w.plannedInserts policy budget change actor) []) := by
  have hparts : Comes adversary (planAndApply policy budget change actor)
      ((start w interference).note (.started change actor.id false))
      (Settled fun t =>
        t.Undoable w interference (w.plannedInserts policy budget change actor) []) :=
    comes_planAndApply hkeyed rfl
  refine Comes.bind (p := planAndApply policy budget change actor) hparts (fun r t ht => ?_)
    fun t ht => ht
  cases r with
  | error f =>
    -- The rejection is signalled, which publishes no event.
    rcases ht with ⟨hundoable, hforward⟩ | hfailed
    · exact Or.inl ⟨hundoable.note (g := .rejected f) rfl, hforward⟩
    · exact Or.inr hfailed
  | ok p =>
    -- With the plan applied, only signals are left, and they cannot fail.
    refine Ends.comes (Q := fun r _ => ∃ outcome, r = .ok outcome) ?_ fun r t' hr => ?_
    · refine (ends_tell (Q := fun _ _ => True) trivial).bind fun _ t₁ _ => ?_
      exact (ends_publish p.events).bind fun _ t₂ _ => ends_pure ⟨_, rfl⟩
    · obtain ⟨outcome, rfl⟩ := hr
      trivial

/-- How a submission ends where open changes carry no traces. -/
theorem comes_submit (hkeyed : w.Keyed) (hclean : w.Unsubmitted) (adversary : Adversary)
    (interference : Option Interference) (policy : Policy) (budget : Nat) (change : ChangeId)
    (actor : Account) :
    Comes adversary (submit policy budget change actor) (start w interference)
      (Settled fun t =>
        t.Recoverable w interference (w.plannedInserts policy budget change actor) []) :=
  (comes_submit_undoable hkeyed adversary interference policy budget change actor).imp
    fun h => h.recoverable hclean

end Trial

namespace Submission

/-- A submission against an adversary.  If it does not succeed, and not because undoing a step has
failed, then every branch is where it was, except that a branch that was moved from outside is where
it was moved to; all change records are as they were; no event was published; and no commit was
stored but merge commits of the plan, while none was lost.  If it fails because undoing a step has
failed, then this is what happened last: the order that undoes a step of the submission was answered
with the error that the failure tells. -/
theorem submit_all_or_nothing {w : World} (hkeyed : w.Keyed) (hclean : w.Unsubmitted)
    {adversary : Adversary} {interference : Option Interference} {policy : Policy} {budget : Nat}
    {change : ChangeId} {actor : Account} {ended : Option (Except Failure Outcome)} {t : Trial}
    (hrun : (submit policy budget change actor).run (Trial.host adversary)
      (Trial.start w interference) = (ended, t)) :
    ((∀ outcome, ended ≠ some (.ok outcome)) →
      (∀ step cause, ended ≠ some (.error (.rollbackFailed step cause))) →
      (∀ i, t.moved = some i → interference = some i ∧ t.world.tip? i.branch = some i.tip) ∧
      (∀ b, (∀ i, t.moved = some i → i.branch ≠ b) → t.world.tip? b = w.tip? b) ∧
      t.world.changes = w.changes ∧
      t.published = [] ∧
      (∀ project id c, w.commit? project id = some c → t.world.commit? project id = some c) ∧
      ∀ project id c, t.world.commit? project id = some c →
        w.commit? project id = some c ∨
          ∃ p, w.planned policy budget change actor = some (.ok p) ∧
            ∃ d ∈ p.draftsFor project, d.id = id ∧ c = d.commit) ∧
    ∀ step cause, ended = some (.error (.rollbackFailed step cause)) →
      ∃ s : TakenStep, s.describe = step ∧
        t.exchanges.head? = some ⟨s.undoCall, .error cause⟩ ∧
        ∃ x ∈ t.exchanges, s.Logs x.call ∧ ∃ reply, x.answer = .ok reply := by
  have hsettled := Trial.comes_submit hkeyed hclean adversary interference policy budget change
    actor
  unfold Trial.Comes at hsettled
  rw [hrun] at hsettled
  constructor
  · intro hno hforward
    -- In each of the three ways not to succeed, nothing is left to be undone.
    have hrecoverable : t.Recoverable w interference
        (w.plannedInserts policy budget change actor) [] := by
      cases ended with
      | none => exact hsettled
      | some r =>
        cases r with
        | ok outcome => exact absurd rfl (hno outcome)
        | error f =>
          rcases hsettled with ⟨hrecoverable, _⟩ | ⟨s, cause, rfl, _⟩
          · exact hrecoverable
          · exact absurd rfl (hforward s.describe cause)
    obtain ⟨hmoved, hstay⟩ := hrecoverable.tips_of_nil
    refine ⟨hmoved, hstay, hrecoverable.records.eq_of_nil, hrecoverable.published,
      hrecoverable.commits.stored, fun project id c hc => ?_⟩
    refine (hrecoverable.commits.added project id c hc).imp_right ?_
    rintro ⟨d, hd, hid, rfl⟩
    obtain ⟨p, hp, hmem⟩ := World.mem_plannedInserts hd
    exact ⟨p, hp, d, hmem, hid, rfl⟩
  · rintro step cause rfl
    rcases hsettled with ⟨_, hforward⟩ | ⟨s, cause', heq, hlast, hlogged⟩
    · exact absurd rfl (hforward step cause)
    · cases heq
      exact ⟨s, rfl, hlast, hlogged⟩

/-- The second branch is moved behind the back of the submission, after the first branch was
forwarded.  The submission fails, and the first branch is back. -/
theorem sample_interference_undone :
    let s := Sample.fork
    let interference : Interference := ⟨Sample.branch "q", Sample.x⟩
    let run := (submit s.policy s.world.reach s.change s.actor).run (Trial.host (.ofFaults []))
      (Trial.start s.world (some interference))
    s.world.Keyed ∧ s.world.Unsubmitted ∧
      run.1 = some (.error
        (.concurrentModification (Sample.branch "q") (some Sample.root) (some Sample.x))) ∧
      run.2.world.tip? (Sample.branch "q") = some Sample.x ∧
      run.2.world.tip? (Sample.branch "p") = some Sample.root ∧
      run.2.world.changes = s.world.changes ∧ run.2.published = [] := by
  intro s interference run
  have hend : run.1 = some (.error
      (.concurrentModification (Sample.branch "q") (some Sample.root) (some Sample.x))) ∧
      run.2.moved = some interference := by decide +kernel
  obtain ⟨hended, hmoved⟩ := hend
  have hrun : run = (run.1, run.2) := (Prod.mk.eta (p := run)).symm
  obtain ⟨hfailed, _⟩ := submit_all_or_nothing s.keyed s.unsubmitted hrun
  obtain ⟨hinterfered, hstay, hchanges, hpublished, _⟩ := hfailed
    (fun outcome h => by rw [hended] at h; cases h)
    (fun step cause h => by rw [hended] at h; cases h)
  have hother : ∀ i, run.2.moved = some i → i.branch ≠ Sample.branch "p" := by
    intro i hi
    rw [hmoved] at hi
    cases hi
    decide
  refine ⟨s.keyed, s.unsubmitted, hended, (hinterfered interference hmoved).2, ?_, hchanges,
    hpublished⟩
  rw [hstay (Sample.branch "p") hother]
  rfl

end Submission
end Landing
