import Landing.Proofs.Submission.Recovery
import Landing.Proofs.Submission.Submit

/-!
# What a submission does, whatever it hears

A submission runs among others, so nothing is assumed here about the answers that
it gets.  First it asks.  Once it has a plan, the calls of it that are accepted are
those that `Plan.Course` describes: commits to store, then steps of the plan in
order, and after a step was refused the same steps taken back, newest first
(`Submission.course_of_hears`).

For one branch this leaves three possibilities (`Plan.Course.swaps`): the branch
was not moved, or it was moved once, or it was moved once and moved back.  The
last one is ruled out when the submission succeeds.
-/

namespace Landing

open World

/-! ### How programs end -/

/-- How a program that may fail stands. -/
inductive Ending where
  | underway
  | exhausted
  | success
  | failure (f : Failure)

/-- How the program stands. -/
def Program.ending {α : Type} : Program (Except Failure α) → Ending
  | .done (.ok _) => .success
  | .done (.error f) => .failure f
  | .exhausted => .exhausted
  | .call .. => .underway
  | .signal .. => .underway

theorem Program.IsBusy.ending {α : Type} {p : Program (Except Failure α)} (hp : p.IsBusy) :
    p.ending = .underway := by
  cases p with
  | done => exact hp.elim
  | exhausted => exact hp.elim
  | call => rfl
  | signal => rfl

/-- What follows makes no difference to a program that is not done. -/
theorem Program.ending_bind {α β : Type} {rest : Program (Except Failure α)}
    (hbusy : ∀ a, rest ≠ .done a) (f : Except Failure α → Program (Except Failure β)) :
    (rest.bind f).ending = rest.ending := by
  cases rest with
  | done a => exact absurd rfl (hbusy a)
  | exhausted => rfl
  | call => rfl
  | signal => rfl

theorem Program.IsBusy.bind {α β : Type} {p : Program α} (hp : p.IsBusy) (f : α → Program β) :
    (p.bind f).IsBusy := by
  cases p with
  | done => exact hp.elim
  | exhausted => exact hp.elim
  | call => trivial
  | signal => trivial

/-- It is not the failure that says that undoing has failed. -/
def Failure.IsForward (f : Failure) : Prop := ∀ step cause, f ≠ .rollbackFailed step cause

theorem Step.isForward_swapFailure (e : StoreError) : (swapFailure e).IsForward := by
  intro step cause
  cases e with
  | _ => exact Failure.noConfusion

/-! ### The calls of the parts -/

namespace Step

/-- The call that takes the step. -/
def call : Step → StoreCall
  | swap b old new => .compareAndSwap b old (some new)
  | mark k tip submitter => .markMerged k tip submitter

/-- The call that takes the step back. -/
def backCall (s : Step) : StoreCall := s.taken.undoCall

end Step

/-- The call that stores a merge commit. -/
def Plan.storeCall (e : ProjectName × Draft) : StoreCall := .insertCommit e.1 e.2

namespace Program

theorem executes_storeAll (l : List (ProjectName × Draft)) :
    Executes Plan.storeCall (fun r => r = .ok ())
      (fun _ r => ∃ f : Failure, r = .error f ∧ f.IsForward) l (Plan.storeAll l) := by
  induction l with
  | nil => rfl
  | cons e l ih =>
    refine ⟨_, rfl, fun _ => ih, fun error => ?_⟩
    exact ⟨.storage error, rfl, fun _ _ => Failure.noConfusion⟩

theorem executes_perform (steps : List Step) (log : List TakenStep) :
    Executes Step.call (fun r => r = (log ++ steps.map Step.taken, none))
      (fun finished r => ∃ f : Failure, r = (log ++ finished.map Step.taken, some f) ∧ f.IsForward)
      steps (Transaction.perform steps log) := by
  induction steps generalizing log with
  | nil => exact (List.append_nil log).symm ▸ rfl
  | cons s steps ih =>
    have hrest := ih (log ++ [s.taken])
    simp only [List.append_assoc, List.singleton_append] at hrest
    cases s with
    | swap b old new =>
      refine ⟨_, rfl, fun _ => hrest, fun error => ?_⟩
      exact ⟨_, by rw [List.map_nil, List.append_nil], Step.isForward_swapFailure error⟩
    | mark k tip submitter =>
      refine ⟨_, rfl, fun _ => hrest, fun error => ?_⟩
      exact ⟨.storage error, by rw [List.map_nil, List.append_nil], fun _ _ => Failure.noConfusion⟩

theorem executes_unwind (steps : List Step) :
    Executes Step.backCall (fun r => r = .ok ())
      (fun _ r => ∃ step cause, r = .error (.rollbackFailed step cause)) steps
      (Transaction.unwind (steps.map Step.taken)) := by
  induction steps with
  | nil => rfl
  | cons s steps ih =>
    cases s with
    | swap b old new => exact ⟨_, rfl, fun _ => ih, fun error => ⟨_, _, rfl⟩⟩
    | mark k tip submitter => exact ⟨_, rfl, fun _ => ih, fun error => ⟨_, _, rfl⟩⟩

theorem executes_rollback (taken : List Step) :
    Executes Step.backCall (fun r => ∃ undone, r = .ok undone)
      (fun _ r => ∃ step cause, r = .error (.rollbackFailed step cause)) taken.reverse
      (Transaction.rollback (taken.map Step.taken)) := by
  have hunwind := executes_unwind taken.reverse
  rw [List.map_reverse] at hunwind
  refine Executes.bind hunwind (fun r hr => ?_) fun _ r hr => ?_
  · subst hr
    exact ⟨_, rfl⟩
  · obtain ⟨step, cause, rfl⟩ := hr
    exact ⟨step, cause, rfl⟩

end Program

/-! ### The course of a plan -/

/-- What was accepted of a plan in the exchanges so far: some merge commits were stored, some steps were
taken, and after the next one had failed some of these were taken back. -/
structure Plan.Course (p : Plan) (xs : List Exchange) (ending : Ending)
    (stored : List (ProjectName × Draft)) (taken back : List Step) : Prop where
  calls_eq : accepted xs = stored.map storeCall ++ taken.map Step.call ++ back.map Step.backCall
  stored_prefix : stored <+: p.inserts
  taken_prefix : taken <+: p.steps
  back_prefix : back <+: taken.reverse
  stores_first : taken ≠ [] → stored = p.inserts
  of_success : ending = .success → stored = p.inserts ∧ taken = p.steps ∧ back = []
  of_failure : ∀ f, ending = .failure f → f.IsForward → back = taken.reverse
  not_exhausted : ending ≠ .exhausted
  step_failed : back ≠ [] → ∃ s left e, p.steps = taken ++ s :: left ∧ ⟨s.call, .error e⟩ ∈ xs

namespace Plan

variable {p : Plan} {xs : List Exchange} {ending : Ending} {stored : List (ProjectName × Draft)}
variable {taken back : List Step} {k : ChangeId} {tip : CommitId} {submitter : AccountId}

/-- Further signals do not change the course. -/
theorem Course.underway (h : p.Course xs ending stored taken back) :
    p.Course xs .underway stored taken back :=
  { h with
    of_success := nofun
    of_failure := nofun
    not_exhausted := nofun }

/-- A change that was marked was marked in a step. -/
theorem Course.mem_taken (h : p.Course xs ending stored taken back)
    (hc : .markMerged k tip submitter ∈ accepted xs) : Step.mark k tip submitter ∈ taken := by
  rw [h.calls_eq] at hc
  simp only [List.mem_append, List.mem_map] at hc
  rcases hc with (⟨e, _, heq⟩ | ⟨s, hs, heq⟩) | ⟨s, _, heq⟩
  · cases heq
  · cases s with
    | swap => cases heq
    | mark =>
      cases heq
      exact hs
  · cases s with
    | _ => cases heq

/-- Once something was taken back, no more changes are marked. -/
theorem Course.back_eq_nil (h : p.Course xs ending stored taken back)
    (hlast : (accepted xs).getLast? = some (.markMerged k tip submitter)) : back = [] := by
  rcases List.eq_nil_or_concat back with hnil | ⟨before, s, rfl⟩
  · exact hnil
  · rw [h.calls_eq, List.concat_eq_append, List.map_append, ← List.append_assoc] at hlast
    have heq : s.backCall = .markMerged k tip submitter := by simpa using hlast
    cases s with
    | _ => cases heq

/-- The course while commits are being stored. -/
theorem course_of_storing {left : List (ProjectName × Draft)}
    (hcalls : accepted xs = stored.map storeCall) (hinserts : p.inserts = stored ++ left)
    (hsuccess : ending ≠ .success) (hexhausted : ending ≠ .exhausted) :
    p.Course xs ending stored [] [] where
  calls_eq := by simpa using hcalls
  stored_prefix := ⟨left, hinserts.symm⟩
  taken_prefix := List.nil_prefix
  back_prefix := List.nil_prefix
  stores_first hne := absurd rfl hne
  of_success h := absurd h hsuccess
  of_failure _ _ _ := rfl
  not_exhausted := hexhausted
  step_failed h := absurd rfl h

/-- The course while steps are being taken. -/
theorem course_of_taking {left : List Step}
    (hcalls : accepted xs = p.inserts.map storeCall ++ taken.map Step.call)
    (hsteps : p.steps = taken ++ left) (hsuccess : ending = .success → left = [])
    (hfailure : ∀ f, ending ≠ .failure f) (hexhausted : ending ≠ .exhausted) :
    p.Course xs ending p.inserts taken [] where
  calls_eq := by simpa using hcalls
  stored_prefix := List.prefix_rfl
  taken_prefix := ⟨left, hsteps.symm⟩
  back_prefix := List.nil_prefix
  stores_first _ := rfl
  of_success h := ⟨rfl, by rw [hsteps, hsuccess h, List.append_nil], rfl⟩
  of_failure f hf := absurd hf (hfailure f)
  not_exhausted := hexhausted
  step_failed h := absurd rfl h

/-- Taking steps back makes one call after another, and it ends with a failure. -/
theorem executes_undoing (taken : List Step) (cause : Failure) :
    Program.Executes Step.backCall (fun r => r = .error cause)
      (fun _ r => ∃ step e, r = .error (.rollbackFailed step e)) taken.reverse
      ((Transaction.rollback (taken.map Step.taken)).bind fun r => match r with
        | .ok _ => .done (.error cause : Except Failure (List TakenStep × Plan))
        | .error failure => .done (.error failure)) := by
  refine (Program.executes_rollback taken).bind (fun r hr => ?_) fun _ r hr => ?_
  · obtain ⟨undone, rfl⟩ := hr
    rfl
  · obtain ⟨step, e, rfl⟩ := hr
    exact ⟨step, e, rfl⟩

/-- The course while steps are being taken back. -/
theorem course_of_hears_undoing {left : List Step} {s : Step} {e : StoreError} {ys zs : List Exchange}
    (hcalls : accepted ys = p.inserts.map storeCall ++ taken.map Step.call)
    (hsteps : p.steps = taken ++ s :: left) (hfailed : ⟨s.call, .error e⟩ ∈ ys)
    {cause : Failure} {undone : Nat} {rest : Program (Except Failure (List TakenStep × Plan))}
    (h : Program.Hears (.signal (.rolledBack undone cause)
      ((Transaction.rollback (taken.map Step.taken)).bind fun r => match r with
        | .ok _ => .done (.error cause)
        | .error failure => .done (.error failure))) zs rest) :
    ∃ back, p.Course (ys ++ zs) rest.ending p.inserts taken back ∧ rest.ending ≠ .success := by
  have hframe : ∀ back ending, accepted zs = back.map Step.backCall → back <+: taken.reverse →
      ending ≠ .success → ending ≠ .exhausted →
      (∀ f, ending = .failure f → f.IsForward → back = taken.reverse) →
      p.Course (ys ++ zs) ending p.inserts taken back :=
    fun back ending hzs hback hsuccess hexhausted hfailure =>
      { calls_eq := by rw [accepted_append, hcalls, hzs]
        stored_prefix := List.prefix_rfl
        taken_prefix := ⟨s :: left, hsteps.symm⟩
        back_prefix := hback
        stores_first := fun _ => rfl
        of_success := fun h => absurd h hsuccess
        of_failure := hfailure
        not_exhausted := hexhausted
        step_failed := fun _ => ⟨s, left, e, hsteps, List.mem_append_left zs hfailed⟩ }
  cases h with
  | nil => exact ⟨[], hframe [] .underway rfl List.nil_prefix nofun nofun nofun, nofun⟩
  | signal h =>
    obtain ⟨back, kept, hback, hzs, hend⟩ := (executes_undoing taken cause).of_hears h
    have hbegins : back <+: taken.reverse := ⟨kept, hback.symm⟩
    refine ⟨back, ?_⟩
    rcases hend with hbusy | ⟨r, rfl, rfl, rfl⟩ | ⟨r, rfl, ⟨step, e, rfl⟩, _⟩
    · rw [hbusy.ending]
      exact ⟨hframe back .underway hzs hbegins nofun nofun nofun, nofun⟩
    · rw [List.append_nil] at hback
      exact ⟨hframe back _ hzs hbegins nofun nofun fun _ _ _ => hback.symm, nofun⟩
    · refine ⟨hframe back _ hzs hbegins nofun nofun fun f hf hforward => ?_, nofun⟩
      cases hf
      exact absurd rfl (hforward step e)

/-- What is accepted of a plan that is being applied. -/
theorem course_of_hears_apply {rest : Program (Except Failure (List TakenStep × Plan))}
    (h : p.apply.Hears xs rest) :
    ∃ stored taken back, p.Course xs rest.ending stored taken back ∧
      ∀ r, rest = .done (.ok r) → r.2 = p.markApplied := by
  rcases Program.Hears.bind_cases (p := storeAll p.inserts) h with
    ⟨rest, hstore, rfl, hbusy⟩ | ⟨xs, ys, r, rfl, hstore, h⟩
  · -- Commits are being stored.
    obtain ⟨stored, left, hinserts, hcalls, _⟩ :=
      (Program.executes_storeAll p.inserts).of_hears hstore
    have hrest : rest.IsBusy := (Program.executes_storeAll p.inserts).isBusy hstore hbusy
    refine ⟨stored, [], [], ?_, fun r hr => absurd hr (Program.bind_ne_done hbusy)⟩
    rw [(hrest.bind _).ending]
    exact course_of_storing hcalls hinserts nofun nofun
  obtain ⟨stored, left, hinserts, hcalls, hend⟩ :=
    (Program.executes_storeAll p.inserts).of_hears hstore
  rcases hend with hbusy | ⟨a, ha, rfl, rfl⟩ | ⟨a, ha, ⟨f, rfl, hforward⟩, _⟩
  · exact hbusy.elim
  · -- All commits are stored.
    cases ha
    rw [List.append_nil] at hinserts
    subst hinserts
    rcases Program.Hears.bind_cases (p := Transaction.perform p.steps []) h with
      ⟨rest, hperform, rfl, hbusy⟩ | ⟨ys, zs, ⟨log, failure⟩, rfl, hperform, h⟩
    · -- Steps are being taken.
      obtain ⟨taken, left, hsteps, htaken, _⟩ :=
        (Program.executes_perform p.steps []).of_hears hperform
      have hrest : rest.IsBusy := (Program.executes_perform p.steps []).isBusy hperform hbusy
      refine ⟨p.inserts, taken, [], ?_, fun r hr => absurd hr (Program.bind_ne_done hbusy)⟩
      rw [(hrest.bind _).ending]
      exact course_of_taking (by rw [accepted_append, hcalls, htaken]) hsteps nofun nofun nofun
    obtain ⟨taken, left, hsteps, htaken, hend⟩ :=
      (Program.executes_perform p.steps []).of_hears hperform
    rcases hend with hbusy | ⟨a, ha, rfl, rfl⟩ | ⟨a, ha, ⟨f, rfl, _⟩, s, left, e, rfl, hfailed⟩
    · exact hbusy.elim
    · -- All steps are taken.
      cases ha
      obtain ⟨rfl, rfl⟩ := h.of_done
      refine ⟨p.inserts, taken, [], ?_, fun r hr => ?_⟩
      · rw [List.append_nil]
        exact course_of_taking (by rw [accepted_append, hcalls, htaken]) hsteps (fun _ => rfl) nofun
          nofun
      · cases hr
        rfl
    · -- A step was refused.
      cases ha
      obtain ⟨back, hcourse, hsuccess⟩ := course_of_hears_undoing
        (by rw [accepted_append, hcalls, htaken]) hsteps (List.mem_append_right _ hfailed) h
      rw [← List.append_assoc]
      refine ⟨p.inserts, taken, back, hcourse, fun r hr => ?_⟩
      rw [hr] at hsuccess
      exact absurd rfl hsuccess
  · -- A commit was refused.
    cases ha
    obtain ⟨rfl, rfl⟩ := h.of_done
    rw [List.append_nil]
    exact ⟨stored, [], [], course_of_storing hcalls hinserts nofun nofun, nofun⟩

end Plan

/-! ### Moves of one branch -/

/-- The call for a move of the branch: from where it is expected to where it is to go. -/
def StoreCall.swap? (b : Branch) : StoreCall → Option (Option CommitId × Option CommitId)
  | compareAndSwap b' old new => if b' = b then some (old, new) else none
  | _ => none

/-- The moves of a branch that the calls are about, in order. -/
def swaps (b : Branch) (calls : List StoreCall) : List (Option CommitId × Option CommitId) :=
  calls.filterMap (StoreCall.swap? b)

theorem mem_swaps {b : Branch} {calls : List StoreCall} {old tip : Option CommitId} :
    (old, tip) ∈ swaps b calls ↔ .compareAndSwap b old tip ∈ calls := by
  unfold swaps
  rw [List.mem_filterMap]
  constructor
  · rintro ⟨c, hc, hswap⟩
    cases c with
    | compareAndSwap b' old' new =>
      rw [StoreCall.swap?] at hswap
      split at hswap
      · next hb =>
        cases hswap
        rwa [← hb]
      · cases hswap
    | _ => cases hswap
  · exact fun hc => ⟨_, hc, if_pos rfl⟩

theorem swaps_append (b : Branch) (calls calls' : List StoreCall) :
    swaps b (calls ++ calls') = swaps b calls ++ swaps b calls' :=
  List.filterMap_append

/-- Questions move nothing. -/
theorem swaps_questions {b : Branch} {calls : List StoreCall} (h : ∀ c ∈ calls, c.IsQuestion) :
    swaps b calls = [] := by
  refine List.filterMap_eq_nil_iff.2 fun c hc => ?_
  have hquestion := h c hc
  cases c with
  | insertCommit | compareAndSwap | markMerged | reopen => exact hquestion.elim
  | _ => rfl

/-- One exchange is about no move of the branch, or it is one. -/
theorem swaps_single (b : Branch) (x : Exchange) :
    (swaps b (accepted [x]) = [] ∧ (x.IsOk → x.call.swap? b = none)) ∨
      ∃ old tip, x = ⟨.compareAndSwap b old tip, .ok ()⟩ := by
  obtain ⟨c, r⟩ := x
  cases r with
  | error e =>
    refine .inl ⟨rfl, ?_⟩
    rintro ⟨reply, hreply⟩
    cases hreply
  | ok reply =>
    cases hc : c.swap? b with
    | none => exact .inl ⟨by simp [swaps, accepted, hc], fun _ => rfl⟩
    | some move =>
      cases c with
      | compareAndSwap b' old tip =>
        right
        rw [StoreCall.swap?] at hc
        split at hc
        · next hb =>
          subst hb
          exact ⟨old, tip, rfl⟩
        · cases hc
      | _ => cases hc

theorem swaps_stores (b : Branch) (l : List (ProjectName × Draft)) :
    swaps b (l.map Plan.storeCall) = [] := by
  refine List.filterMap_eq_nil_iff.2 fun c hc => ?_
  obtain ⟨e, _, rfl⟩ := List.mem_map.1 hc
  rfl

/-- Steps that are apart move a branch once, or not at all, and so does taking them back. -/
theorem Step.swaps_of_apart {steps : List Step} (hapart : steps.Pairwise Apart) (b : Branch) :
    swaps b (steps.map call) = [] ∧ swaps b (steps.reverse.map backCall) = [] ∨
      ∃ old new, swap b old new ∈ steps ∧ swaps b (steps.map call) = [(old, some new)] ∧
        swaps b (steps.reverse.map backCall) = [(some new, old)] := by
  induction steps with
  | nil => exact .inl ⟨rfl, rfl⟩
  | cons s steps ih =>
    obtain ⟨hfirst, hrest⟩ := List.pairwise_cons.1 hapart
    have hcall : swaps b ((s :: steps).map call) = swaps b [s.call] ++ swaps b (steps.map call) :=
      swaps_append b [s.call] _
    have hback : swaps b ((s :: steps).reverse.map backCall) =
        swaps b (steps.reverse.map backCall) ++ swaps b [s.backCall] := by
      rw [List.reverse_cons, List.map_append, swaps_append]
      rfl
    rw [hcall, hback]
    by_cases hmoves : s.moves? = some b
    · -- No other step moves the branch.
      rcases ih hrest with ⟨hnone, hnone'⟩ | ⟨old, new, hmem, _⟩
      · rw [hnone, hnone', List.append_nil, List.nil_append]
        cases s with
        | swap b' old new =>
          cases hmoves
          refine .inr ⟨old, new, by simp, ?_, ?_⟩
          · simp [swaps, call, StoreCall.swap?]
          · simp [swaps, backCall, taken, TakenStep.undoCall, StoreCall.swap?]
        | mark => cases hmoves
      · exact absurd rfl (hfirst _ hmem b hmoves)
    · have hother : swaps b [s.call] = [] ∧ swaps b [s.backCall] = [] := by
        cases s with
        | swap b' old new =>
          have hne : b' ≠ b := fun heq => hmoves (by rw [heq]; rfl)
          simp [swaps, call, backCall, taken, TakenStep.undoCall, StoreCall.swap?, hne]
        | mark => exact ⟨rfl, rfl⟩
      rw [hother.1, hother.2, List.nil_append, List.append_nil]
      refine (ih hrest).imp_right ?_
      rintro ⟨old, new, hmem, hswaps⟩
      exact ⟨old, new, List.mem_cons_of_mem s hmem, hswaps⟩

/-- The moves of a branch in the course of a plan. -/
theorem Plan.Course.swaps {p : Plan} {xs : List Exchange} {ending : Ending}
    {stored : List (ProjectName × Draft)} {taken back : List Step}
    (h : p.Course xs ending stored taken back) (hapart : p.steps.Pairwise Step.Apart)
    (b : Branch) : swaps b (accepted xs) = [] ∨ ∃ old new, Step.swap b old new ∈ taken ∧
      (swaps b (accepted xs) = [(old, some new)] ∨
        swaps b (accepted xs) = [(old, some new), (some new, old)] ∧ ending ≠ .success) := by
  have hback : Landing.swaps b (back.map Step.backCall) <+:
      Landing.swaps b (taken.reverse.map Step.backCall) := (h.back_prefix.map _).filterMap _
  rw [h.calls_eq, swaps_append, swaps_append, swaps_stores, List.nil_append]
  rcases Step.swaps_of_apart (hapart.sublist h.taken_prefix.sublist) b with
    ⟨hnone, hnone'⟩ | ⟨old, new, hmem, hone, hone'⟩
  · rw [hnone'] at hback
    rw [hnone, List.prefix_nil.1 hback]
    exact .inl rfl
  · rw [hone'] at hback
    rw [hone]
    refine .inr ⟨old, new, hmem, ?_⟩
    rcases List.prefix_cons_iff.1 hback with hnil | ⟨rest, hcons, hrest⟩
    · rw [hnil]
      exact .inl rfl
    · rw [hcons, List.prefix_nil.1 hrest]
      refine .inr ⟨rfl, fun hsuccess => ?_⟩
      -- A submission that succeeds has taken nothing back.
      rw [(h.of_success hsuccess).2.2] at hcons
      cases hcons

namespace Submission

open Program

/-- There is no plan yet, and there were only questions so far. -/
structure Asking (xs : List Exchange) (ending : Ending) : Prop where
  questions : ∀ x ∈ xs, x.call.IsQuestion
  no_success : ending ≠ .success
  forward : ∀ f, ending = .failure f → f.IsForward

/-- The plan was made after questions, and then it has taken its course. -/
def Pursuing (planning : Program (Except Failure Plan)) (xs : List Exchange) (ending : Ending)
    (p : Plan) : Prop :=
  ∃ qs ys, xs = qs ++ ys ∧ planning.Hears qs (.done (.ok p)) ∧ (∀ x ∈ qs, x.call.IsQuestion) ∧
    ∃ stored taken back, p.Course ys ending stored taken back

variable {policy : Policy} {budget : Nat} {change : ChangeId} {actor : Account}
variable {xs : List Exchange} {planning : Program (Except Failure Plan)} {ending : Ending} {p : Plan}

theorem accepted_questions (h : ∀ x ∈ xs, x.call.IsQuestion) : ∀ c ∈ accepted xs, c.IsQuestion := by
  intro c hc
  obtain ⟨x, hx, rfl, _⟩ := mem_accepted.1 hc
  exact h x hx

/-- Without a plan no branch is moved. -/
theorem Asking.swaps (h : Asking xs ending) (b : Branch) :
    swaps b (accepted xs) = [] :=
  swaps_questions (accepted_questions h.questions)

/-- What a submission that has a plan has done: after some questions the plan has taken its course. -/
theorem Pursuing.exists_course (h : Pursuing planning xs ending p) :
    ∃ asked ys stored taken back, accepted xs = asked ++ accepted ys ∧
      (∀ c ∈ asked, c.IsQuestion) ∧ p.Course ys ending stored taken back := by
  obtain ⟨qs, ys, rfl, _, hquestions, stored, taken, back, hcourse⟩ := h
  exact ⟨_, ys, stored, taken, back, accepted_append qs ys, accepted_questions hquestions, hcourse⟩

theorem Pursuing.not_exhausted (h : Pursuing planning xs ending p) : ending ≠ .exhausted := by
  obtain ⟨_, _, _, _, _, _, _, hcourse⟩ := h.exists_course
  exact hcourse.not_exhausted

/-- The moves of a branch by a submission that has a plan.  Before the first one the merge commits of
the plan were stored. -/
theorem Pursuing.swaps (h : Pursuing planning xs ending p) (hapart : p.steps.Pairwise Step.Apart)
    (b : Branch) :
    swaps b (accepted xs) = [] ∨ ∃ old new, Step.swap b old new ∈ p.steps ∧
      (∀ e ∈ p.inserts, Plan.storeCall e ∈ accepted xs) ∧
      (swaps b (accepted xs) = [(old, some new)] ∨
        swaps b (accepted xs) = [(old, some new), (some new, old)] ∧ ending ≠ .success) := by
  obtain ⟨asked, ys, stored, taken, back, heq, hquestions, hcourse⟩ := h.exists_course
  rw [heq, swaps_append, swaps_questions hquestions, List.nil_append]
  refine (hcourse.swaps hapart b).imp_right ?_
  rintro ⟨old, new, hmem, hswaps⟩
  refine ⟨old, new, hcourse.taken_prefix.subset hmem, fun e he => ?_, hswaps⟩
  have hstored := hcourse.stores_first (List.ne_nil_of_mem hmem)
  rw [hcourse.calls_eq, hstored]
  simp [List.mem_map_of_mem he]

/-- Every order that was accepted belongs to the plan. -/
theorem Pursuing.mem_accepted (h : Pursuing planning xs ending p) {c : StoreCall}
    (hc : c ∈ accepted xs) :
    c.IsQuestion ∨ (∃ e ∈ p.inserts, c = Plan.storeCall e) ∨ (∃ s ∈ p.steps, c = s.call) ∨
      ∃ s ∈ p.steps, c = s.backCall := by
  obtain ⟨asked, ys, stored, taken, back, heq, hquestions, hcourse⟩ := h.exists_course
  rw [heq, hcourse.calls_eq] at hc
  simp only [List.mem_append, List.mem_map] at hc
  rcases hc with hc | (⟨e, he, rfl⟩ | ⟨s, hs, rfl⟩) | ⟨s, hs, rfl⟩
  · exact .inl (hquestions c hc)
  · exact .inr (.inl ⟨e, hcourse.stored_prefix.subset he, rfl⟩)
  · exact .inr (.inr (.inl ⟨s, hcourse.taken_prefix.subset hs, rfl⟩))
  · have htaken : s ∈ taken := List.mem_reverse.1 (hcourse.back_prefix.subset hs)
    exact .inr (.inr (.inr ⟨s, hcourse.taken_prefix.subset htaken, rfl⟩))

/-- The only commits that a submission stores are merge commits of its plan. -/
theorem Pursuing.mem_inserts (h : Pursuing planning xs ending p) {project : ProjectName} {d : Draft}
    (hc : .insertCommit project d ∈ accepted xs) : (project, d) ∈ p.inserts := by
  rcases h.mem_accepted hc with hquestion | ⟨e, he, heq⟩ | ⟨s, _, heq⟩ | ⟨s, _, heq⟩
  · exact hquestion.elim
  · cases heq
    exact he
  · cases s with
    | _ => cases heq
  · cases s with
    | _ => cases heq

/-- The only branches that a submission moves are those that its plan moves. -/
theorem Pursuing.exists_swap (h : Pursuing planning xs ending p) {b : Branch}
    {old tip : Option CommitId} (hc : .compareAndSwap b old tip ∈ accepted xs) :
    ∃ old' new, Step.swap b old' new ∈ p.steps := by
  rcases h.mem_accepted hc with hquestion | ⟨e, he, heq⟩ | ⟨s, hs, heq⟩ | ⟨s, hs, heq⟩
  · exact hquestion.elim
  · cases heq
  · cases s with
    | swap =>
      cases heq
      exact ⟨_, _, hs⟩
    | mark => cases heq
  · cases s with
    | swap =>
      cases heq
      exact ⟨_, _, hs⟩
    | mark => cases heq

/-- The only changes that a submission marks are those that its plan marks. -/
theorem Pursuing.mark_mem_steps (h : Pursuing planning xs ending p) {k : ChangeId} {tip : CommitId}
    {submitter : AccountId} (hc : .markMerged k tip submitter ∈ accepted xs) :
    Step.mark k tip submitter ∈ p.steps := by
  obtain ⟨asked, ys, stored, taken, back, heq, hquestions, hcourse⟩ := h.exists_course
  rw [heq, List.mem_append] at hc
  have hmark := hcourse.mem_taken (hc.resolve_left fun hasked => hquestions _ hasked)
  exact hcourse.taken_prefix.subset hmark

/-- A submission that has just marked a change has not reopened any. -/
theorem Pursuing.not_reopened (h : Pursuing planning xs ending p) {k : ChangeId} {tip : CommitId}
    {submitter : AccountId} (hlast : (accepted xs).getLast? = some (.markMerged k tip submitter))
    (k' : ChangeId) : .reopen k' ∉ accepted xs := by
  obtain ⟨asked, ys, stored, taken, back, heq, hquestions, hcourse⟩ := h.exists_course
  have hcalls : (accepted ys).getLast? = some (.markMerged k tip submitter) := by
    rw [heq, List.getLast?_append, Option.or_eq_some_iff] at hlast
    refine hlast.resolve_right fun hasked => ?_
    exact hquestions _ (List.mem_of_getLast? hasked.2)
  rw [heq, hcourse.calls_eq, hcourse.back_eq_nil hcalls]
  simp only [List.map_nil, List.append_nil, List.mem_append, List.mem_map, not_or, not_exists, not_and]
  refine ⟨fun hasked => hquestions _ hasked, fun e _ => nofun, fun s _ heq => ?_⟩
  cases s with
  | _ => cases heq

/-- A submission that fails, and not because something could not be undone, has reopened every change
that it has marked. -/
theorem Pursuing.reopened (h : Pursuing planning xs ending p) {f : Failure} (hend : ending = .failure f)
    (hforward : f.IsForward) {k : ChangeId} {tip : CommitId} {submitter : AccountId}
    (hc : .markMerged k tip submitter ∈ accepted xs) : .reopen k ∈ accepted xs := by
  obtain ⟨asked, ys, stored, taken, back, heq, hquestions, hcourse⟩ := h.exists_course
  rw [heq, List.mem_append] at hc
  have hmark := hcourse.mem_taken (hc.resolve_left fun hasked => hquestions _ hasked)
  rw [heq, hcourse.calls_eq, hcourse.of_failure f hend hforward]
  refine List.mem_append_right _ (List.mem_append_right _ (List.mem_map.2
    ⟨.mark k tip submitter, List.mem_reverse.2 hmark, rfl⟩))

/-- In a plan the changes come after the branches. -/
theorem marks_last (p : Plan) : p.steps.Pairwise fun s t => s.moves? = none → t.moves? = none := by
  unfold Plan.steps
  refine List.pairwise_append.2 ⟨?swaps, List.pairwise_of_forall_mem_list fun s _ t ht _ => ?marks,
    fun s _ t ht _ => ?across⟩
  case swaps =>
    refine List.pairwise_of_forall_mem_list fun s hs t _ hnone => ?_
    obtain ⟨bp, _, hswap⟩ := List.mem_filterMap.1 hs
    obtain ⟨tip, _, rfl⟩ := Option.map_eq_some_iff.1 hswap
    cases hnone
  -- In both of the other cases the later step marks a change.
  all_goals
    obtain ⟨bp, _, hmark⟩ := List.mem_flatMap.1 ht
    split at hmark
    · obtain ⟨c, _, rfl⟩ := List.mem_map.1 hmark
      rfl
    · cases hmark

/-- A submission reopens changes only after the call to mark another one has failed, and then it does
not succeed. -/
theorem Pursuing.of_reopened (h : Pursuing planning xs ending p) {k : ChangeId}
    (hc : .reopen k ∈ accepted xs) : ending ≠ .success ∧
      ∃ k' tip submitter e, Step.mark k' tip submitter ∈ p.steps ∧
        ⟨.markMerged k' tip submitter, .error e⟩ ∈ xs := by
  obtain ⟨qs, ys, rfl, _, hquestions, stored, taken, back, hcourse⟩ := h
  rw [accepted_append, List.mem_append] at hc
  have hback := hc.resolve_left fun hasked => accepted_questions hquestions _ hasked
  rw [hcourse.calls_eq] at hback
  simp only [List.mem_append, List.mem_map] at hback
  -- Only taking a step back reopens a change.
  obtain ⟨s, hs, hcall⟩ : ∃ s ∈ back, s.backCall = .reopen k := by
    rcases hback with (⟨e, _, heq⟩ | ⟨s, _, heq⟩) | hback
    · cases heq
    · cases s with
      | _ => cases heq
    · exact hback
  have hne : back ≠ [] := List.ne_nil_of_mem hs
  refine ⟨fun hend => hne (hcourse.of_success hend).2.2, ?_⟩
  obtain ⟨next, left, e, hsteps, hfailed⟩ := hcourse.step_failed hne
  have htaken : s ∈ taken := List.mem_reverse.1 (hcourse.back_prefix.subset hs)
  have hlast := (List.pairwise_append.1 (hsteps ▸ marks_last p)).2.2 s htaken next (by simp)
  have hmem : next ∈ p.steps := by simp [hsteps]
  cases s with
  | swap => cases hcall
  | mark =>
    cases next with
    | swap => cases hlast rfl
    | mark k' tip submitter =>
      exact ⟨k', tip, submitter, e, hmem, List.mem_append_right qs hfailed⟩

/-- A submission that succeeds has done all that it has planned. -/
theorem Pursuing.of_success (h : Pursuing planning xs ending p) (hend : ending = .success) :
    (∀ e ∈ p.inserts, Plan.storeCall e ∈ accepted xs) ∧ ∀ s ∈ p.steps, s.call ∈ accepted xs := by
  obtain ⟨asked, ys, stored, taken, back, heq, _, hcourse⟩ := h.exists_course
  obtain ⟨hstored, htaken, rfl⟩ := hcourse.of_success hend
  rw [heq, hcourse.calls_eq, hstored, htaken]
  refine ⟨fun e he => ?_, fun s hs => ?_⟩
  · simp [List.mem_map_of_mem he]
  · simp [List.mem_map_of_mem hs]

theorem Pursuing.underway (h : Pursuing planning xs ending p) : Pursuing planning xs .underway p := by
  obtain ⟨qs, ys, hxs, hplanned, hquestions, stored, taken, back, hcourse⟩ := h
  exact ⟨qs, ys, hxs, hplanned, hquestions, stored, taken, back, hcourse.underway⟩

/-- A planning has only asked, and it does not fail because something could not be undone. -/
theorem hears_withHistory {α : Type} {x : Planning α} (hx : Planning.IsInquiry x)
    {rest : Program (Except Failure α)} (h : (withHistory budget x).Hears xs rest) :
    (∀ q ∈ xs, q.call.IsQuestion) ∧ ∀ f, rest = .done (.error f) → f.IsForward := by
  rcases Hears.bind_cases (p := x (History.start budget)) h with
    ⟨rest, hasks, rfl, hbusy⟩ | ⟨xs, ys, r, rfl, hasks, h⟩
  · exact ⟨((hx.inquires _).of_hears hasks).2.1, fun f hf => absurd hf (bind_ne_done hbusy)⟩
  · obtain ⟨hend, hquestions, _⟩ := (hx.inquires _).of_hears hasks
    obtain ⟨rfl, rfl⟩ := h.of_done
    rw [List.append_nil]
    refine ⟨hquestions, fun f hf => ?_⟩
    rcases hend with hasking | ⟨e, t, hrelay⟩
    · exact hasking f (Program.done.inj hf)
    · cases hrelay
      cases hf
      exact fun step cause => Failure.noConfusion

/-- Publishing makes no calls. -/
theorem silent_publish (events : List Event) (o : Outcome) :
    ((publish events).bind fun _ => .done (.ok o : Except Failure Outcome)).Silent
      fun r => r = .ok o := by
  induction events with
  | nil => rfl
  | cons e events ih => exact ih

/-- Planning and applying, without the signals around. -/
theorem course_of_hears_planAndApply {rest : Program (Except Failure Plan)}
    (h : (planAndApply policy budget change actor).Hears xs rest) :
    Asking xs rest.ending ∨
      ∃ p, Pursuing (withHistory budget (plan policy change actor)) xs rest.ending p ∧
        ∀ applied, rest = .done (.ok applied) → applied = p.markApplied := by
  rcases Hears.bind_cases (p := withHistory budget (plan policy change actor)) h with
    ⟨rest, hplan, rfl, hbusy⟩ | ⟨qs, ys, r, rfl, hplan, h⟩
  · obtain ⟨hquestions, _⟩ := hears_withHistory isInquiry_plan hplan
    rw [ending_bind hbusy]
    refine .inl ⟨hquestions, fun hend => ?_, fun f hend => ?_⟩
    · cases rest with
      | done r => exact absurd rfl (hbusy r)
      | _ => cases hend
    · cases rest with
      | done r => exact absurd rfl (hbusy r)
      | _ => cases hend
  obtain ⟨hquestions, hforward⟩ := hears_withHistory isInquiry_plan hplan
  cases r with
  | error f =>
    obtain ⟨rfl, rfl⟩ := h.of_done
    rw [List.append_nil]
    refine .inl ⟨hquestions, nofun, fun f' hf' => ?_⟩
    cases hf'
    exact hforward f rfl
  | ok p =>
    right
    rcases Hears.bind_cases (p := p.apply) h with
      ⟨rest, happly, rfl, hbusy⟩ | ⟨ys, zs, r, rfl, happly, h⟩
    · obtain ⟨stored, taken, back, hcourse, _⟩ := Plan.course_of_hears_apply happly
      rw [ending_bind hbusy]
      exact ⟨p, ⟨qs, ys, rfl, hplan, hquestions, stored, taken, back, hcourse⟩,
        fun _ h => absurd h (bind_ne_done hbusy)⟩
    · obtain ⟨stored, taken, back, hcourse, happlied⟩ := Plan.course_of_hears_apply happly
      cases r with
      | error f =>
        obtain ⟨rfl, rfl⟩ := h.of_done
        rw [List.append_nil]
        exact ⟨p, ⟨qs, ys, rfl, hplan, hquestions, stored, taken, back, hcourse⟩, nofun⟩
      | ok r =>
        obtain ⟨rfl, rfl⟩ := h.of_done
        rw [List.append_nil]
        refine ⟨p, ⟨qs, ys, rfl, hplan, hquestions, stored, taken, back, hcourse⟩, ?_⟩
        intro applied heq
        cases heq
        exact happlied r rfl

/-- What a submission may have heard, and how it stands then. -/
theorem course_of_hears {rest : Program (Except Failure Outcome)}
    (h : (submit policy budget change actor).Hears xs rest) :
    Asking xs rest.ending ∨
      ∃ p, Pursuing (withHistory budget (plan policy change actor)) xs rest.ending p ∧
        ∀ o, rest = .done (.ok o) → o = ⟨p.tips, p.batch.changes.map (·.id)⟩ := by
  cases h with
  | nil => exact .inl ⟨by simp, nofun, nofun⟩
  | signal h =>
    rcases Hears.bind_cases (p := planAndApply policy budget change actor) h with
      ⟨rest, hplan, rfl, hbusy⟩ | ⟨xs, ys, r, rfl, hplan, h⟩
    · rw [ending_bind hbusy]
      refine (course_of_hears_planAndApply hplan).imp_right ?_
      rintro ⟨p, hpursuing, _⟩
      exact ⟨p, hpursuing, fun _ h => absurd h (bind_ne_done hbusy)⟩
    · -- Only signals are left.
      cases r with
      | error f =>
        have hsilent : (Program.signal (.rejected f)
            (.done (.error f) : Program (Except Failure Outcome))).Silent
              fun r => r = .error f := rfl
        obtain ⟨rfl, hend⟩ := hsilent.of_hears h
        rw [List.append_nil]
        have hsame : rest.ending = .underway ∨ rest = .done (.error f) :=
          hend.imp IsBusy.ending fun ⟨a, ha, hf⟩ => hf ▸ ha
        rcases course_of_hears_planAndApply hplan with hasking | ⟨p, hpursuing, _⟩
        · left
          rcases hsame with hbusy | rfl
          · rw [hbusy]
            exact ⟨hasking.questions, nofun, nofun⟩
          · exact hasking
        · right
          rcases hsame with hbusy | rfl
          · rw [hbusy]
            refine ⟨p, hpursuing.underway, fun o ho => ?_⟩
            rw [ho] at hbusy
            cases hbusy
          · exact ⟨p, hpursuing, nofun⟩
      | ok applied =>
        have hsilent : (Program.signal (.applied applied.tips.size applied.batch.size
            applied.fastForwardCount applied.mergeCount) ((publish applied.events).bind fun _ =>
              .done (.ok ⟨applied.tips, applied.batch.changes.map (·.id)⟩))).Silent
            fun r : Except Failure Outcome =>
              r = .ok ⟨applied.tips, applied.batch.changes.map (·.id)⟩ :=
          silent_publish applied.events _
        obtain ⟨rfl, hend⟩ := hsilent.of_hears h
        rw [List.append_nil]
        rcases course_of_hears_planAndApply hplan with hasking | ⟨p, hpursuing, happlied⟩
        · exact absurd rfl hasking.no_success
        obtain rfl := happlied applied rfl
        right
        rcases hend with hbusy | ⟨_, rfl, rfl⟩
        · rw [hbusy.ending]
          refine ⟨p, hpursuing.underway, fun o ho => ?_⟩
          rw [ho] at hbusy
          exact hbusy.elim
        · refine ⟨p, hpursuing, fun o ho => ?_⟩
          cases ho
          rw [Plan.tips_markApplied]
          rfl

end Submission
end Landing
