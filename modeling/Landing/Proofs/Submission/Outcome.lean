import Landing.Proofs.Submission.Report

/-!
# What an outcome lists

The tips of an outcome are those of the branches that have moved.  Its changes are
those of the batch, and this is where it may say too much: a change of the batch
whose branch has no tip to be at in the end is not recorded as merged.  That is so
exactly for the changes of a segment without ground (`Segment.Groundless`): the
branch is not there, and no head of the segment has a patch set.

`Submission.outcome_exact_iff` says that an outcome lists the changes that were
merged if and only if there is no such segment, and
`Submission.unfounded_change_listed` shows one.
-/

namespace Landing

open World

/-- The change that the event tells to have gone in. -/
def Event.mergedChange? : Event → Option ChangeId
  | .refUpdated .. => none
  | .changeMerged change .. => some change

/-- There is nothing for the branch to be at: the branch is not there, and no head has a patch set. -/
def Segment.Groundless (w : World) (s : Segment) : Prop :=
  (∀ tips, w.branches s.branch.project = .ok tips → tips.find? (·.1 == s.branch) = none) ∧
    ∀ t ∈ s.headChanges, t.currentCommit? = none

/-- A plan has no tip for a branch exactly where there is no ground. -/
theorem BranchPlan.PlanOf.newTip_eq_none_iff {w : World} {s : Segment} {drafts : List Draft}
    {bp : BranchPlan} (hplan : bp.PlanOf w s drafts) : bp.newTip = none ↔ s.Groundless w := by
  obtain ⟨tips, htips, hold⟩ := hplan.oldTip_eq
  have hdrafts : drafts ⊆ drafts ++ bp.drafts := List.subset_append_left _ _
  have hmerges : bp.drafts ⊆ drafts ++ bp.drafts := List.subset_append_right _ _
  constructor
  · intro hnone
    constructor
    · intro tips' htips'
      rw [htips] at htips'
      cases htips'
      cases hfind : tips.find? (·.1 == s.branch) with
      | none => rfl
      | some r =>
        rw [hfind] at hold
        obtain ⟨tip, htip, _⟩ := hplan.leads_old _ hdrafts hmerges r.2 hold
        rw [hnone] at htip
        cases htip
    · intro t ht
      rw [Option.eq_none_iff_forall_ne_some]
      intro top htop
      obtain ⟨tip, htip, _⟩ := hplan.leads_head _ hdrafts hmerges t ht top htop
      rw [hnone] at htip
      cases htip
  · rintro ⟨hmissing, hheads⟩
    rw [hmissing tips htips] at hold
    rw [Option.eq_none_iff_forall_ne_some]
    intro tip htip
    rcases hplan.tip_origin tip htip with holdTip | hhead | ⟨d, hd, _⟩
    · rw [hold] at holdTip
      cases holdTip
    · obtain ⟨t, ht, htop⟩ := List.mem_filterMap.1 hhead
      rw [hheads t ht] at htop
      cases htop
    · obtain ⟨t, ht, top, htop⟩ := hplan.headed (.inr (List.ne_nil_of_mem hd))
      rw [hheads t ht] at htop
      cases htop

namespace Plan

variable {w : World} {p : Plan}

/-- The events of a plan tell the changes whose records turn, in the order of the batch. -/
theorem Of.mergedChanges_events (hplan : p.Of w) :
    p.events.filterMap Event.mergedChange? =
      (p.batch.changes.map (·.id)).filter (w.turned (p.landed w)) := by
  rw [events, BranchPlan.events, List.filterMap_append, List.filterMap_flatMap,
    hplan.map_id_changes, List.filter_flatMap, List.flatMap_def, List.flatMap_def]
  have hrefs : ((p.branches.filter (·.movesRef)).filterMap fun bp => bp.newTip.map fun new =>
      Event.refUpdated bp.branch bp.oldTip new).filterMap Event.mergedChange? = [] := by
    refine List.filterMap_eq_nil_iff.2 fun e he => ?_
    obtain ⟨bp, _, hnew⟩ := List.mem_filterMap.1 he
    obtain ⟨_, _, rfl⟩ := Option.map_eq_some_iff.1 hnew
    rfl
  rw [hrefs, List.nil_append]
  refine congrArg List.flatten (List.map_congr_left fun bp hbp => ?_)
  have hturned := fun k hk => hplan.turned_iff_of_mem hbp (k := k) hk
  cases htip : bp.newTip with
  | none =>
    rw [List.filter_eq_nil_iff.2 fun k hk => ?_]
    · rfl
    · rw [hturned k hk, htip]
      exact fun hne => hne rfl
  | some tip =>
    rw [List.filter_eq_self.2 fun k hk => (hturned k hk).2 (by rw [htip]; exact nofun)]
    dsimp only
    rw [List.filterMap_map]
    exact List.filterMap_some

/-- All changes of the batch turn exactly if every segment has ground. -/
theorem Of.all_turned_iff (hplan : p.Of w) (hchanges : ∀ s ∈ p.batch.segments, s.changes ≠ []) :
    (∀ k ∈ p.batch.changes.map (·.id), w.turned (p.landed w) k = true) ↔
      ∀ s ∈ p.batch.segments, ¬ s.Groundless w := by
  rw [hplan.map_id_changes]
  constructor
  · intro hall s hs hgroundless
    obtain ⟨bp, hbp, hof⟩ := exists_right_of_forall₂ hplan.branches hs
    obtain ⟨c, hc⟩ := List.exists_mem_of_ne_nil _ (hchanges s hs)
    have hk : c.id ∈ bp.changes := by
      rw [hof.changes_eq]
      exact List.mem_map_of_mem hc
    have hturned := hall c.id (List.mem_flatMap.2 ⟨bp, hbp, hk⟩)
    exact (hplan.turned_iff_of_mem hbp hk).1 hturned (hof.newTip_eq_none_iff.2 hgroundless)
  · intro hground k hk
    obtain ⟨bp, hbp, hk⟩ := List.mem_flatMap.1 hk
    obtain ⟨s, hs, hof⟩ := hplan.exists_segment hbp
    refine (hplan.turned_iff_of_mem hbp hk).2 fun hnone => ?_
    exact hground s hs (hof.newTip_eq_none_iff.1 hnone)

end Plan

namespace Submission

variable {s after : Service} {policy : Policy} {budget : Nat} {change : ChangeId}
variable {actor : Account} {outcome : Outcome}

/-- What the outcome of a submission tells, where nobody else moves a branch.  Its tips are exactly
those of the branches that are not where they were.  It lists no change twice, it lists every change
whose record has turned into that of a merged change, and these in the order in which they were
published.  It lists nothing else exactly if every segment of the batch has ground. -/
theorem outcome_exact_iff (hquiet : s.backend.interference = none) (hkeyed : s.world.Keyed)
    (hrun : s.run (submit policy budget change actor) = (some (.ok outcome), after)) :
    ∃ p, s.world.planned policy budget change actor = some (.ok p) ∧
      outcome.tips.entries = s.world.movedRefs after.world ∧
      (∀ b, after.world.tip? b = none → s.world.tip? b = none) ∧
      outcome.merged.Nodup ∧
      (∀ k, s.world.turned after.world k = true → k ∈ outcome.merged) ∧
      (∃ events, after.recorded = s.recorded ++ events ∧
        events.filterMap Event.mergedChange? =
          outcome.merged.filter (s.world.turned after.world)) ∧
      ((∀ k ∈ outcome.merged, s.world.turned after.world k = true) ↔
        ∀ seg ∈ p.batch.segments, ¬ seg.Groundless s.world) := by
  obtain ⟨p, hplanned, hplan, hland, hlanded, rfl, hrecorded⟩ :=
    exists_plan_of_success hquiet hkeyed hrun
  obtain ⟨h', hyields⟩ := World.yields_of_planned hkeyed hplanned
  obtain ⟨_, hchanges, hnodup, _⟩ := yields_plan_order hyields
  rw [hlanded]
  refine ⟨p, hplanned, hplan.entries_tips hland, fun b => hplan.tip?_of_landed_none hland, hnodup,
    fun k hturned => ?_, ⟨p.events, hrecorded, hplan.mergedChanges_events⟩,
    hplan.all_turned_iff hchanges⟩
  obtain ⟨bp, hbp, hk, _⟩ := hplan.turned_iff.1 hturned
  show k ∈ p.batch.changes.map (·.id)
  rw [hplan.map_id_changes]
  exact List.mem_flatMap.2 ⟨bp, hbp, hk⟩

/-- Where every branch was there before, all changes that are listed were merged. -/
theorem sample_outcome_exact :
    let s := Sample.siblings
    ∃ outcome after, s.service.run (submit s.policy s.world.reach s.change s.actor) =
        (some (.ok outcome), after) ∧
      outcome.merged = [1, 2, 3] ∧
      ∀ k ∈ outcome.merged, s.world.turned after.world k = true := by
  intro s
  obtain ⟨outcome, after, hrun, _⟩ := s.exists_run_submit
  have hkeyed : s.service.world.Keyed := s.keyed
  obtain ⟨p, hplanned, _, _, _, _, _, hexact⟩ := outcome_exact_iff rfl hkeyed hrun
  obtain ⟨p', hplanned', _, _, _, houtcome, _⟩ := exists_plan_of_success rfl hkeyed hrun
  have hp : p = s.plan := Except.ok.inj (Option.some.inj (hplanned.symm.trans s.planned))
  have hp' : p' = s.plan := Except.ok.inj (Option.some.inj (hplanned'.symm.trans s.planned))
  refine ⟨outcome, after, hrun, ?_, hexact.2 ?_⟩
  · rw [houtcome, hp']
    rfl
  · rw [hp]
    rintro seg hseg ⟨_, hheads⟩
    have hgrounded : ∀ seg ∈ s.plan.batch.segments,
        ∃ t ∈ seg.headChanges, t.currentCommit? ≠ none := by decide
    obtain ⟨t, ht, htop⟩ := hgrounded seg hseg
    exact htop (hheads t ht)

end Submission

namespace Sample

/-- A change without a patch set, for a branch that is not there. -/
def unfoundedChange : Change :=
  { Change.create 1 ⟨"p", "refs/heads/feature"⟩ actor.id root with patchSets := [] }

/-- The change is up for review, and nothing else is. -/
def unfounded : Scenario where
  world :=
    { World.empty with
      projects := Table.ofList [("p", project [])]
      changes := Table.ofList [(1, unfoundedChange)]
      nextId := 2 }
  policy
  change := 1
  actor
  plan := {
    requested := 1
    actor
    batch := ⟨[{ branch := unfoundedChange.dest, changes := [unfoundedChange], heads := [1] }]⟩
    branches := [
      { branch := unfoundedChange.dest
        strategy := .mergeIfNecessary
        oldTip := none
        newTip := none
        changes := [1]
        merges := []
        fastForwards := 0
        state := .resolved .alreadyMerged }]
    newCommits := .empty }
  refsQualified := by decide
  keyed := by decide
  unsubmitted := by decide
  acyclic := World.acyclic_of_rank rank (by decide)
  contentAddressed := World.contentAddressed_of_named named (by decide)
  planned := by decide

end Sample

namespace Submission

/-- A change without a patch set, for a branch that is not there, is listed as merged, although its
record stays open, nothing is published, and no branch moves. -/
theorem unfounded_change_listed :
    let s := Sample.unfounded
    ∃ outcome after, s.service.run (submit s.policy s.world.reach s.change s.actor) =
        (some (.ok outcome), after) ∧
      outcome.merged = [1] ∧ outcome.tips = .empty ∧ after.recorded = [] ∧
      after.world.changes.get? 1 = some Sample.unfoundedChange ∧
      s.world.turned after.world 1 = false := by
  intro s
  obtain ⟨outcome, after, hrun, _⟩ := s.exists_run_submit
  have hkeyed : s.service.world.Keyed := s.keyed
  obtain ⟨p, hplanned, _, _, hlanded, houtcome, hrecorded⟩ :=
    exists_plan_of_success rfl hkeyed hrun
  have hp : p = s.plan := Except.ok.inj (Option.some.inj (hplanned.symm.trans s.planned))
  subst hp
  have hrecord : after.world.changes.get? 1 = some Sample.unfoundedChange := by
    rw [hlanded]
    decide
  refine ⟨outcome, after, hrun, ?_, ?_, ?_, hrecord, ?_⟩
  · rw [houtcome]
    rfl
  · rw [houtcome]
    decide
  · rw [hrecorded]
    decide
  · refine World.turned_eq_false_of_eq ?_
    rw [hrecord]
    decide

end Submission
end Landing
