import Landing.Proofs.Submission.Submit

/-!
# Previews tell what a submission does

On stores without trouble, a preview and the submission that follows it agree:
the submission ends with the tips that were shown, and it leaves exactly these
behind, or it fails as the preview did and changes nothing
(`Submission.submit_agrees_with_preview`).

Both plan in the same world, so they come to the same plan.  The point is that
applying this plan cannot fail: every branch is still where planning saw it, and
every new tip is stored when the branch moves, be it an old commit or a merge
commit of the plan.
-/

namespace Landing

/-- The tips of a plan are the new tips of the branches that move. -/
theorem Plan.Of.get?_tips {w : World} {p : Plan} (hplan : p.Of w) {b : Branch} {tip : CommitId} :
    p.tips.get? b = some tip ↔ ∃ bp ∈ p.moving, bp.branch = b ∧ bp.newTip = some tip := by
  have hnodup : (p.moving.map (·.branch)).Nodup :=
    hplan.nodup_branches.sublist (List.filter_sublist.map _)
  have hkeys : ((p.moving.filterMap fun bp =>
      bp.newTip.map fun tip => (bp.branch, tip)).map (·.1)).Nodup := by
    refine List.pairwise_map.2 ((List.pairwise_filterMap).2 ?_)
    refine (List.pairwise_map.1 hnodup).imp fun {a a'} hne e he e' he' heq => ?_
    obtain ⟨_, _, rfl⟩ := Option.map_eq_some_iff.1 he
    obtain ⟨_, _, rfl⟩ := Option.map_eq_some_iff.1 he'
    exact hne heq
  rw [Plan.tips, Table.get?_ofList hkeys]
  constructor
  · intro hmem
    obtain ⟨bp, hbp, hmap⟩ := List.mem_filterMap.1 hmem
    obtain ⟨t, ht, heq⟩ := Option.map_eq_some_iff.1 hmap
    cases heq
    exact ⟨bp, hbp, rfl, ht⟩
  · rintro ⟨bp, hbp, rfl, ht⟩
    exact List.mem_filterMap.2 ⟨bp, hbp, by rw [ht]; rfl⟩

/-- After a plan was applied, its tips are where they should be and stored, and no other branch has
moved. -/
theorem Plan.Of.tip?_landed {w : World} {p : Plan} (hplan : p.Of w) (hland : w.CanLand p)
    (b : Branch) :
    (∀ tip, p.tips.get? b = some tip →
      (p.landed w).tip? b = some tip ∧ ((p.landed w).commit? b.project tip).isSome) ∧
    (p.tips.get? b = none → (p.landed w).tip? b = w.tip? b) := by
  constructor
  · intro tip htip
    obtain ⟨bp, hbp, rfl, hnew⟩ := hplan.get?_tips.1 htip
    refine ⟨World.tip?_landed hplan.apart hland hbp hnew, ?_⟩
    rw [World.commit?_landed]
    exact hplan.isSome_newTip hbp hnew
  · intro hnone
    refine World.tip?_landed_of_not_moving hplan.apart hland fun bp hbp heq => ?_
    -- A branch that moves has a new tip.
    obtain ⟨tip, htip, _⟩ := BranchPlan.movesRef_iff.1 (Plan.mem_moving.1 hbp).2
    have hsome := hplan.get?_tips.2 ⟨bp, hbp, heq, htip⟩
    rw [hnone] at hsome
    cases hsome

namespace Submission

/-- A preview and the submission after it agree.  If the preview shows tips, then the submission
succeeds with these tips, they are stored and their branches are there, and all other branches are
where they were.  If the preview fails, then the submission fails in the same way, and if the one
uses its budget up, then so does the other; in both cases nothing has changed.  A plan that is made
after the preview can be applied. -/
theorem submit_agrees_with_preview {s later after : Service} {w : World}
    (hcalm : s.backend = .calm w) (hrefs : w.RefsQualified) (hkeyed : w.Keyed) {policy : Policy}
    {budget : Nat} {change : ChangeId} {actor : Account}
    {shown : Option (Except Failure (Table Branch CommitId))}
    (hpreview : s.run (preview policy budget change actor) = (shown, later))
    {ended : Option (Except Failure Outcome)}
    (hsubmit : later.run (submit policy budget change actor) = (ended, after)) :
    later.world = w ∧
    (∀ tips, shown = some (.ok tips) →
      (∃ outcome, ended = some (.ok outcome) ∧ outcome.tips = tips) ∧
      (∀ b tip, tips.get? b = some tip →
        after.world.tip? b = some tip ∧ (after.world.commit? b.project tip).isSome) ∧
      ∀ b, tips.get? b = none → after.world.tip? b = w.tip? b) ∧
    (∀ failure, shown = some (.error failure) →
      ended = some (.error failure) ∧ after.world = w) ∧
    (shown = none → ended = none ∧ after.world = w) ∧
    ∀ p, (later.run (withHistory budget (plan policy change actor))).1 = some (.ok p) →
      ∃ log, (later.run p.apply).1 = some (.ok (log, p.markApplied)) := by
  obtain ⟨hshown, hlater⟩ := Service.run_calm hcalm (preview policy budget change actor)
  rw [hpreview, World.run_preview] at hshown hlater
  obtain ⟨hended, hafter⟩ := Service.run_calm hlater (submit policy budget change actor)
  rw [hsubmit] at hended hafter
  have hworld : after.world = (w.run (submit policy budget change actor)).2 :=
    congrArg Backend.world hafter
  have hcan : ∀ p, w.planned policy budget change actor = some (.ok p) →
      p.Of w ∧ w.CanLand p := by
    intro p hp
    have hplan := World.of_planned hkeyed hp
    exact ⟨hplan, hplan.possible hrefs⟩
  -- Without a plan, the submission ends as planning did.
  have hwithout : ∀ r, w.planned policy budget change actor = r → (∀ p, r ≠ some (.ok p)) →
      ended = r.map (Except.map fun _ => ⟨.empty, []⟩) ∧ after.world = w := by
    rintro r rfl hno
    have hrun := World.run_submit_of_no_plan hno
    rw [hrun] at hended hworld
    exact ⟨hended, hworld⟩
  refine ⟨congrArg Backend.world hlater, fun tips htips => ?_, fun failure hfailure => ?_,
    fun hnone => ?_, fun p hp => ?_⟩
  · obtain ⟨r, hr, hmap⟩ := Option.map_eq_some_iff.1 (hshown.symm.trans htips)
    cases r with
    | error failure => cases hmap
    | ok p =>
      cases hmap
      obtain ⟨hplan, hland⟩ := hcan p hr
      rw [World.run_submit_of_plan hr hplan hland] at hended hworld
      rw [hworld]
      refine ⟨⟨_, hended, rfl⟩, fun b tip htip => ?_, fun b hb => ?_⟩
      · exact (hplan.tip?_landed hland b).1 tip htip
      · exact (hplan.tip?_landed hland b).2 hb
  · obtain ⟨r, hr, hmap⟩ := Option.map_eq_some_iff.1 (hshown.symm.trans hfailure)
    cases r with
    | ok p => cases hmap
    | error failure' =>
      cases hmap
      exact hwithout _ hr fun p hp => by cases hp
  · have hr := Option.map_eq_none_iff.1 (hshown.symm.trans hnone)
    exact hwithout _ hr fun p hp => by cases hp
  · rw [(Service.run_calm hlater _).1] at hp
    obtain ⟨hplan, hland⟩ := hcan p hp
    refine ⟨p.steps.map Step.taken, ?_⟩
    rw [(Service.run_calm hlater p.apply).1, World.run_apply_of_canLand hplan hland]

/-- The tips that the siblings' topic produces: a merge commit in the one project, and the new
commit in the other. -/
def sampleTips : Table Branch CommitId :=
  Table.ofList [
    (Sample.branch "p", Sample.mergeId),
    (Sample.branch "q", Sample.z)]

/-- In the world with the siblings the preview shows these tips, and the submission leads to
them. -/
theorem submit_agrees_with_sample_preview :
    let s := Sample.siblings
    let shown := s.service.run (preview s.policy s.world.reach s.change s.actor)
    s.world.RefsQualified ∧ s.world.Keyed ∧ shown.1 = some (.ok sampleTips) ∧
      ∃ outcome,
        (shown.2.run (submit s.policy s.world.reach s.change s.actor)).1 = some (.ok outcome) ∧
          outcome.tips = sampleTips := by
  intro s shown
  have hpreview : s.service.run (preview s.policy s.world.reach s.change s.actor) = shown := rfl
  -- From here on the runs are not to be computed.
  clear_value shown
  obtain ⟨tips, later⟩ := shown
  cases hsubmit : later.run (submit s.policy s.world.reach s.change s.actor) with
  | mk ended after =>
    have hagree := submit_agrees_with_preview (s := s.service) (w := s.world) rfl s.refsQualified
      s.keyed hpreview hsubmit
    have htips : s.plan.tips = sampleTips := by decide +kernel
    have hshown : tips = some (.ok sampleTips) := by
      rw [← htips, ← s.run_preview, hpreview]
    exact ⟨s.refsQualified, s.keyed, hshown, (hagree.2.1 sampleTips hshown).1⟩

end Submission
end Landing
