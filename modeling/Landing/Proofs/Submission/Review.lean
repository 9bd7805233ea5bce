import Landing.Proofs.Submission.Integration

/-!
# What enters a branch

A commit that a branch gains is *covered* (`Plan.Covers`) when it is a merge commit
of the plan, the current commit of a change of the batch for the same project, or
behind a change of the project that was merged before.

The check of dependencies leaves one way in for other commits: it compares with
the current commits of the whole batch, whichever project they go into.  So it
takes a parent that two projects share for reviewed in the one project when it
is up for review in the other.  `Submission.gained_covered_iff` says that this is
the only way, and `Submission.unreviewed_commit_enters` that it is open.
-/

namespace Landing

open World

namespace Plan

variable {w : World} {p : Plan} {project : ProjectName} {x y : CommitId} {bp : BranchPlan}

/-- There is a reason why the plan may bring the commit into the project. -/
def Covers (p : Plan) (w : World) (project : ProjectName) (x : CommitId) : Prop :=
  (∃ bp ∈ p.branches, bp.branch.project = project ∧ x ∈ bp.merges) ∨
  (∃ c ∈ p.batch.changes, c.dest.project = project ∧ c.currentCommit? = some x) ∨
  ∃ id c commit, w.changes.get? id = some c ∧ c.dest.project = project ∧ c.status = .merged ∧
    c.currentCommit? = some commit ∧ w.Leads [] project commit x

/-- Wherever a change of the batch is built on a commit that is up for review in another project of
the batch, this commit is accepted in the project of the change, or covered there. -/
def ForeignCovered (p : Plan) (w : World) : Prop :=
  ∀ c ∈ p.batch.changes, ∀ own, c.currentCommit? = some own →
    ∀ x, w.Parent [] c.dest.project own x →
      ∀ c' ∈ p.batch.changes, c'.dest.project ≠ c.dest.project → c'.currentCommit? = some x →
        w.Accepted c.dest.project x ∨ p.Covers w c.dest.project x

/-- A merged change covers its current commit. -/
theorem covers_of_mergedAt (h : w.MergedAt project x) : p.Covers w project x := by
  obtain ⟨id, c, hget, hproject, hmerged, hcurrent⟩ := h
  exact .inr (.inr ⟨id, c, x, hget, hproject, hmerged, hcurrent, .refl⟩)

/-- Where the tips and the merge commits of a branch come from is accepted or covered. -/
theorem Of.covers_of_origin (hplan : p.Of w) (hbp : bp ∈ p.branches) {s : Segment}
    (hs : s ∈ p.batch.segments) (hbranch : s.branch = bp.branch)
    (horigin : BranchPlan.Origin (s.headChanges.filterMap (·.currentCommit?)) bp x) :
    w.Accepted bp.branch.project x ∨ p.Covers w bp.branch.project x := by
  rcases horigin with hold | hhead | ⟨d, hd, rfl⟩
  · exact .inl (hplan.accepted_oldTip hbp hold)
  · obtain ⟨c, hc, hcommit⟩ := List.mem_filterMap.1 hhead
    obtain ⟨members, horder⟩ := hplan.ordered
    have hmem : c ∈ s.changes := (List.mem_filter.1 hc).1
    have hdest : c.dest = s.branch := (horder.mem_of_segment hs hmem).2
    have hchange : c ∈ p.batch.changes := List.mem_flatMap.2 ⟨s, hs, hmem⟩
    exact .inr (.inr (.inl ⟨c, hchange, by rw [hdest, hbranch], hcommit⟩))
  · obtain ⟨s', _, hof⟩ := hplan.exists_segment hbp
    refine .inr (.inl ⟨bp, hbp, rfl, ?_⟩)
    rw [hof.merges_eq]
    exact List.mem_map_of_mem hd

/-- A parent of a merge commit of the plan is accepted or covered. -/
theorem Of.covers_of_merge_parent (hplan : p.Of w) (hbp : bp ∈ p.branches) {d : Draft}
    (hd : d ∈ bp.drafts) (hx : x ∈ d.parents) :
    w.Accepted bp.branch.project x ∨ p.Covers w bp.branch.project x := by
  obtain ⟨s, hs, hof⟩ := hplan.exists_segment hbp
  exact hplan.covers_of_origin hbp hs hof.branch_eq.symm (hof.parent_origin hd hx)

/-- A parent of a current commit of the batch is accepted or covered, unless it is only up for
review in another project. -/
theorem Of.covers_of_change_parent (hplan : p.Of w) (hforeign : p.ForeignCovered w) {c : Change}
    (hc : c ∈ p.batch.changes) (hown : c.currentCommit? = some y)
    (hx : w.Parent [] c.dest.project y x) :
    w.Accepted c.dest.project x ∨ p.Covers w c.dest.project x := by
  rcases hplan.checked c hc y hown x hx with haccepted | hbatch | hmerged
  · exact .inl haccepted
  · obtain ⟨c', hc', hx'⟩ := List.mem_filterMap.1 hbatch
    by_cases hsame : c'.dest.project = c.dest.project
    · exact .inr (.inr (.inl ⟨c', hc', hsame, hx'⟩))
    · exact hforeign c hc y hown x hx c' hc' hsame hx'
  · exact .inr (covers_of_mergedAt hmerged)

/-- With the plan applied, whatever an accepted or covered commit is built on is accepted or
covered. -/
theorem Of.covers_of_parent (hplan : p.Of w) (haddressed : w.ContentAddressed)
    (hfree : p.CollisionFree w) (hforeign : p.ForeignCovered w)
    (hy : w.Accepted project y ∨ p.Covers w project y)
    (hparent : (p.landed w).Parent [] project y x) :
    w.Accepted project x ∨ p.Covers w project x := by
  obtain ⟨k, hk, hx⟩ := hparent
  rw [known_nil, commit?_landed] at hk
  rcases known_of_commit?_withCommits hplan.hasProject_inserts hk with hstored | ⟨d, hd, _, rfl⟩
  · have hold : w.Parent [] project y x := ⟨k, known_nil.2 hstored, hx⟩
    rcases hy with haccepted | ⟨bp, hbp, rfl, hmerge⟩ | ⟨c, hc, rfl, hown⟩ |
      ⟨id, c, commit, hget, hproject, hmerged, hcurrent, hleads⟩
    · exact .inl (haccepted.leads hold.leads)
    · -- The stored commit is the merge commit, since it has its name.
      obtain ⟨s, _, hof⟩ := hplan.exists_segment hbp
      rw [hof.merges_eq] at hmerge
      obtain ⟨d, hd, rfl⟩ := List.mem_map.1 hmerge
      have hsame : k.toDraft = d :=
        hplan.toDraft_of_known haddressed hfree (.inl hstored) (.inr ⟨bp, hbp, hd⟩)
      refine hplan.covers_of_merge_parent hbp hd ?_
      rw [← hsame]
      exact hx
    · exact hplan.covers_of_change_parent hforeign hc hown hold
    · exact .inr (.inr (.inr ⟨id, c, commit, hget, hproject, hmerged, hcurrent,
        hleads.trans hold.leads⟩))
  · obtain ⟨bp, hbp, rfl, hmem⟩ := hplan.drafted project d (mem_inserts.1 hd)
    exact hplan.covers_of_merge_parent hbp hmem hx

end Plan

namespace World

variable {w : World} {p : Plan}

/-- What the branches gain when the plan is applied is covered, provided that commits up for review
in other projects are. -/
theorem covers_of_gained (hplan : p.Of w) (haddressed : w.ContentAddressed)
    (hfree : p.CollisionFree w) (hland : w.CanLand p) (hforeign : p.ForeignCovered w) {b : Branch}
    {tip x : CommitId} (htip : (p.landed w).tip? b = some tip) (hmoved : w.tip? b ≠ some tip)
    (hleads : (p.landed w).Leads [] b.project tip x) :
    w.Accepted b.project x ∨ p.Covers w b.project x := by
  refine hleads.closed (S := fun y => w.Accepted b.project y ∨ p.Covers w b.project y)
    (fun y z hy hparent => hplan.covers_of_parent haddressed hfree hforeign hy hparent) ?_
  -- It remains to see that the new tip is accepted or covered.
  rcases tip?_landed_cases hplan.apart hland htip with hold | ⟨bp, hbp, rfl, hnew⟩
  · exact absurd hold hmoved
  · have hbranch : bp ∈ p.branches := (Plan.mem_moving.1 hbp).1
    obtain ⟨s, hs, hof⟩ := hplan.exists_segment hbranch
    exact hplan.covers_of_origin hbranch hs hof.branch_eq.symm (hof.tip_origin _ hnew)

/-- When everything that the branches gain is covered, then so is what the changes of the batch are
built on. -/
theorem foreignCovered_of_gained (hplan : p.Of w) (hacyclic : w.Acyclic)
    (haddressed : w.ContentAddressed) (hfree : p.CollisionFree w) (hland : w.CanLand p)
    (hgained : ∀ b tip, (p.landed w).tip? b = some tip → w.tip? b ≠ some tip →
      ∀ x, (p.landed w).Leads [] b.project tip x → ((p.landed w).commit? b.project x).isSome →
        ¬ w.Accepted b.project x → p.Covers w b.project x) : p.ForeignCovered w := by
  intro c hc own hown x hparent c' hc' hother hx
  obtain ⟨bp, hbp, hbranch, _⟩ := hplan.exists_branchPlan hc
  obtain ⟨tip, htip, hleads⟩ := hplan.leads_current hacyclic haddressed hfree hc hbp hbranch hown
  obtain ⟨hwhole, _⟩ := hplan.whole c hc own hown
  rw [← hbranch] at hparent hother hwhole hleads ⊢
  by_cases hold : bp.oldTip = some tip
  · -- The branch stays, so all that its changes are built on was there before.
    have haccepted : w.Accepted bp.branch.project own :=
      (hplan.settled haddressed hfree _).accepted (hplan.accepted_oldTip hbp hold) hleads
    exact .inl (haccepted.leads hparent.leads)
  · -- The branch moves, so it gains the parent unless it has it already.
    have hmoving : bp ∈ p.moving :=
      Plan.mem_moving.2 ⟨hbp, BranchPlan.movesRef_iff.2 ⟨tip, htip, hold⟩⟩
    have hbefore : w.tip? bp.branch ≠ some tip := by
      rw [tip?_of_canLand hland hmoving]
      exact hold
    have hall : w.Leads (p.draftsFor bp.branch.project) bp.branch.project tip x :=
      hleads.trans (hparent.leads.mono (List.nil_subset _))
    obtain ⟨k, hk⟩ := Option.isSome_iff_exists.1 (hwhole x hparent.leads)
    by_cases haccepted : w.Accepted bp.branch.project x
    · exact .inl haccepted
    · refine .inr (hgained bp.branch tip (tip?_landed hplan.apart hland hmoving htip) hbefore x
        (hplan.leads_landed haddressed hfree hall) ?_ haccepted)
      rw [commit?_landed, commit?_withCommits_of_some hplan.hasProject_inserts hk]
      rfl

end World

namespace Submission

/-- After a submission that succeeds, every stored commit that a branch has gained and no branch of
the project had before is covered by the plan, if and only if no change of the batch is built on a
commit that is up for review in another project only. -/
theorem gained_covered_iff {s after : Service} {w : World} (hcalm : s.backend = .calm w)
    (hkeyed : w.Keyed) (hacyclic : w.Acyclic) (haddressed : w.ContentAddressed)
    {policy : Policy} {budget : Nat} {change : ChangeId} {actor : Account} {p : Plan}
    (hplanned : (s.run (withHistory budget (plan policy change actor))).1 = some (.ok p))
    (hfree : p.CollisionFree w) {outcome : Outcome}
    (hsubmit : s.run (submit policy budget change actor) = (some (.ok outcome), after)) :
    (∀ b tip, after.world.tip? b = some tip → w.tip? b ≠ some tip →
      ∀ x, after.world.Leads [] b.project tip x → (after.world.commit? b.project x).isSome →
        ¬ w.Accepted b.project x → p.Covers w b.project x) ↔
    p.ForeignCovered w := by
  obtain ⟨hplan, hland, hworld⟩ := landed_of_run_submit hcalm hkeyed hplanned hsubmit
  rw [hworld]
  constructor
  · exact foreignCovered_of_gained hplan hacyclic haddressed hfree hland
  · intro hforeign b tip htip hmoved x hleads _ hnew
    exact (covers_of_gained hplan haddressed hfree hland hforeign htip hmoved hleads).resolve_left
      hnew

/-- With the siblings comes only what is covered, since they are built on the first commit. -/
theorem sample_gained_covered :
    let s := Sample.siblings
    s.world.Keyed ∧ s.world.Acyclic ∧ s.world.ContentAddressed ∧ s.plan.CollisionFree s.world ∧
      (s.service.run (withHistory s.world.reach (plan s.policy s.change s.actor))).1 =
        some (.ok s.plan) ∧
      ∃ outcome after, s.service.run (submit s.policy s.world.reach s.change s.actor) =
        (some (.ok outcome), after) ∧
      ∀ b tip, after.world.tip? b = some tip → s.world.tip? b ≠ some tip →
        ∀ x, after.world.Leads [] b.project tip x → (after.world.commit? b.project x).isSome →
          ¬ s.world.Accepted b.project x → s.plan.Covers s.world b.project x := by
  intro s
  obtain ⟨outcome, after, hrun, _⟩ := s.exists_run_submit
  have hapart : ∀ c ∈ s.plan.batch.changes, ∀ own ∈ c.currentCommit?,
      ∀ k ∈ s.world.commit? c.dest.project own, ∀ x ∈ k.parents,
        ∀ c' ∈ s.plan.batch.changes, c'.currentCommit? ≠ some x := by decide
  have hforeign : s.plan.ForeignCovered s.world := by
    intro c hc own hown x hparent c' hc' _ hx'
    obtain ⟨k, hk, hx⟩ := hparent
    exact absurd hx' (hapart c hc own hown k (known_nil.1 hk) x hx c' hc')
  exact ⟨s.keyed, s.acyclic, s.contentAddressed, Sample.siblings_collisionFree, s.run_plan, outcome,
    after, hrun, (gained_covered_iff (s := s.service) (w := s.world) rfl s.keyed s.acyclic
      s.contentAddressed s.run_plan Sample.siblings_collisionFree hrun).2 hforeign⟩

end Submission

namespace Sample

/-- No two contents have one name. -/
theorem fork_collisionFree : fork.plan.CollisionFree fork.world :=
  fork.plan_of.collisionFree fork.contentAddressed (by decide)

/-- The branch of the first project leads to the first commit only. -/
theorem not_accepted_fork : ¬ fork.world.Accepted "p" x := by
  have htips : fork.world.branches "p" = .ok [(branch "p", root)] := by decide
  have hroot : fork.world.commit? "p" root = some first := by decide
  rw [accepted_iff htips]
  rintro ⟨tip, htip, hleads⟩
  have hx : x = root := by
    refine hleads.closed (S := fun id => id = root) ?_ (by simpa using htip)
    rintro a b rfl ⟨k, hk, hb⟩
    rw [known_nil, hroot] at hk
    cases hk
    cases hb
  exact absurd hx (by decide)

/-- Nothing that is in the plan for the first project, or merged there, is `x`. -/
theorem not_covers_fork : ¬ fork.plan.Covers fork.world "p" x := by
  rintro (hmerge | hchange | ⟨id, c, commit, hget, _, hmerged, _⟩)
  · revert hmerge
    decide
  · revert hchange
    decide
  · have hopen : ∀ e ∈ fork.world.changes.entries, e.2.status ≠ .merged := by decide
    exact hopen (id, c) ((Table.get?_eq_some_iff ..).1 hget) hmerged

end Sample

namespace Submission

/-- A commit that is up for review in the second project gets into the first one, where nothing
covers it. -/
theorem unreviewed_commit_enters :
    let s := Sample.fork
    s.world.Keyed ∧ s.world.Acyclic ∧ s.world.ContentAddressed ∧ s.plan.CollisionFree s.world ∧
      (s.service.run (withHistory s.world.reach (plan s.policy s.change s.actor))).1 =
        some (.ok s.plan) ∧
      ∃ outcome after, s.service.run (submit s.policy s.world.reach s.change s.actor) =
        (some (.ok outcome), after) ∧
      ¬ ∀ b tip, after.world.tip? b = some tip → s.world.tip? b ≠ some tip →
        ∀ x, after.world.Leads [] b.project tip x → (after.world.commit? b.project x).isSome →
          ¬ s.world.Accepted b.project x → s.plan.Covers s.world b.project x := by
  intro s
  obtain ⟨outcome, after, hrun, hworld⟩ := s.exists_run_submit
  refine ⟨s.keyed, s.acyclic, s.contentAddressed, Sample.fork_collisionFree, s.run_plan, outcome,
    after, hrun, fun hcovered => ?_⟩
  rw [hworld] at hcovered
  -- The branch of the first project ends at `upper`, whose parent is `x`.
  have hupper : (s.plan.landed s.world).commit? "p" Sample.upper =
      some (Sample.second Sample.x "u" Sample.upper) := by decide
  have hparent : (s.plan.landed s.world).Parent [] "p" Sample.upper Sample.x :=
    ⟨_, known_nil.2 hupper, List.mem_singleton.2 rfl⟩
  have htip : (s.plan.landed s.world).tip? (Sample.branch "p") = some Sample.upper := by decide
  have hmoved : s.world.tip? (Sample.branch "p") ≠ some Sample.upper := by decide
  have hstored : ((s.plan.landed s.world).commit? "p" Sample.x).isSome := by decide
  exact Sample.not_covers_fork (hcovered (Sample.branch "p") Sample.upper htip hmoved Sample.x
    hparent.leads hstored Sample.not_accepted_fork)

end Submission
end Landing
