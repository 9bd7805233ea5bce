import Landing.Proofs.Store.Passing
import Landing.Proofs.Submission.Integration

/-!
# Plans that are applied later

Between planning and applying, others may have worked on the stores: they run
programs, submissions among them, upload commits, point branches, and add, change
or delete change records (`World.Passes`).  None of this removes a commit, and
that is all that applying a plan relies on.

A plan is applied without a new look at the changes and branches.  What protects
the branches is that a swap names the tip that was seen; the change records are
not protected at all.  So either some step is not possible any more, and then the
steps before it are undone, which cannot fail here since every old tip is stored
(`World.run_apply_cases`), or all steps are taken, and then every branch that
moves has moved from where planning saw it to where it was to go
(`Submission.apply_later`).

A change that was abandoned meanwhile, or that got a new patch set, is recorded
as merged nevertheless (`Submission.stale_changes_marked`).
-/

namespace Landing

open World

namespace World

variable {w w' : World} {marks : ChangeId → Prop} {v u : World}

/-! ### Undoing what was done -/

/-- The world `u` is as `v`, but records that were marked may have been reopened. -/
structure Restored (marks : ChangeId → Prop) (v u : World) : Prop where
  tips : ∀ b, u.tip? b = v.tip? b
  commits : ∀ q id, u.commit? q id = v.commit? q id
  projects : ∀ q, u.HasProject q ↔ v.HasProject q
  records : ∀ k, u.changes.get? k = v.changes.get? k ∨
    marks k ∧ u.changes.get? k = (v.changes.get? k).map Change.reopen

theorem Restored.refl (v : World) : Restored marks v v :=
  ⟨fun _ => rfl, fun _ _ => rfl, fun _ => Iff.rfl, fun _ => .inl rfl⟩

/-- A record that reopening leaves alone is as it was. -/
theorem Restored.record_eq (h : Restored marks v u) {k : ChangeId}
    (hk : marks k → (v.changes.get? k).map Change.reopen = v.changes.get? k) :
    u.changes.get? k = v.changes.get? k := by
  rcases h.records k with hsame | ⟨hmarked, hreopened⟩
  · exact hsame
  · rw [hreopened, hk hmarked]

/-- A swap can be undone if the branch was at a stored commit before. -/
theorem run_undo_swap {b : Branch} {old : Option CommitId} {new : CommitId}
    (hswap : v.Swappable b old (some new))
    (hold : ∀ t, old = some t → (v.commit? b.project t).isSome)
    (h : Restored marks (v.withTip b (some new)) u) :
    ∃ u', u.run (TakenStep.refSwap b old new).undo = (some (.ok ()), u') ∧ Restored marks v u' := by
  have hback : u.Swappable b (some new) old := by
    refine ⟨?_, ?_, fun t ht => ?_⟩
    · rw [h.projects, hasProject_withTip]
      exact hswap.project
    · rw [h.tips, tip?_withTip hswap.project, if_pos rfl]
    · rw [h.commits, commit?_withTip]
      exact hold t ht
  rcases u.answer_compareAndSwap b (some new) old with ⟨_, hnot⟩ | ⟨hanswer, _⟩
  · exact absurd hback hnot
  · refine ⟨u.withTip b old, ?_, fun b' => ?_, fun q id => ?_, fun q => ?_, fun k => ?_⟩
    · show u.run (Program.ask (.compareAndSwap b (some new) old)) = _
      rw [run_ask, hanswer]
    · rw [tip?_withTip hback.project]
      split
      · next heq => rw [heq, hswap.expected]
      · next hne => rw [h.tips, tip?_withTip hswap.project, if_neg hne]
    · rw [commit?_withTip, h.commits, commit?_withTip]
    · rw [hasProject_withTip, h.projects, hasProject_withTip]
    · have hsame : (u.withTip b old).changes = u.changes := changes_withTip
      have hrecord := h.records k
      rwa [changes_withTip, ← hsame] at hrecord

/-- A mark can be undone if there was a record. -/
theorem run_undo_mark {k : ChangeId} {t : CommitId} {submitter : AccountId}
    (hsome : (v.changes.get? k).isSome) (hmarked : marks k)
    (h : Restored marks (v.withChange k (·.markMerged t submitter)) u) :
    ∃ u', u.run (TakenStep.markMerged k).undo = (some (.ok ()), u') ∧ Restored marks v u' := by
  -- Reopening gives the same, whether the record was reopened in the meantime or not.
  have hafter : (u.changes.get? k).map Change.reopen = (v.changes.get? k).map Change.reopen := by
    have hnow : (v.withChange k (·.markMerged t submitter)).changes.get? k =
        (v.changes.get? k).map (·.markMerged t submitter) := by
      rw [get?_changes_withChange, if_pos rfl]
    rcases h.records k with heq | ⟨_, heq⟩
    · rw [heq, hnow, Option.map_map]
      rfl
    · rw [heq, hnow, Option.map_map, Option.map_map]
      rfl
  rcases u.answer_reopen k with ⟨_, hnone⟩ | ⟨hanswer, _⟩
  · rw [hnone, Option.map_none] at hafter
    rw [← Option.isSome_map (f := Change.reopen), ← hafter] at hsome
    cases hsome
  · refine ⟨u.withChange k Change.reopen, ?_, h.tips, h.commits, h.projects, fun k' => ?_⟩
    · show u.run (Program.ask (.reopen k)) = _
      rw [run_ask, hanswer]
    · rw [get?_changes_withChange]
      split
      · next heq =>
        rw [heq, hafter]
        exact .inr ⟨hmarked, rfl⟩
      · next hne =>
        have hother := h.records k'
        rwa [get?_changes_withChange, if_neg hne] at hother

/-- A step can be undone where nothing but records is different from what it left behind, if the
branch that it moved was at a stored commit before. -/
theorem run_undo {s : Step} (hs : s.Possible v)
    (hold : ∀ b old new, s = .swap b (some old) new → (v.commit? b.project old).isSome)
    (hmark : ∀ k t submitter, s = .mark k t submitter → marks k)
    (h : Restored marks (s.effect v) u) :
    ∃ u', u.run s.taken.undo = (some (.ok ()), u') ∧ Restored marks v u' := by
  cases s with
  | swap b old new => exact run_undo_swap hs (fun t ht => hold b t new (by rw [ht])) h
  | mark k t submitter => exact run_undo_mark hs (hmark k t submitter rfl) h

/-- Steps that were taken one after another are undone, the newest first. -/
theorem run_unwind {steps : List Step} (hturn : Step.InTurn v steps)
    (hold : ∀ b old new, Step.swap b (some old) new ∈ steps → (v.commit? b.project old).isSome)
    (hmarks : ∀ k t submitter, Step.mark k t submitter ∈ steps → marks k)
    (h : Restored marks (Step.effects v steps) u) :
    ∃ u', u.run (Transaction.unwind (steps.map Step.taken).reverse) = (some (.ok ()), u') ∧
      Restored marks v u' := by
  induction steps using List.reverseRecOn generalizing u with
  | nil => exact ⟨u, rfl, h⟩
  | append_singleton init s ih =>
    have heffects : Step.effects v (init ++ [s]) = s.effect (Step.effects v init) := by
      simp [Step.effects]
    rw [heffects] at h
    obtain ⟨hinit, hs⟩ := Step.inTurn_append_singleton.1 hturn
    obtain ⟨u₁, hundo, hrestored⟩ := run_undo hs
      (fun b old new heq => by rw [Step.commit?_effects]; exact hold b old new (by simp [heq]))
      (fun k t submitter heq => hmarks k t submitter (by simp [heq])) h
    obtain ⟨u', hunwind, hrest⟩ := ih hinit
      (fun b old new hmem => hold b old new (by simp [hmem]))
      (fun k t submitter hmem => hmarks k t submitter (by simp [hmem])) hrestored
    refine ⟨u', ?_, hrest⟩
    rw [List.map_append, List.reverse_append]
    show u.run (s.taken.undo >>= _) = _
    rw [run_bind_of hundo]
    exact hunwind

/-! ### Applying a plan somewhere else -/

/-- A plan is applied in a world that it need not have been made in.  Every step of it can be taken,
or applying it fails and leaves every branch as it was. -/
theorem run_apply_cases {p : Plan} (hprojects : ∀ e ∈ p.inserts, w.HasProject e.1)
    (hapart : p.steps.Pairwise Step.Apart)
    (hold : ∀ b old new, Step.swap b (some old) new ∈ p.steps → (w.commit? b.project old).isSome) :
    w.CanLand p ∨ ∃ f w', w.run p.apply = (some (.error f), w') ∧
      (∀ step cause, f ≠ .rollbackFailed step cause) ∧
      Restored (fun k => ∃ t submitter, Step.mark k t submitter ∈ p.steps)
        (w.withCommits p.inserts) w' := by
  rcases run_perform_cases hapart (w := w.withCommits p.inserts) [] with
    hall | ⟨done, s, rest, f, hsteps, hdone, hperform, hforward⟩
  · exact .inl hall
  · right
    have hmem : ∀ t ∈ done, t ∈ p.steps := by
      intro t ht
      rw [hsteps]
      exact List.mem_append_left _ ht
    have hdoneApart : done.Pairwise Step.Apart := by
      rw [hsteps] at hapart
      exact (List.pairwise_append.1 hapart).1
    have hstored := storedIn_withCommits hprojects
    have hmarked : ∀ k t submitter, Step.mark k t submitter ∈ done →
        ∃ t submitter, Step.mark k t submitter ∈ p.steps :=
      fun k t submitter hmark => ⟨t, submitter, hmem _ hmark⟩
    obtain ⟨w', hunwind, hrestored⟩ := run_unwind (Step.inTurn_of_apart hdone hdoneApart)
      (fun b old new hswap => hstored.isSome (hold b old new (hmem _ hswap))) hmarked (.refl _)
    have hrollback : (Step.effects (w.withCommits p.inserts) done).run
        (Transaction.rollback (done.map Step.taken)) =
          (some (.ok (done.map Step.taken).length), w') := by
      rw [Transaction.rollback, run_bind_of hunwind]
      rfl
    refine ⟨f, w', ?_, hforward, hrestored⟩
    rw [Plan.apply, run_bind_of (run_storeAll hprojects)]
    dsimp only
    rw [run_bind_of hperform]
    dsimp only
    rw [run_tell_bind, List.nil_append, run_bind_of hrollback]
    rfl

/-- Steps that could be taken can be taken later, if the branches to be moved are where they were and
the records to be marked are still there. -/
theorem CanLand.later {p : Plan} (hland : w.CanLand p) (hprojects : ∀ e ∈ p.inserts, w.HasProject e.1)
    (hlater : w.Outlives w')
    (htips : ∀ b old new, Step.swap b old new ∈ p.steps → w'.tip? b = w.tip? b)
    (hrecords : ∀ k t submitter, Step.mark k t submitter ∈ p.steps → (w'.changes.get? k).isSome) :
    w'.CanLand p := by
  have hprojects' : ∀ e ∈ p.inserts, w'.HasProject e.1 :=
    fun e he => hlater.projects _ (hprojects e he)
  intro s hs
  cases s with
  | mark k t submitter =>
    show ((w'.withCommits p.inserts).changes.get? k).isSome
    rw [changes_withCommits]
    exact hrecords k t submitter hs
  | swap b old new =>
    have hswap : (w.withCommits p.inserts).Swappable b old (some new) := hland _ hs
    refine ⟨?_, ?_, ?_⟩
    · rw [hasProject_withCommits]
      exact hlater.projects _ ((hasProject_withCommits w p.inserts).1 hswap.project)
    · rw [tip?_withCommits, htips b old new hs, ← tip?_withCommits w p.inserts]
      exact hswap.expected
    · intro t ht
      obtain ⟨c, hc⟩ := Option.isSome_iff_exists.1 (hswap.stored t ht)
      rcases known_of_commit?_withCommits hprojects hc with hold | ⟨d, hd, rfl, _⟩
      · rw [commit?_withCommits_of_some hprojects' (hlater.stored _ _ _ hold)]
        rfl
      · exact isSome_commit?_withCommits hprojects' hd

end World

namespace Plan

variable {w w' : World} {p : Plan}

/-- What a plan needs of a world where it is applied is so in every later world. -/
theorem Framed.run_apply_cases (hplan : p.Framed w) (hlater : w.Outlives w') :
    w'.CanLand p ∨ ∃ f u, w'.run p.apply = (some (.error f), u) ∧
      (∀ step cause, f ≠ .rollbackFailed step cause) ∧
      Restored (fun k => ∃ t submitter, Step.mark k t submitter ∈ p.steps)
        (w'.withCommits p.inserts) u := by
  refine World.run_apply_cases (fun e he => hlater.projects _ (hplan.hasProject_inserts e he))
    hplan.apart fun b old new hswap => ?_
  obtain ⟨bp, hbp, rfl, hold, _⟩ := swap_mem_steps.1 hswap
  obtain ⟨hbranch, hmoves⟩ := mem_moving.1 hbp
  obtain ⟨tip, htip, hne⟩ := BranchPlan.movesRef_iff.1 hmoves
  have hwhole := hplan.whole_oldTip hbranch (.inl (by rw [htip]; exact hne.symm)) hold
  exact hlater.stored.isSome hwhole.stored

/-- Only records of the batch are marked. -/
theorem Framed.exists_change_of_mark (hplan : p.Framed w) {k : ChangeId} {t : CommitId}
    {submitter : AccountId} (hmark : Step.mark k t submitter ∈ p.steps) :
    ∃ c ∈ p.batch.changes, c.id = k := by
  obtain ⟨⟨bp, hbp, _, hk⟩, _⟩ := mark_mem_steps.1 hmark
  obtain ⟨c, hc, hid, _⟩ := (hplan.mem_changes_iff hbp).1 hk
  exact ⟨c, hc, hid⟩

/-- Where applying a plan failed, a record is as it was if it is not of the batch, and also if it was
open without traces of a submission. -/
theorem Framed.record_of_restored (hplan : p.Framed w) {u : World}
    (hrestored : Restored (fun k => ∃ t submitter, Step.mark k t submitter ∈ p.steps)
      (w'.withCommits p.inserts) u) {k : ChangeId}
    (hk : (∀ c ∈ p.batch.changes, c.id ≠ k) ∨ (w'.changes.get? k).map Change.reopen =
      w'.changes.get? k) : u.changes.get? k = w'.changes.get? k := by
  have hrecords : (w'.withCommits p.inserts).changes.get? k = w'.changes.get? k := by
    rw [changes_withCommits]
  rw [← hrecords] at hk ⊢
  refine hrestored.record_eq ?_
  rintro ⟨t, submitter, hmark⟩
  obtain ⟨c, hc, hid⟩ := hplan.exists_change_of_mark hmark
  exact hk.resolve_left fun hother => hother c hc hid

/-- The records of other changes stay as they are. -/
theorem Framed.get?_changes_landed_of_not_mem (hplan : p.Framed w) {k : ChangeId}
    (hk : ∀ c ∈ p.batch.changes, c.id ≠ k) :
    (p.landed w').changes.get? k = w'.changes.get? k := by
  rw [landed, Step.get?_changes_effects_of_not_marked, changes_withCommits]
  intro t submitter hmark
  obtain ⟨c, hc, hid⟩ := hplan.exists_change_of_mark hmark
  exact hk c hc hid

/-- A change with a new tip is recorded as merged with it. -/
theorem Framed.exists_record_landed (hplan : p.Framed w) (hland : w'.CanLand p) {bp : BranchPlan}
    (hbp : bp ∈ p.branches) {tip : CommitId} (htip : bp.newTip = some tip) {k : ChangeId}
    (hk : k ∈ bp.changes) : ∃ record, w'.changes.get? k = some record ∧
      (p.landed w').changes.get? k = some (record.markMerged tip p.actor.id) := by
  -- Recording the merge was possible, so there is a record.
  have hsome : ((w'.withCommits p.inserts).changes.get? k).isSome :=
    hland _ (mark_mem_steps.2 ⟨⟨bp, hbp, htip, hk⟩, rfl⟩)
  rw [changes_withCommits] at hsome
  obtain ⟨record, hrecord⟩ := Option.isSome_iff_exists.1 hsome
  refine ⟨record, hrecord, ?_⟩
  rw [hplan.get?_changes_landed hbp htip hk, hrecord]
  rfl

/-- The new tip leads to the commit that was the current one when the plan was made. -/
theorem Framed.leads_current_landed (hplan : p.Framed w) (hlater : w.Outlives w')
    (hacyclic : w.Acyclic) (haddressed : w.ContentAddressed) (hfree : p.CollisionFree w')
    {c : Change} (hc : c ∈ p.batch.changes) {bp : BranchPlan} (hbp : bp ∈ p.branches)
    (hbranch : bp.branch = c.dest) {tip : CommitId} (htip : bp.newTip = some tip)
    {commit : CommitId} (hcommit : c.currentCommit? = some commit) :
    (p.landed w').Leads [] c.dest.project tip commit := by
  have hfreeThen : p.CollisionFree w :=
    Set.InjOn.mono (Set.union_subset_union_left _ hlater.stored.storedDrafts) hfree
  obtain ⟨tip', htip', hleads⟩ :=
    hplan.leads_current hacyclic haddressed hfreeThen hc hbp hbranch hcommit
  rw [htip] at htip'
  cases htip'
  refine storedIn_landed.leads (hplan.leads_withCommits hlater.stored (fun e he => ?_)
    (hlater.addressed haddressed) hfree hleads)
  exact hlater.projects _ (hplan.hasProject_inserts e he)

end Plan

/-! ### What has become of a plan -/

namespace Submission

/-- A plan is applied after others have worked on the stores.  If this fails, then every branch is
where it was, and so is every record, except that a record of the batch which was not open without
traces of a submission may be so now; undoing a step does not fail.  If it succeeds, then every branch
that was to move was where planning had seen it and is where it was to go, no other branch has moved,
and every change of the batch with a tip is recorded as merged with the new tip of its branch.  The
change was open and for this branch when the plan was made, and where histories are in order the tip
leads to the commit that was its current one then. -/
theorem apply_later {s s₂ after : Service} {w w₂ : World} (hcalm : s.backend = .calm w)
    (hkeyed : w.Keyed) {policy : Policy} {budget : Nat} {change : ChangeId} {actor : Account}
    {p : Plan} (hplanned : (s.run (withHistory budget (plan policy change actor))).1 = some (.ok p))
    (hlater : Relation.ReflTransGen World.Passes w w₂) (hcalm₂ : s₂.backend = .calm w₂)
    {ended : Option (Except Failure (List TakenStep × Plan))}
    (hrun : s₂.run p.apply = (ended, after)) :
    (∃ f, ended = some (.error f) ∧ (∀ step cause, f ≠ .rollbackFailed step cause) ∧
      (∀ b, after.world.tip? b = w₂.tip? b) ∧
      (∀ k, (∀ c ∈ p.batch.changes, c.id ≠ k) →
        after.world.changes.get? k = w₂.changes.get? k) ∧
      ∀ k c, w₂.changes.get? k = some c → c.isOpen = true → c.submitter = none →
        c.mergedAs = none → after.world.changes.get? k = some c) ∨
    ∃ log, ended = some (.ok (log, p.markApplied)) ∧
      (∀ bp ∈ p.moving, w₂.tip? bp.branch = bp.oldTip ∧
        after.world.tip? bp.branch = bp.newTip) ∧
      (∀ b, (∀ bp ∈ p.moving, bp.branch ≠ b) → after.world.tip? b = w₂.tip? b) ∧
      (∀ k, (∀ c ∈ p.batch.changes, c.id ≠ k) →
        after.world.changes.get? k = w₂.changes.get? k) ∧
      ∀ c ∈ p.batch.changes, w.OpenRecord c ∧ ∃ bp ∈ p.branches, bp.branch = c.dest ∧
        ∀ tip, bp.newTip = some tip → ∃ record, w₂.changes.get? c.id = some record ∧
          after.world.changes.get? c.id = some (record.markMerged tip p.actor.id) ∧
          (w.Acyclic → w.ContentAddressed → p.CollisionFree w₂ →
            ∀ commit, c.currentCommit? = some commit →
              after.world.Leads [] c.dest.project tip commit) := by
  have hplan : p.Of w := of_run_plan hcalm hkeyed hplanned
  have hout := outlives_of_passes hlater
  have hprojects : ∀ e ∈ p.inserts, w₂.HasProject e.1 :=
    fun e he => hout.projects _ (hplan.hasProject_inserts e he)
  obtain ⟨hended, hafter⟩ := Service.run_calm hcalm₂ p.apply
  rw [hrun] at hended hafter
  have hworld : after.world = (w₂.run p.apply).2 := congrArg Backend.world hafter
  rcases hplan.run_apply_cases hout with hland | ⟨f, u, hfail, hforward, hrestored⟩
  · right
    rw [run_apply_of_apart hprojects hplan.apart hland] at hended hworld
    rw [hworld]
    refine ⟨_, hended, fun bp hbp => ⟨tip?_of_canLand hland hbp, ?_⟩,
      fun b hb => tip?_landed_of_not_moving hplan.apart hland hb,
      fun k hk => hplan.get?_changes_landed_of_not_mem hk, fun c hc => ?_⟩
    · obtain ⟨tip, htip, _⟩ := BranchPlan.movesRef_iff.1 (Plan.mem_moving.1 hbp).2
      rw [htip]
      exact tip?_landed hplan.apart hland hbp htip
    · obtain ⟨bp, hbp, hbranch, hlisted⟩ := hplan.exists_branchPlan hc
      refine ⟨hplan.openRecord c hc, bp, hbp, hbranch, fun tip htip => ?_⟩
      obtain ⟨record, hrecord, hmarked⟩ := hplan.exists_record_landed hland hbp htip hlisted
      exact ⟨record, hrecord, hmarked, fun hacyclic haddressed hfree commit hcommit =>
        hplan.leads_current_landed hout hacyclic haddressed hfree hc hbp hbranch htip hcommit⟩
  · left
    rw [hfail] at hended hworld
    rw [hworld]
    refine ⟨f, hended, hforward, fun b => ?_, fun k hk => hplan.record_of_restored hrestored (.inl hk),
      fun k c hget hopen hsub hmerged => ?_⟩
    · rw [hrestored.tips, tip?_withCommits]
    · rw [← hget]
      refine hplan.record_of_restored hrestored (.inr ?_)
      rw [hget, Option.map_some, Change.reopen_eq_iff.2 ⟨hopen, hsub, hmerged⟩]

end Submission

namespace Sample

/-- The siblings, after a commit was uploaded to the second project. -/
def uploaded : World :=
  siblings.world.setProject "q" (project [second root "z" z, second root "x" x])

theorem uploaded_eq :
    siblings.world.withCommit "q" (second root "x" x).toDraft = uploaded := by
  have hid : (second root "x" x).toDraft.id = x := named _ (by simp [commits])
  have hcommit : (second root "x" x).toDraft.commit = second root "x" x :=
    congrArg (fun id => { second root "x" x with id := id }) hid
  have hproject : siblings.world.projects.get? "q" = some (project [second root "z" z]) := by
    decide
  rw [withCommit, hproject]
  dsimp only
  rw [hid, hcommit]
  decide

/-- After the upload, the second sibling was abandoned and the change of the second project got the
uploaded commit as its patch set. -/
def overtaken : World :=
  (uploaded.withChange 3 (·.addPatchSet x actor.id)).withChange 2
    fun c => { c with status := .abandoned }

theorem overtaken_later : Relation.ReflTransGen World.Passes siblings.world overtaken := by
  refine ((Relation.ReflTransGen.single (b := uploaded) ?_).tail (passes_withChange ?_)).tail
    (passes_withChange ?_)
  · rw [← uploaded_eq]
    refine passes_withCommit ?_
    unfold HasProject
    decide
  · decide
  · decide

theorem overtaken_collisionFree : siblings.plan.CollisionFree overtaken :=
  siblings.plan_of.collisionFree
    ((outlives_of_passes overtaken_later).addressed siblings.contentAddressed) (by decide)

theorem overtaken_canLand : overtaken.CanLand siblings.plan := by
  refine siblings.canLand.later siblings.plan_of.hasProject_inserts
    (outlives_of_passes overtaken_later) ?_ ?_
  · intro b old new _
    have htip : overtaken.tip? b = uploaded.tip? b := rfl
    rw [htip, ← uploaded_eq, tip?_withCommit]
  · intro k t submitter hmark
    obtain ⟨⟨bp, hbp, -, hk⟩, -⟩ := Plan.mark_mem_steps.1 hmark
    have hrecords : ∀ bp ∈ siblings.plan.branches,
        bp.changes.all fun k => (overtaken.changes.get? k).isSome := by
      decide
    exact List.all_eq_true.1 (hrecords bp hbp) k hk

/-- The plan for the siblings can be carried out all the same. -/
theorem exists_run_apply_overtaken : ∃ log after,
    (Service.start overtaken 8).run siblings.plan.apply =
      (some (.ok (log, siblings.plan.markApplied)), after) ∧
      after.world.commit? "q" z = some (second root "z" z) ∧
      after.world.commit? "q" root = some first := by
  have hprojects : ∀ e ∈ siblings.plan.inserts, overtaken.HasProject e.1 := fun e he =>
    (outlives_of_passes overtaken_later).projects _ (siblings.plan_of.hasProject_inserts e he)
  have hrun := run_apply_of_apart hprojects siblings.plan_of.apart overtaken_canLand
  have hcalm : (Service.start overtaken 8).backend = .calm overtaken := rfl
  obtain ⟨after, hafter, hbackend⟩ := Service.exists_run_of_calm hcalm hrun
  have hstored : overtaken.commit? "q" z = some (second root "z" z) ∧
      overtaken.commit? "q" root = some first := by decide
  have hworld : after.world = siblings.plan.landed overtaken := by
    rw [Service.world, hbackend]
    rfl
  refine ⟨_, after, hafter, ?_, ?_⟩
  · rw [hworld, commit?_landed]
    exact commit?_withCommits_of_some hprojects hstored.1
  · rw [hworld, commit?_landed]
    exact commit?_withCommits_of_some hprojects hstored.2

end Sample

namespace Submission

open Sample in
/-- The plan for the siblings is applied after one of them was abandoned.  The branch of the second
project is moved as planned, and the new tip leads to the commit that was planned. -/
theorem sample_apply_later :
    let s := siblings
    s.world.Keyed ∧
      (s.service.run (withHistory s.world.reach (plan s.policy s.change s.actor))).1 =
        some (.ok s.plan) ∧
      Relation.ReflTransGen World.Passes s.world overtaken ∧
      ∃ log after, (Service.start overtaken 8).run s.plan.apply =
        (some (.ok (log, s.plan.markApplied)), after) ∧
        after.world.tip? (branch "q") = some z ∧ after.world.Leads [] "p" mergeId y := by
  intro s
  obtain ⟨log, after, hrun, _⟩ := exists_run_apply_overtaken
  have hcalm : (Service.start overtaken 8).backend = .calm overtaken := rfl
  have hend := apply_later (s := s.service) (w := s.world) rfl s.keyed s.run_plan overtaken_later
    hcalm hrun
  refine ⟨s.keyed, s.run_plan, overtaken_later, log, after, hrun, ?_⟩
  rcases hend with ⟨f, hfail, _⟩ | ⟨_, _, hmoved, _, _, hmarked⟩
  · cases hfail
  · obtain ⟨bp, hbp, hbranch, htip⟩ : ∃ bp ∈ s.plan.moving, bp.branch = branch "q" ∧
        bp.newTip = some z := by decide
    have hmem : change 2 "p" y ∈ s.plan.batch.changes := by decide
    obtain ⟨_, bp', hbp', hbranch', hrecord⟩ := hmarked (change 2 "p" y) hmem
    have htip' : ∀ bp ∈ s.plan.branches, bp.branch = branch "p" → bp.newTip = some mergeId := by
      decide
    obtain ⟨_, _, _, hleads⟩ := hrecord mergeId (htip' bp' hbp' hbranch')
    refine ⟨?_, hleads s.acyclic s.contentAddressed overtaken_collisionFree y rfl⟩
    rw [← hbranch, ← htip]
    exact (hmoved bp hbp).2

open Sample in
/-- Records are not protected: of the changes that the plan records as merged, one was abandoned, and
for another one the recorded tip does not lead to its current commit. -/
theorem stale_changes_marked :
    let s := siblings
    (s.service.run (withHistory s.world.reach (plan s.policy s.change s.actor))).1 =
        some (.ok s.plan) ∧
      Relation.ReflTransGen World.Passes s.world overtaken ∧
      ∃ log after, (Service.start overtaken 8).run s.plan.apply =
        (some (.ok (log, s.plan.markApplied)), after) ∧
      (¬ ∀ bp ∈ s.plan.branches, ∀ k ∈ bp.changes, ∀ record,
        overtaken.changes.get? k = some record → record.isOpen = true) ∧
      ¬ ∀ bp ∈ s.plan.branches, ∀ tip, bp.newTip = some tip → ∀ k ∈ bp.changes, ∀ record,
        overtaken.changes.get? k = some record → ∀ commit, record.currentCommit? = some commit →
          after.world.Leads [] bp.branch.project tip commit := by
  intro s
  obtain ⟨log, after, hrun, hz, hroot⟩ := exists_run_apply_overtaken
  refine ⟨s.run_plan, overtaken_later, log, after, hrun, fun hopen => ?_, fun hleads => ?_⟩
  · obtain ⟨bp, hbp, hk, hrecord⟩ : ∃ bp ∈ s.plan.branches, 2 ∈ bp.changes ∧
        overtaken.changes.get? 2 = some { change 2 "p" y with status := .abandoned } := by
      decide
    cases hopen bp hbp 2 hk _ hrecord
  · obtain ⟨bp, hbp, hbranch, htip, hk, hrecord⟩ : ∃ bp ∈ s.plan.branches, bp.branch = branch "q" ∧
        bp.newTip = some z ∧ 3 ∈ bp.changes ∧ overtaken.changes.get? 3 =
          some ((change 3 "q" z).addPatchSet x actor.id) := by
      decide
    have hx := hleads bp hbp z htip 3 hk _ hrecord x (by decide)
    rw [hbranch] at hx
    -- Behind the new tip there is the first commit only.
    have hclosed : x = z ∨ x = root := by
      refine hx.closed (S := fun id => id = z ∨ id = root) ?_ (.inl rfl)
      rintro a b (rfl | rfl) ⟨k, hk, hb⟩
      · have hsame : some k = some (second root "z" z) := (known_nil.1 hk).symm.trans hz
        cases hsame
        exact .inr (List.mem_singleton.1 hb)
      · have hsame : some k = some first := (known_nil.1 hk).symm.trans hroot
        cases hsame
        cases hb
    revert hclosed
    decide

end Submission
end Landing
