import Landing.Proofs.Submission.Integration
import Landing.Proofs.Submission.Preview
import Landing.Proofs.Submission.Publication

/-!
# What is told is what has happened

The events of a submission are made from its plan.  What there is to tell can also
be read off the stores, before and after (`World.news`): every branch that is not
where it was, and every change whose record has turned into that of a merged
change.  Both come to the same (`Plan.Of.events_eq`), although the plan is cut into
steps and into events by separate loops.

* `Plan.Of.entries_tips`: the tips of a plan are those of the branches that have
  moved.
* `Plan.Of.record_cases`: a record of the batch turns if the plan has a tip for its
  branch, and otherwise it stays as it is.
* `Plan.Carried` collects what else has happened, and what has not.
-/

namespace Landing

open World

/-! ### What there is to tell -/

namespace Branch

variable {a b : Branch}

/-- Branches are ordered by project first. -/
theorem compare_of_project (h : compare a.project b.project = .lt) : compare a b = .lt := by
  show compareLex (compareOn Branch.project) (compareOn Branch.name) a b = .lt
  simp [compareLex, compareOn, h]

/-- Branches of one project are ordered by name. -/
theorem compare_of_name {project : ProjectName} {n n' : String} (h : compare n n' = .lt) :
    compare (⟨project, n⟩ : Branch) ⟨project, n'⟩ = .lt := by
  show compareLex (compareOn Branch.project) (compareOn Branch.name) _ _ = .lt
  simp [compareLex, compareOn, h, Std.ReflCmp.compare_self]

end Branch

namespace World

variable {w w' : World} {k : ChangeId} {b : Branch} {tip : CommitId}

/-- Refs are listed in branch order. -/
theorem ascending_refs (w : World) : w.refs.Pairwise fun r r' => compare r.1 r'.1 = .lt := by
  refine List.pairwise_flatMap.2 ⟨fun e _ => ?_, ?_⟩
  · exact List.pairwise_map.2 (e.2.refs.ascending.imp Branch.compare_of_name)
  · refine w.projects.ascending.imp fun hlt r hr r' hr' => ?_
    obtain ⟨_, _, rfl⟩ := List.mem_map.1 hr
    obtain ⟨_, _, rfl⟩ := List.mem_map.1 hr'
    exact Branch.compare_of_project hlt

/-- The refs of `w'` that are not where they are in `w`, in branch order. -/
def movedRefs (w w' : World) : List (Branch × CommitId) :=
  w'.refs.filter fun r => w.tip? r.1 != some r.2

theorem mem_movedRefs : (b, tip) ∈ w.movedRefs w' ↔ w'.tip? b = some tip ∧ w.tip? b ≠ some tip := by
  rw [movedRefs, List.mem_filter, mem_refs, bne_iff_ne]

/-- The record of the change is open in `w`, and in `w'` it is that of a merged change. -/
def turned (w w' : World) (k : ChangeId) : Bool :=
  (w.changes.get? k).any (·.isOpen) && (w'.changes.get? k).any (·.status == .merged)

/-- A record that stays as it is does not turn. -/
theorem turned_eq_false_of_eq (hsame : w'.changes.get? k = w.changes.get? k) :
    w.turned w' k = false := by
  rw [turned, hsame]
  cases w.changes.get? k with
  | none => rfl
  | some c =>
    show (c.isOpen && c.status == .merged) = false
    unfold Change.isOpen
    cases c.status <;> rfl

/-- What there is to tell about the way from `w` to `w'`: every branch that has moved, in branch order,
and then every change that has turned, in the given order. -/
def news (w w' : World) (changes : List Change) (submitter : AccountId) : List Event :=
  (w.movedRefs w').map (fun r => .refUpdated r.1 (w.tip? r.1) r.2) ++
  (changes.filter fun c => w.turned w' c.id).filterMap fun c =>
    (w'.tip? c.dest).map fun tip => .changeMerged c.id c.dest tip submitter

/-- No call touches the accounts, the rules about hidden branches, and the numbers given out. -/
theorem settings_answer (w : World) (c : StoreCall) :
    (w.answer c).2.accounts = w.accounts ∧ (w.answer c).2.hidden = w.hidden ∧
      (w.answer c).2.nextId = w.nextId := by
  rcases w.answer_cases c with hsame | ⟨project, d, _, _, heffect⟩ | ⟨b, old, tip, _, _, heffect⟩ |
    ⟨number, t, submitter, _, heffect⟩ | ⟨number, _, heffect⟩
  · rw [hsame]
    exact ⟨rfl, rfl, rfl⟩
  · rw [heffect]
    unfold withCommit
    split
    · split <;> exact ⟨rfl, rfl, rfl⟩
    · exact ⟨rfl, rfl, rfl⟩
  · rw [heffect]
    unfold withTip
    split <;> exact ⟨rfl, rfl, rfl⟩
  · rw [heffect]
    exact ⟨rfl, rfl, rfl⟩
  · rw [heffect]
    exact ⟨rfl, rfl, rfl⟩

/-- No program touches the accounts, the rules about hidden branches, and the numbers given out. -/
theorem settings_run {α : Type} (w : World) (p : Program α) :
    (w.run p).2.accounts = w.accounts ∧ (w.run p).2.hidden = w.hidden ∧
      (w.run p).2.nextId = w.nextId := by
  refine run_keeps (I := fun v => v.accounts = w.accounts ∧ v.hidden = w.hidden ∧
    v.nextId = w.nextId) (fun v c hv => ?_) ⟨rfl, rfl, rfl⟩ p
  obtain ⟨haccounts, hhidden, hnext⟩ := settings_answer v c
  exact ⟨haccounts.trans hv.1, hhidden.trans hv.2.1, hnext.trans hv.2.2⟩

end World

/-! ### What a plan does -/

namespace Plan

variable {w : World} {p : Plan} {bp bp' : BranchPlan} {k : ChangeId} {b : Branch}
variable {tip : CommitId}

/-- The tips of a plan are those of the branches that are not where they were. -/
theorem Of.get?_tips_iff (hplan : p.Of w) (hland : w.CanLand p) :
    p.tips.get? b = some tip ↔ (p.landed w).tip? b = some tip ∧ w.tip? b ≠ some tip := by
  obtain ⟨hmoved, hstay⟩ := hplan.tip?_landed hland b
  constructor
  · intro htip
    obtain ⟨bp, hbp, rfl, hnew⟩ := hplan.get?_tips.1 htip
    refine ⟨(hmoved tip htip).1, ?_⟩
    rw [tip?_of_canLand hland hbp]
    obtain ⟨tip', htip', hne⟩ := BranchPlan.movesRef_iff.1 (mem_moving.1 hbp).2
    rw [hnew] at htip'
    cases htip'
    exact hne
  · rintro ⟨hafter, hbefore⟩
    cases htip : p.tips.get? b with
    | none => exact absurd ((hstay htip).symm.trans hafter) hbefore
    | some tip' => rw [← (hmoved tip' htip).1, hafter]

/-- No branch disappears. -/
theorem Of.tip?_of_landed_none (hplan : p.Of w) (hland : w.CanLand p)
    (hnone : (p.landed w).tip? b = none) : w.tip? b = none := by
  obtain ⟨hmoved, hstay⟩ := hplan.tip?_landed hland b
  cases htip : p.tips.get? b with
  | none => exact (hstay htip).symm.trans hnone
  | some tip =>
    rw [(hmoved tip htip).1] at hnone
    cases hnone

/-- The tips of a plan are listed as the branches that have moved are. -/
theorem Of.entries_tips (hplan : p.Of w) (hland : w.CanLand p) :
    p.tips.entries = w.movedRefs (p.landed w) := by
  refine Table.eq_of_ascending p.tips.ascending ((ascending_refs _).filter _) fun e => ?_
  obtain ⟨b, tip⟩ := e
  rw [← Table.get?_eq_some_iff, hplan.get?_tips_iff hland, mem_movedRefs]

/-- What becomes of a record: it is that of a merged change if the plan has a tip for it, and
otherwise it stays. -/
theorem Of.record_cases (hplan : p.Of w) (k : ChangeId) :
    (∃ bp ∈ p.branches, ∃ tip c, k ∈ bp.changes ∧ bp.newTip = some tip ∧ c.dest = bp.branch ∧
      w.changes.get? k = some c ∧ c.isOpen = true ∧
      (p.landed w).changes.get? k = some (c.markMerged tip p.actor.id)) ∨
    (∀ bp ∈ p.branches, k ∈ bp.changes → bp.newTip = none) ∧
      (p.landed w).changes.get? k = w.changes.get? k := by
  by_cases hmarked : ∃ bp ∈ p.branches, k ∈ bp.changes ∧ ∃ tip, bp.newTip = some tip
  · obtain ⟨bp, hbp, hk, tip, htip⟩ := hmarked
    obtain ⟨c, hc, rfl, hdest⟩ := (hplan.mem_changes_iff hbp).1 hk
    obtain ⟨hrecorded, hopen⟩ := hplan.openRecord c hc
    refine .inl ⟨bp, hbp, tip, c, hk, htip, hdest, hrecorded, hopen, ?_⟩
    rw [hplan.get?_changes_landed hbp htip hk, hrecorded]
    rfl
  · refine .inr ⟨fun bp hbp hk => ?_, ?_⟩
    · rw [Option.eq_none_iff_forall_ne_some]
      exact fun tip htip => hmarked ⟨bp, hbp, hk, tip, htip⟩
    · rw [landed, Step.get?_changes_effects_of_not_marked, changes_withCommits]
      intro tip submitter hmark
      obtain ⟨⟨bp, hbp, htip, hk⟩, _⟩ := mark_mem_steps.1 hmark
      exact hmarked ⟨bp, hbp, hk, tip, htip⟩

/-- The records that turn are those of the changes for which the plan has a tip. -/
theorem Of.turned_iff (hplan : p.Of w) :
    w.turned (p.landed w) k = true ↔ ∃ bp ∈ p.branches, k ∈ bp.changes ∧ bp.newTip ≠ none := by
  rcases hplan.record_cases k with ⟨bp, hbp, tip, c, hk, htip, _, hbefore, hopen, hafter⟩ |
    ⟨hnone, hsame⟩
  · have hturned : w.turned (p.landed w) k = true := by
      rw [turned, hbefore, hafter]
      show (c.isOpen && true) = true
      rw [hopen]
      rfl
    exact ⟨fun _ => ⟨bp, hbp, hk, by rw [htip]; exact nofun⟩, fun _ => hturned⟩
  · rw [turned_eq_false_of_eq hsame]
    refine ⟨nofun, ?_⟩
    rintro ⟨bp, hbp, hk, htip⟩
    exact absurd (hnone bp hbp hk) htip

/-- In the plan of a branch either all records turn or none does. -/
theorem Of.turned_iff_of_mem (hplan : p.Of w) (hbp : bp ∈ p.branches) (hk : k ∈ bp.changes) :
    w.turned (p.landed w) k = true ↔ bp.newTip ≠ none := by
  rw [hplan.turned_iff]
  constructor
  · rintro ⟨bp', hbp', hk', htip⟩
    rwa [← hplan.branchPlan_unique hbp hbp' hk hk']
  · exact fun htip => ⟨bp, hbp, hk, htip⟩

/-- The changes of the batch, branch by branch. -/
theorem Framed.map_id_changes (hplan : p.Framed w) :
    p.batch.changes.map (·.id) = p.branches.flatMap (·.changes) := by
  have hlists : p.batch.segments.map (fun s => s.changes.map (·.id)) =
      p.branches.map (·.changes) :=
    map_eq_map_of_forall₂ (hplan.branches.imp fun _ _ hbp => hbp.changes_eq.symm)
  rw [Batch.changes, List.map_flatMap, List.flatMap_def, hlists, List.flatMap_def]

/-- The events about branches tell which branches have moved. -/
theorem Of.refEvents_eq (hplan : p.Of w) (hland : w.CanLand p)
    (hascending : (p.batch.segments.map (·.branch)).Pairwise (compare · · = .lt)) :
    (p.moving.filterMap fun bp => bp.newTip.map fun new =>
      Event.refUpdated bp.branch bp.oldTip new) =
    (w.movedRefs (p.landed w)).map fun r => .refUpdated r.1 (w.tip? r.1) r.2 := by
  let moves : List (Branch × CommitId) :=
    p.moving.filterMap fun bp => bp.newTip.map fun tip => (bp.branch, tip)
  have hmoves : moves = w.movedRefs (p.landed w) := by
    refine Table.eq_of_ascending ?_ ((ascending_refs _).filter _) fun e => ?_
    · rw [hplan.map_branch_segments] at hascending
      have hmoving : (p.moving.map (·.branch)).Pairwise (compare · · = .lt) :=
        hascending.sublist (List.filter_sublist.map _)
      refine List.pairwise_filterMap.2 ((List.pairwise_map.1 hmoving).imp ?_)
      intro bp bp' hlt e he e' he'
      obtain ⟨_, _, rfl⟩ := Option.map_eq_some_iff.1 he
      obtain ⟨_, _, rfl⟩ := Option.map_eq_some_iff.1 he'
      exact hlt
    · obtain ⟨b, tip⟩ := e
      rw [mem_movedRefs, ← hplan.get?_tips_iff hland, hplan.get?_tips]
      simp only [moves, List.mem_filterMap, Option.map_eq_some_iff, Prod.mk.injEq]
      constructor
      · rintro ⟨bp, hbp, _, htip, rfl, rfl⟩
        exact ⟨bp, hbp, rfl, htip⟩
      · rintro ⟨bp, hbp, rfl, htip⟩
        exact ⟨bp, hbp, tip, htip, rfl, rfl⟩
  rw [← hmoves, List.map_filterMap]
  refine List.filterMap_congr fun bp hbp => ?_
  rw [Option.map_map, tip?_of_canLand hland hbp |>.symm]
  rfl

/-- The events of a plan: what moves, and for every branch with a tip the changes that are merged there. -/
theorem events_eq_append (p : Plan) : p.events =
    (p.moving.filterMap fun bp =>
      bp.newTip.map fun new => Event.refUpdated bp.branch bp.oldTip new) ++
    p.branches.flatMap fun bp => bp.newTip.elim [] fun tip =>
      bp.changes.map fun k => Event.changeMerged k bp.branch tip p.actor.id := by
  unfold events BranchPlan.events
  refine congrArg (_ ++ ·) (congrArg (p.branches.flatMap ·) (funext fun bp => ?_))
  cases bp.newTip with
  | none => rfl
  | some tip => rfl

/-- The events about changes tell which records have turned. -/
theorem Of.mergeEvents_eq (hplan : p.Of w) (hrefs : w.RefsQualified) (submitter : AccountId) :
    (p.branches.flatMap fun bp => bp.newTip.elim [] fun tip =>
      bp.changes.map fun k => Event.changeMerged k bp.branch tip submitter) =
    (p.batch.changes.filter fun c => w.turned (p.landed w) c.id).filterMap fun c =>
      ((p.landed w).tip? c.dest).map fun tip => .changeMerged c.id c.dest tip submitter := by
  obtain ⟨members, horder⟩ := hplan.ordered
  rw [Batch.changes, List.filter_flatMap, List.filterMap_flatMap, List.flatMap_def,
    List.flatMap_def]
  refine congrArg List.flatten (map_eq_map_of_forall₂ ((mem_of_forall₂ hplan.branches).imp ?_)).symm
  rintro s bp ⟨hs, hbp, hof⟩
  have hturned : ∀ c ∈ s.changes, w.turned (p.landed w) c.id = true ↔ bp.newTip ≠ none := by
    intro c hc
    refine hplan.turned_iff_of_mem hbp ?_
    rw [hof.changes_eq]
    exact List.mem_map_of_mem hc
  cases htip : bp.newTip with
  | none =>
    have hnil : (s.changes.filter fun c => w.turned (p.landed w) c.id) = [] := by
      refine List.filter_eq_nil_iff.2 fun c hc => ?_
      rw [hturned c hc, htip]
      exact fun hne => hne rfl
    rw [hnil, List.filterMap_nil, Option.elim_none]
  | some tip =>
    have hall : (s.changes.filter fun c => w.turned (p.landed w) c.id) = s.changes := by
      refine List.filter_eq_self.2 fun c hc => ?_
      rw [hturned c hc, htip]
      exact Option.some_ne_none tip
    rw [Option.elim_some, hall, hof.changes_eq, List.map_map, ← List.filterMap_eq_map]
    refine List.filterMap_congr fun c hc => ?_
    have hdest : c.dest = bp.branch := by rw [(horder.mem_of_segment hs hc).2, hof.branch_eq]
    rw [hdest, tip?_landed_of_newTip hplan hrefs hbp htip]
    rfl

/-- The events of a plan tell what happens when it is carried out. -/
theorem Of.events_eq (hplan : p.Of w) (hrefs : w.RefsQualified) (hland : w.CanLand p)
    (hascending : (p.batch.segments.map (·.branch)).Pairwise (compare · · = .lt)) :
    p.events = w.news (p.landed w) p.batch.changes p.actor.id := by
  rw [events_eq_append]
  exact congrArg₂ (· ++ ·) (hplan.refEvents_eq hland hascending) (hplan.mergeEvents_eq hrefs _)

/-- What else has happened on the way from `w` to `w'` when a plan was carried out. -/
structure Carried (w w' : World) (p : Plan) : Prop where
  /-- A record that has turned is that of a change of the batch, and it tells who has submitted the
  change and where its branch is now.  Nothing else of it has changed. -/
  turned : ∀ k, w.turned w' k = true → ∃ c ∈ p.batch.changes, c.id = k ∧
    w.changes.get? k = some c ∧ ∃ tip, w'.tip? c.dest = some tip ∧ w'.changes.get? k =
      some { c with status := .merged, submitter := some p.actor.id, mergedAs := some tip }
  /-- All other records are as they were. -/
  records : ∀ k, w.turned w' k = false → w'.changes.get? k = w.changes.get? k
  /-- No ref has disappeared. -/
  refs : ∀ b, w'.tip? b = none → w.tip? b = none
  projects : ∀ q, w'.HasProject q ↔ w.HasProject q
  accounts : w'.accounts = w.accounts
  hidden : w'.hidden = w.hidden
  nextId : w'.nextId = w.nextId
  /-- What was stored is stored. -/
  stored : ∀ q id c, w.commit? q id = some c → w'.commit? q id = some c
  /-- What was added are merge commits of the plan. -/
  added : ∀ q id c, w'.commit? q id = some c →
    w.commit? q id = some c ∨ ∃ d ∈ p.mergesFor q, d.id = id ∧ c = d.commit
  /-- All merge commits of the plan are stored. -/
  merges : ∀ q, ∀ d ∈ p.mergesFor q, (w'.commit? q d.id).isSome

/-- Carrying out a plan does this. -/
theorem Of.carried (hplan : p.Of w) (hrefs : w.RefsQualified) (hland : w.CanLand p) :
    p.Carried w (p.landed w) := by
  have hrun := run_apply_of_canLand hplan hland
  obtain ⟨haccounts, hhidden, hnext⟩ := w.settings_run p.apply
  have hprojects : ∀ q, (w.run p.apply).2.HasProject q ↔ w.HasProject q :=
    run_keeps (I := fun v => ∀ q, v.HasProject q ↔ w.HasProject q)
      (fun v c hv q => (hasProject_answer v c).trans (hv q)) (fun q => Iff.rfl) p.apply
  rw [hrun] at haccounts hhidden hnext hprojects
  refine ⟨fun k hturned => ?_, fun k hturned => ?_, fun b => hplan.tip?_of_landed_none hland,
    hprojects, haccounts, hhidden, hnext, fun q id c hc => ?_, fun q id c hc => ?_,
    fun q d hd => ?_⟩
  · rcases hplan.record_cases k with ⟨bp, hbp, tip, c, hk, htip, hdest, hbefore, _, hafter⟩ |
      ⟨_, hsame⟩
    · obtain ⟨c', hc', hid, _⟩ := (hplan.mem_changes_iff hbp).1 hk
      have hrecorded := (hplan.openRecord c' hc').recorded
      rw [hid, hbefore] at hrecorded
      cases hrecorded
      refine ⟨c, hc', hid, hbefore, tip, ?_, hafter⟩
      rw [hdest]
      exact tip?_landed_of_newTip hplan hrefs hbp htip
    · rw [turned_eq_false_of_eq hsame] at hturned
      cases hturned
  · rcases hplan.record_cases k with ⟨bp, hbp, tip, c, hk, htip, _⟩ | ⟨_, hsame⟩
    · have hturns := (hplan.turned_iff_of_mem hbp hk).2 (by rw [htip]; exact nofun)
      rw [hturned] at hturns
      cases hturns
    · exact hsame
  · rw [commit?_landed]
    exact commit?_withCommits_of_some hplan.hasProject_inserts hc
  · rw [commit?_landed] at hc
    refine (known_of_commit?_withCommits hplan.hasProject_inserts hc).imp_right ?_
    rintro ⟨d, hd, hid, rfl⟩
    exact ⟨d, hplan.draftsFor_subset (mem_inserts.1 hd), hid, rfl⟩
  · obtain ⟨bp, hbp, rfl, hmem⟩ := mem_mergesFor.1 hd
    obtain ⟨c, hc⟩ := hplan.exists_known hbp hmem
    rw [commit?_landed]
    exact hplan.isSome_of_known hc

end Plan

namespace Submission

variable {s after : Service} {policy : Policy} {budget : Nat} {change : ChangeId}
variable {actor : Account}

/-- The events of a submission that succeeds, where nobody else moves a branch, tell exactly what has
happened to the stores: every branch that is not where it was, in branch order, and then every change
whose record has turned into that of a merged change, in the order of the batch.  Nothing else has
happened, but that the merge commits of the plan were stored.  A submission that does not succeed
publishes no event, whatever happens to it. -/
theorem events_mirror_changes {ended : Option (Except Failure Outcome)}
    (hrun : s.run (submit policy budget change actor) = (ended, after)) :
    (∀ outcome, ended = some (.ok outcome) → s.backend.interference = none →
      s.world.RefsQualified → s.world.Keyed →
      ∃ p, s.world.planned policy budget change actor = some (.ok p) ∧ p.actor = actor ∧
        after.recorded =
          s.recorded ++ s.world.news after.world p.batch.changes actor.id ∧
        (s.world.movedRefs after.world).Pairwise (fun r r' => compare r.1 r'.1 = .lt) ∧
        (p.batch.segments.map (·.branch)).Pairwise (compare · · = .lt) ∧
        (∀ seg ∈ p.batch.segments, ∀ c ∈ seg.changes, c.dest = seg.branch) ∧
        (p.batch.changes.map (·.id)).Nodup ∧
        p.Carried s.world after.world) ∧
    ((∀ outcome, ended ≠ some (.ok outcome)) → after.recorded = s.recorded) := by
  constructor
  · rintro outcome rfl hquiet hrefs hkeyed
    obtain ⟨p, hplanned, hplan, hland, hlanded, _, hrecorded⟩ :=
      exists_plan_of_success hquiet hkeyed hrun
    obtain ⟨h', hyields⟩ := World.yields_of_planned hkeyed hplanned
    obtain ⟨hascending, _, hnodup, hactor⟩ := yields_plan_order hyields
    obtain ⟨members, horder⟩ := hplan.ordered
    rw [hrecorded, hlanded, hplan.events_eq hrefs hland hascending, hactor]
    exact ⟨p, hplanned, hactor, rfl, (ascending_refs _).filter _, hascending,
      fun seg hseg c hc => (horder.mem_of_segment hseg hc).2, hnodup, hplan.carried hrefs hland⟩
  · intro hno
    rcases recorded_of_run_submit hrun with ⟨outcome, _, _, hended, _⟩ | ⟨_, hrecorded⟩
    · exact absurd hended (hno outcome)
    · exact hrecorded

/-- Two branches move and three changes go in, and this is what observers are told. -/
theorem sample_events_mirror :
    let s := Sample.siblings
    ∃ outcome after, s.service.run (submit s.policy s.world.reach s.change s.actor) =
        (some (.ok outcome), after) ∧
      after.recorded = s.world.news after.world s.plan.batch.changes s.actor.id ∧
      after.recorded = [
        .refUpdated (Sample.branch "p") (some Sample.root) Sample.mergeId,
        .refUpdated (Sample.branch "q") (some Sample.root) Sample.z,
        .changeMerged 1 (Sample.branch "p") Sample.mergeId 7,
        .changeMerged 2 (Sample.branch "p") Sample.mergeId 7,
        .changeMerged 3 (Sample.branch "q") Sample.z 7] := by
  intro s
  obtain ⟨outcome, after, hrun, _⟩ := s.exists_run_submit
  have hkeyed : s.service.world.Keyed := s.keyed
  have hunique : ∀ p, s.world.planned s.policy s.world.reach s.change s.actor = some (.ok p) →
      p = s.plan := fun p hp => Except.ok.inj (Option.some.inj (hp.symm.trans s.planned))
  refine ⟨outcome, after, hrun, ?_, ?_⟩
  · obtain ⟨p, hplanned, _, hrecorded, _⟩ :=
      (events_mirror_changes hrun).1 outcome rfl rfl s.refsQualified hkeyed
    rw [hunique p hplanned] at hrecorded
    exact hrecorded
  · obtain ⟨p, hplanned, _, _, _, _, hrecorded⟩ := exists_plan_of_success rfl hkeyed hrun
    rw [hrecorded, hunique p hplanned]
    decide

end Submission
end Landing
