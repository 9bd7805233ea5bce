import Landing.Proofs.Store.Passing
import Landing.Proofs.Submission.Atomicity
import Landing.Proofs.Submission.Integration
import Landing.Proofs.Submission.Reliance

/-!
# Stores stay in order

Uploads may bring commits whose parents are missing, and submissions may be
refused any call.  Still, as long as nobody but submissions moves branches, every
branch leads to stored commits only, and every change that is recorded as merged
is on its branch (`World.integrity_of_upkeep`).

`World.Upkeep` lists what is done to the stores.  What all of it preserves is
`World.Sound`, which says besides that full names are used throughout, and that
the contents of all commits are among some drafts in play, of which no two have
one name.

A submission that succeeds leaves the world of its plan behind, since it was
refused nothing; one that fails leaves branches and merged records alone.  For
the first of these the plan has read enough: everything behind the old tips and
the heads is stored, and the rest are merge commits of the plan
(`Plan.Framed.whole_newTip`).
-/

namespace Landing

open World Submission

/-! ### What is done to the stores -/

namespace World

variable {S : Set Draft} {w w' : World}

/-- Something that is done to the stores from beginning to end, with drafts in `S`.  Submissions and
previews may be refused any call; no step of a submission is left that could not be undone. -/
inductive Upkeep (S : Set Draft) (w : World) : World → Prop
  | creates {project : ProjectName} {ident : Signature} (hfresh : ¬ w.HasProject project)
    (hroot : rootDraft project ident ∈ S) : Upkeep S w (w.createProject project ident).2
  | uploads {project : ProjectName} {d : Draft} {r : Commit × World} (hd : d ∈ S)
    (hput : w.putCommit project d = .ok r) : Upkeep S w r.2
  | inserts {c : Change} (hopen : c.isOpen = true) (hfresh : w.changes.get? c.id = none)
    (hdest : c.dest.IsQualified) : Upkeep S w (w.insertChange c)
  | amends {k : ChangeId} {commit : CommitId} {uploader : AccountId} {w' : World}
    (hupdate : w.updateChange k (·.addPatchSet commit uploader) = .ok w') : Upkeep S w w'
  | abandons {k : ChangeId} {w' : World}
    (hupdate : w.updateChange k (fun c => { c with status := .abandoned }) = .ok w') :
    Upkeep S w w'
  | deletes (k : ChangeId) : Upkeep S w (w.deleteChange k)
  | previews (adversary : Adversary) (policy : Policy) (budget : Nat) (change : ChangeId)
    (actor : Account) : Upkeep S w ((preview policy budget change actor).run
      (Trial.host adversary) (Trial.start w none)).2.world
  | submits {adversary : Adversary} {policy : Policy} {budget : Nat} {change : ChangeId}
    {actor : Account} {ended : Option (Except Failure Outcome)} {t : Trial}
    (hrun : (submit policy budget change actor).run (Trial.host adversary) (Trial.start w none) =
      (ended, t))
    (hundone : ∀ step cause, ended ≠ some (.error (.rollbackFailed step cause)))
    (hmerges : ∀ p, w.planned policy budget change actor = some (.ok p) →
      ∀ bp ∈ p.branches, ∀ d ∈ bp.drafts, d ∈ S) : Upkeep S w t.world

/-- The branch of a merged change leads to the tip that is recorded for it. -/
def OnBranch (w : World) (c : Change) : Prop :=
  ∃ merged tip, c.mergedAs = some merged ∧ w.tip? c.dest = some tip ∧
    w.Leads [] c.dest.project tip merged

/-- What is kept in order. -/
structure Sound (S : Set Draft) (w : World) : Prop where
  refs : w.RefsQualified
  dests : ∀ k c, w.changes.get? k = some c → c.dest.IsQualified
  keyed : w.Keyed
  addressed : w.ContentAddressed
  named : w.storedDrafts ⊆ S
  whole : ∀ b tip, w.tip? b = some tip → w.Whole b.project tip
  merged : ∀ k c, w.changes.get? k = some c → c.status = .merged →
    c.submitter.isSome ∧ w.OnBranch c

/-- Storing commits that are in play. -/
theorem Sound.grow (h : w.Sound S) (hstored : w.StoredIn w') (haddressed : w'.ContentAddressed)
    (hnamed : w'.storedDrafts ⊆ S) (htips : ∀ b, w'.tip? b = w.tip? b)
    (hchanges : w'.changes = w.changes) : w'.Sound S where
  refs b tip htip := h.refs b tip ((htips b).symm.trans htip)
  dests k c hget := h.dests k c (hchanges ▸ hget)
  keyed k c hget := h.keyed k c (hchanges ▸ hget)
  addressed := haddressed
  named := hnamed
  whole b tip htip := (h.whole b tip ((htips b).symm.trans htip)).storedIn hstored
  merged k c hget hmerged := by
    obtain ⟨hsubmitter, merged, tip, hmergedAs, htip, hleads⟩ :=
      h.merged k c (hchanges ▸ hget) hmerged
    exact ⟨hsubmitter, merged, tip, hmergedAs, (htips _).trans htip, hstored.leads hleads⟩

/-- Changing records, as long as merged ones are records from before. -/
theorem Sound.rewrite (h : w.Sound S) (hprojects : w'.projects = w.projects) (hkeyed : w'.Keyed)
    (hrecords : ∀ k c, w'.changes.get? k = some c → w.changes.get? k = some c ∨
      c.dest.IsQualified ∧ (c.status = .merged → ∃ c', w.changes.get? k = some c' ∧
        c'.status = .merged ∧ c.submitter = c'.submitter ∧ c.mergedAs = c'.mergedAs ∧
        c.dest = c'.dest)) : w'.Sound S := by
  have htips : ∀ b, w'.tip? b = w.tip? b := by
    intro b
    rw [tip?, hprojects]
    rfl
  have hcommits : ∀ q id, w'.commit? q id = w.commit? q id := by
    intro q id
    rw [commit?, hprojects]
    rfl
  have hstored : w.StoredIn w' := fun q id c hc => (hcommits q id).trans hc
  have hback : w'.StoredIn w := fun q id c hc => (hcommits q id).symm.trans hc
  refine ⟨fun b tip htip => h.refs b tip ((htips b).symm.trans htip), fun k c hget => ?_, hkeyed,
    fun q id c hc => h.addressed q id c (hback q id c hc), hback.storedDrafts.trans h.named,
    fun b tip htip => (h.whole b tip ((htips b).symm.trans htip)).storedIn hstored,
    fun k c hget hmerged => ?_⟩
  · rcases hrecords k c hget with hold | ⟨hdest, _⟩
    · exact h.dests k c hold
    · exact hdest
  · -- The record has the fields of a merged one from before.
    obtain ⟨c', hc', hmerged', hsubmitter, hmergedAs, hdest⟩ : ∃ c', w.changes.get? k = some c' ∧
        c'.status = .merged ∧ c.submitter = c'.submitter ∧ c.mergedAs = c'.mergedAs ∧
        c.dest = c'.dest := by
      rcases hrecords k c hget with hold | ⟨_, hnew⟩
      · exact ⟨c, hold, hmerged, rfl, rfl, rfl⟩
      · exact hnew hmerged
    obtain ⟨hsome, merged, tip, hrecorded, htip, hleads⟩ := h.merged k c' hc' hmerged'
    rw [hsubmitter]
    refine ⟨hsome, merged, tip, hmergedAs.trans hrecorded, ?_, ?_⟩
    · rw [hdest, htips]
      exact htip
    · rw [hdest]
      exact hstored.leads hleads

/-- The first commit of a new project leads to nothing but itself. -/
theorem whole_createProject (w : World) (project : ProjectName) (ident : Signature) :
    (w.createProject project ident).2.Whole project (rootDraft project ident).commit.id := by
  have hfirst : (w.createProject project ident).2.commit? project
      (rootDraft project ident).commit.id = some (rootDraft project ident).commit := by
    rw [commit?_createProject, if_pos rfl, if_pos rfl]
  intro x hx
  have hx : x = (rootDraft project ident).commit.id := by
    refine hx.closed (S := fun x => x = (rootDraft project ident).commit.id) ?_ rfl
    rintro a y rfl ⟨c, hc, hy⟩
    have hsame : some c = some (rootDraft project ident).commit :=
      (known_nil.1 hc).symm.trans hfirst
    cases hsame
    cases hy
  rw [hx, hfirst]
  rfl

/-- A project under a fresh name. -/
theorem Sound.createProject (h : w.Sound S) {project : ProjectName} {ident : Signature}
    (hfresh : ¬ w.HasProject project) (hroot : rootDraft project ident ∈ S) :
    (w.createProject project ident).2.Sound S := by
  have hout := outlives_createProject ident hfresh
  have hmissing : w.projects.get? project = none := by simpa [HasProject] using hfresh
  refine ⟨fun b tip htip => ?_, h.dests, h.keyed, hout.addressed h.addressed, ?_,
    fun b tip htip => ?_, fun k c hget hmerged => ?_⟩
  · rcases tip?_createProject_cases htip with ⟨_, hname, _⟩ | hold
    · rw [Branch.IsQualified, hname]
      decide
    · exact h.refs b tip hold
  · rintro d ⟨q, id, c, hc, rfl⟩
    rcases commit?_createProject_cases hc with ⟨_, _, rfl⟩ | hold
    · exact hroot
    · exact h.named ⟨q, id, c, hold, rfl⟩
  · rcases tip?_createProject_cases htip with ⟨rfl, _, rfl⟩ | hold
    · exact whole_createProject w b.project ident
    · exact (h.whole b tip hold).storedIn hout.stored
  · obtain ⟨hsubmitter, merged, tip, hrecorded, htip, hleads⟩ := h.merged k c hget hmerged
    have hne : c.dest.project ≠ project := by
      intro heq
      simp [tip?, heq, hmissing] at htip
    refine ⟨hsubmitter, merged, tip, hrecorded, ?_, hout.stored.leads hleads⟩
    rw [tip?_createProject, if_neg hne]
    exact htip

/-- Records that are marked as merged where a plan was made. -/
theorem get?_landed_cases {p : Plan} (hplan : p.Of w) {k : ChangeId} {c : Change}
    (hget : (p.landed w).changes.get? k = some c) : w.changes.get? k = some c ∨
      ∃ bp ∈ p.branches, ∃ tip c', bp.newTip = some tip ∧ w.changes.get? k = some c' ∧
        c'.dest = bp.branch ∧ c = c'.markMerged tip p.actor.id := by
  by_cases hmark : ∃ tip submitter, Step.mark k tip submitter ∈ p.steps
  · right
    obtain ⟨tip, submitter, hmem⟩ := hmark
    obtain ⟨⟨bp, hbp, htip, hk⟩, _⟩ := Plan.mark_mem_steps.1 hmem
    obtain ⟨c', hc', rfl, hdest⟩ := (hplan.mem_changes_iff hbp).1 hk
    have hrecorded := (hplan.openRecord c' hc').recorded
    rw [hplan.get?_changes_landed hbp htip hk, hrecorded] at hget
    exact ⟨bp, hbp, tip, c', htip, hrecorded, hdest, (Option.some.inj hget).symm⟩
  · left
    rw [Plan.landed, Step.get?_changes_effects_of_not_marked, changes_withCommits] at hget
    · exact hget
    · exact fun tip submitter hmem => hmark ⟨tip, submitter, hmem⟩

/-- A plan that was made and carried out. -/
theorem Sound.landed (h : w.Sound S) (hnames : Set.InjOn Draft.id S) {p : Plan} (hplan : p.Of w)
    (hmerges : ∀ bp ∈ p.branches, ∀ d ∈ bp.drafts, d ∈ S) : (p.landed w).Sound S := by
  have hland : w.CanLand p := hplan.possible h.refs
  have hprojects := hplan.hasProject_inserts
  have hfree : p.CollisionFree w := by
    refine hnames.mono (Set.union_subset h.named ?_)
    rintro d ⟨bp, hbp, hd⟩
    exact hmerges bp hbp d hd
  have hstored : w.StoredIn (p.landed w) := (storedIn_withCommits hprojects).trans storedIn_landed
  have haddressed : (p.landed w).ContentAddressed := fun q id c hc =>
    h.addressed.withCommits hprojects q id c (landed_storedIn q id c hc)
  have hkeyed : (p.landed w).Keyed := by
    have hrun := run_apply_of_canLand hplan hland
    have hkept := h.keyed.run p.apply
    rw [hrun] at hkept
    exact hkept
  refine ⟨fun b tip htip => ?_, fun k c hget => ?_, hkeyed, haddressed, ?_, fun b tip htip => ?_,
    fun k c hget hmerged => ?_⟩
  · rcases tip?_landed_cases hplan.apart hland htip with hold | ⟨bp, hbp, rfl, _⟩
    · exact h.refs b tip hold
    · obtain ⟨c, hc, hdest⟩ := hplan.exists_change_of_moving hbp
      rw [← hdest]
      exact h.dests c.id c (hplan.openRecord c hc).recorded
  · rcases get?_landed_cases hplan hget with hold | ⟨bp, _, tip, c', _, hc', _, rfl⟩
    · exact h.dests k c hold
    · exact h.dests k c' hc'
  · intro d hd
    rcases storedDrafts_withCommits hprojects (landed_storedIn.storedDrafts hd) with hold | ⟨q, hmem⟩
    · exact h.named hold
    · obtain ⟨bp, hbp, _, hd⟩ := hplan.drafted q d (Plan.mem_inserts.1 hmem)
      exact hmerges bp hbp d hd
  · rcases tip?_landed_cases hplan.apart hland htip with hold | ⟨bp, hbp, rfl, hnew⟩
    · exact (h.whole b tip hold).storedIn hstored
    · have hfree' : p.CollisionFree (p.landed w) :=
        Set.InjOn.mono (Set.union_subset_union_left _ landed_storedIn.storedDrafts)
          (hplan.collisionFree_withCommits hprojects hfree)
      refine hplan.whole_newTip hstored (fun q d hd => ?_) haddressed hfree' hbp hnew
      exact storedIn_landed.isSome (isSome_commit?_withCommits hprojects (Plan.mem_inserts.2 hd))
  · rcases get?_landed_cases hplan hget with hold | ⟨bp, hbp, tip, c', htip, _, hdest, rfl⟩
    · -- The branch has moved upwards, if at all.
      obtain ⟨hsubmitter, merged, tip, hrecorded, htip, hleads⟩ := h.merged k c hold hmerged
      obtain ⟨tip', htip', habove⟩ := hplan.tip_leads_back h.refs h.addressed hfree htip
      exact ⟨hsubmitter, merged, tip', hrecorded, htip', habove.trans (hstored.leads hleads)⟩
    · refine ⟨rfl, tip, tip, rfl, ?_, .refl⟩
      rw [Change.markMerged, hdest]
      exact tip?_landed_of_newTip hplan h.refs hbp htip

/-- A submission that was undone. -/
theorem Sound.undone (h : w.Sound S) {policy : Policy} {budget : Nat} {change : ChangeId}
    {actor : Account} {t : Trial}
    (hundoable : t.Undoable w none (w.plannedInserts policy budget change actor) [])
    (hmerges : ∀ p, w.planned policy budget change actor = some (.ok p) →
      ∀ bp ∈ p.branches, ∀ d ∈ bp.drafts, d ∈ S) : t.world.Sound S := by
  obtain ⟨hmoved, hstay⟩ := hundoable.tips_of_nil
  have htips : ∀ b, t.world.tip? b = w.tip? b := fun b => hstay b fun i hi => by
    cases (hmoved i hi).1
  have hstored : w.StoredIn t.world := hundoable.commits.stored
  have hdrafts : ∀ q id c, t.world.commit? q id = some c → w.commit? q id = some c ∨
      ∃ d ∈ S, d.id = id ∧ c = d.commit := by
    intro q id c hc
    refine (hundoable.commits.added q id c hc).imp_right ?_
    rintro ⟨d, hd, hid, rfl⟩
    obtain ⟨p, hp, hmem⟩ := World.mem_plannedInserts hd
    obtain ⟨bp, hbp, _, hd⟩ := (World.of_planned h.keyed hp).drafted q d hmem
    exact ⟨d, hmerges p hp bp hbp d hd, hid, rfl⟩
  refine ⟨fun b tip htip => h.refs b tip ((htips b).symm.trans htip), fun k c hget => ?_,
    fun k c hget => ?_, fun q id c hc => ?_, ?_, fun b tip htip =>
      (h.whole b tip ((htips b).symm.trans htip)).storedIn hstored, fun k c hget hmerged => ?_⟩
  · rcases hundoable.altered.records_of_nil k with hsame | ⟨c', hc', _, hreopened⟩
    · exact h.dests k c (hsame.symm.trans hget)
    · rw [hreopened] at hget
      cases hget
      exact h.dests k c' hc'
  · rcases hundoable.altered.records_of_nil k with hsame | ⟨c', hc', _, hreopened⟩
    · exact h.keyed k c (hsame.symm.trans hget)
    · rw [hreopened] at hget
      cases hget
      exact h.keyed k c' hc'
  · rcases hdrafts q id c hc with hold | ⟨d, _, hid, rfl⟩
    · exact h.addressed q id c hold
    · exact hid
  · rintro d ⟨q, id, c, hc, rfl⟩
    rcases hdrafts q id c hc with hold | ⟨d, hd, _, rfl⟩
    · exact h.named ⟨q, id, c, hold, rfl⟩
    · exact hd
  · rcases hundoable.altered.records_of_nil k with hsame | ⟨c', _, _, hreopened⟩
    · obtain ⟨hsubmitter, merged, tip, hrecorded, htip, hleads⟩ :=
        h.merged k c (hsame.symm.trans hget) hmerged
      exact ⟨hsubmitter, merged, tip, hrecorded, (htips _).trans htip, hstored.leads hleads⟩
    · -- A reopened record is not a merged one.
      rw [hreopened] at hget
      cases hget
      cases hmerged

/-- A change of one record that leaves branch and submission alone, unless it takes the status of a
merged change away. -/
theorem Sound.updateChange (h : w.Sound S) {k : ChangeId} {f : Change → Change}
    (hupdate : w.updateChange k f = .ok w') (hid : ∀ c, (f c).id = c.id)
    (hdest : ∀ c, (f c).dest = c.dest) (hmerged : ∀ c, (f c).status = .merged →
      c.status = .merged ∧ (f c).submitter = c.submitter ∧ (f c).mergedAs = c.mergedAs) :
    w'.Sound S := by
  obtain ⟨-, rfl⟩ := eq_withChange_of_updateChange hupdate
  refine h.rewrite rfl (h.keyed.withChange hid k) fun k' c hget => ?_
  rw [get?_changes_withChange] at hget
  split at hget
  · next hk =>
    obtain ⟨before, hbefore, rfl⟩ := Option.map_eq_some_iff.1 hget
    rw [hdest]
    refine .inr ⟨h.dests k before hbefore, fun hstatus => ?_⟩
    obtain ⟨hwas, hsubmitter, hmergedAs⟩ := hmerged before hstatus
    exact ⟨before, hk ▸ hbefore, hwas, hsubmitter, hmergedAs, rfl⟩
  · exact .inl hget

/-- A commit that is uploaded. -/
theorem Sound.withCommit (h : w.Sound S) {project : ProjectName} {d : Draft}
    (hproject : w.HasProject project) (hd : d ∈ S) : (w.withCommit project d).Sound S := by
  have hprojects : ∀ e ∈ [(project, d)], w.HasProject e.1 := by simpa using hproject
  refine h.grow (storedIn_withCommits hprojects) (h.addressed.withCommits hprojects)
    (fun d' hd' => ?_) (fun b => tip?_withCommit) changes_withCommit
  rcases storedDrafts_withCommits hprojects hd' with hold | ⟨q, hmem⟩
  · exact h.named hold
  · cases List.mem_singleton.1 hmem
    exact hd

/-- A submission from beginning to end, if it was not kept from undoing its steps. -/
theorem Sound.submission (h : w.Sound S) (hnames : Set.InjOn Draft.id S) {adversary : Adversary}
    {policy : Policy} {budget : Nat} {change : ChangeId} {actor : Account}
    {ended : Option (Except Failure Outcome)} {t : Trial}
    (hrun : (submit policy budget change actor).run (Trial.host adversary) (Trial.start w none) =
      (ended, t))
    (hundone : ∀ step cause, ended ≠ some (.error (.rollbackFailed step cause)))
    (hmerges : ∀ p, w.planned policy budget change actor = some (.ok p) →
      ∀ bp ∈ p.branches, ∀ d ∈ bp.drafts, d ∈ S) : t.world.Sound S := by
  have hsettled := Trial.comes_submit_undoable h.keyed adversary none policy budget change actor
  unfold Trial.Comes at hsettled
  rw [hrun] at hsettled
  cases ended with
  | none => exact h.undone hsettled hmerges
  | some r =>
    cases r with
    | error f =>
      rcases hsettled with ⟨hundoable, _⟩ | ⟨s, cause, rfl, _⟩
      · exact h.undone hundoable hmerges
      · exact absurd rfl (hundone s.describe cause)
    | ok outcome =>
      -- It was refused nothing, so it has made a plan and carried it out.
      have hcalm := Trial.run_eq_of_needs (needs_submit policy budget change actor) rfl hrun
        ⟨outcome, rfl⟩
      obtain ⟨p, hplanned, hplan, _, hlanded⟩ := exists_plan_of_run_submit h.keyed hcalm
      rw [hlanded]
      exact h.landed hnames hplan (hmerges p hplanned)

/-- Everything that is done keeps the stores in order. -/
theorem Sound.upkeep (h : w.Sound S) (hnames : Set.InjOn Draft.id S) (hstep : Upkeep S w w') :
    w'.Sound S := by
  cases hstep with
  | creates hfresh hroot => exact h.createProject hfresh hroot
  | uploads hd hput =>
    obtain ⟨hproject, rfl⟩ := eq_of_putCommit hput
    exact h.withCommit hproject hd
  | @inserts c hopen hfresh hdest =>
    refine h.rewrite rfl (h.keyed.insertChange c) fun k c' hget => ?_
    rcases Table.get?_insert_cases hget with ⟨-, rfl⟩ | hold
    · refine .inr ⟨hdest, fun hmerged => ?_⟩
      rw [Change.isOpen, hmerged] at hopen
      cases hopen
    · exact .inl hold
  | amends hupdate =>
    exact h.updateChange hupdate (fun _ => rfl) (fun _ => rfl) fun _ hstatus => ⟨hstatus, rfl, rfl⟩
  | abandons hupdate =>
    exact h.updateChange hupdate (fun _ => rfl) (fun _ => rfl) fun _ hstatus => by cases hstatus
  | deletes k =>
    have hrecords : ∀ k' c, (w.deleteChange k).changes.get? k' = some c →
        w.changes.get? k' = some c := by
      intro k' c hget
      rw [deleteChange, Table.get?_erase] at hget
      split at hget
      · cases hget
      · exact hget
    exact h.rewrite rfl (fun k' c hget => h.keyed k' c (hrecords k' c hget))
      fun k' c hget => .inl (hrecords k' c hget)
  | previews adversary policy budget change actor =>
    rw [Trial.world_preview]
    exact h
  | submits hrun hundone hmerges => exact h.submission hnames hrun hundone hmerges

end World

namespace Sample

/-- Behind branches that are at the first commit, everything is stored. -/
theorem whole_of_first {w : World} (hrefs : ∀ r ∈ w.refs, r.2 = root)
    (hstored : ∀ r ∈ w.refs, w.commit? r.1.project root = some first) {b : Branch} {tip : CommitId}
    (htip : w.tip? b = some tip) : w.Whole b.project tip := by
  have hmem : (b, tip) ∈ w.refs := mem_refs.2 htip
  have hroot : tip = root := hrefs _ hmem
  subst hroot
  have hfirst : w.commit? b.project root = some first := hstored _ hmem
  intro x hx
  rw [hx.eq_of_no_parents hfirst rfl, hfirst]
  rfl

/-- The drafts in play when the siblings are submitted. -/
def inPlay : Set Draft :=
  siblings.world.storedDrafts ∪ {d | ∃ bp ∈ siblings.plan.branches, d ∈ bp.drafts}

/-- The siblings are submitted. -/
theorem exists_upkeep : ∃ w', siblings.world.Upkeep inPlay w' ∧
    w' = siblings.plan.landed siblings.world := by
  obtain ⟨outcome, after, hrun, hlanded⟩ := siblings.exists_run_submit
  have hstart : siblings.service.Follows [] [] (Trial.start siblings.world none) :=
    ⟨rfl, rfl, rfl, rfl⟩
  obtain ⟨hended, hfollows⟩ := Service.run_eq_trial hstart
    (submit siblings.policy siblings.world.reach siblings.change siblings.actor)
  rw [hrun] at hended hfollows
  cases hresult : (submit siblings.policy siblings.world.reach siblings.change siblings.actor).run
      (Trial.host (.ofFaults [])) (Trial.start siblings.world none) with
  | mk ended t =>
    have hended : some (.ok outcome) = ended := hended.trans (congrArg Prod.fst hresult)
    have hworld : after.world = t.world :=
      hfollows.world.trans (congrArg (·.2.world) hresult)
    subst hended
    refine ⟨t.world, .submits hresult (fun _ _ h => by cases h) fun p hp => ?_, ?_⟩
    · rw [siblings.planned] at hp
      cases hp
      exact fun bp hbp d hd => .inr ⟨bp, hbp, hd⟩
    · rw [← hworld]
      exact hlanded

end Sample

/-! ### Whole runs -/

namespace Submission

/-- Whatever is done to stores that are in order to begin with, in every world that is reached, every
commit behind a branch is stored, and every change that is recorded as merged has a submitter and a tip
that its branch is at or above. -/
theorem integrity_of_upkeep {S : Set Draft} (hnames : Set.InjOn Draft.id S) {w w' : World}
    (hrefs : w.RefsQualified)
    (hdests : ∀ k c, w.changes.get? k = some c → c.dest.IsQualified ∧ c.status ≠ .merged)
    (hkeyed : w.Keyed) (haddressed : w.ContentAddressed) (hnamed : w.storedDrafts ⊆ S)
    (hwhole : ∀ b tip, w.tip? b = some tip → w.Whole b.project tip)
    (hsteps : Relation.ReflTransGen (World.Upkeep S) w w') :
    (∀ b tip, w'.tip? b = some tip → w'.Whole b.project tip) ∧
      ∀ k c, w'.changes.get? k = some c → c.status = .merged →
        c.submitter.isSome ∧ w'.OnBranch c := by
  have hsound : w'.Sound S := by
    induction hsteps with
    | refl =>
      exact ⟨hrefs, fun k c hget => (hdests k c hget).1, hkeyed, haddressed, hnamed, hwhole,
        fun k c hget hmerged => absurd hmerged (hdests k c hget).2⟩
    | tail _ hstep ih => exact ih.upkeep hnames hstep
  exact ⟨hsound.whole, hsound.merged⟩

open Sample in
/-- The siblings are submitted, and the second one is on its branch then. -/
theorem sample_integrity :
    let w := siblings.world
    Set.InjOn Draft.id inPlay ∧ w.RefsQualified ∧
      (∀ k c, w.changes.get? k = some c → c.dest.IsQualified ∧ c.status ≠ .merged) ∧ w.Keyed ∧
      w.ContentAddressed ∧ w.storedDrafts ⊆ inPlay ∧
      (∀ b tip, w.tip? b = some tip → w.Whole b.project tip) ∧
      ∃ w', Relation.ReflTransGen (World.Upkeep inPlay) w w' ∧
        ∃ c, w'.changes.get? 2 = some c ∧ c.status = .merged ∧ c.submitter.isSome ∧
          w'.OnBranch c := by
  intro w
  obtain ⟨w', hstep, hlanded⟩ := exists_upkeep
  have hsteps := Relation.ReflTransGen.single hstep
  have hdests : ∀ k c, w.changes.get? k = some c → c.dest.IsQualified ∧ c.status ≠ .merged :=
    Table.forall_get?_iff.2 (by decide +kernel)
  have hwhole : ∀ b tip, w.tip? b = some tip → w.Whole b.project tip :=
    fun b tip => whole_of_first (by decide +kernel) (by decide +kernel)
  have hall := integrity_of_upkeep siblings_collisionFree siblings.refsQualified hdests
    siblings.keyed siblings.contentAddressed Set.subset_union_left hwhole hsteps
  refine ⟨siblings_collisionFree, siblings.refsQualified, hdests, siblings.keyed,
    siblings.contentAddressed, Set.subset_union_left, hwhole, w', hsteps, ?_⟩
  obtain ⟨bp, hbp, htip, hk, hrecord⟩ : ∃ bp ∈ siblings.plan.branches, bp.newTip = some mergeId ∧
      2 ∈ bp.changes ∧ w.changes.get? 2 = some (change 2 "p" y) := by decide +kernel
  have hmerged : w'.changes.get? 2 =
      some ((change 2 "p" y).markMerged mergeId siblings.plan.actor.id) := by
    rw [hlanded, siblings.plan_of.get?_changes_landed hbp htip hk, hrecord]
    rfl
  exact ⟨_, hmerged, rfl, hall.2 2 _ hmerged rfl⟩

end Submission

namespace Sample

/-- A world where a change is for a branch under a short name, and another one for the branch with the
full name. -/
def shorthand : World :=
  { World.empty with
    projects := Table.ofList [("p", project [second root "y" y])]
    changes := Table.ofList [
      (1, Change.create 1 ⟨"p", "master"⟩ actor.id y), (2, Change.create 2 (branch "p") actor.id y)]
    nextId := 3 }

/-- A submission that is refused nothing. -/
def submitted (w : World) (k : ChangeId) : Option (Except Failure Outcome) × Trial :=
  (submit policy 8 k actor).run (Trial.host (.ofFaults [])) (Trial.start w none)

theorem upkeep_submitted {S : Set Draft} {w : World} {k : ChangeId} {outcome : Outcome}
    (hended : (submitted w k).1 = some (.ok outcome))
    (hmerges : ∀ p ∈ (w.planned policy 8 k actor).bind Except.toOption,
      ∀ bp ∈ p.branches, bp.drafts = []) : w.Upkeep S (submitted w k).2.world := by
  have hrun : submitted w k = (some (.ok outcome), (submitted w k).2) := Prod.ext hended rfl
  refine .submits hrun (fun _ _ h => by cases h) fun p hp bp hbp d hd => ?_
  have hmem : p ∈ (w.planned policy 8 k actor).bind Except.toOption := by
    rw [hp]
    rfl
  rw [hmerges p hmem bp hbp] at hd
  cases hd

/-- No two contents have one name. -/
theorem shorthand_injOn : Set.InjOn Draft.id shorthand.storedDrafts :=
  injOn_commits.mono (storedDrafts_subset (by decide +kernel))

end Sample

namespace Submission

open Sample in
/-- Without full names nothing is sure: a change for the branch under its short name creates a branch
of this name, which the next submission takes for the branch with the full name.  The change that it
was for is recorded as merged and is not on its branch. -/
theorem short_names_mistaken :
    let w := shorthand
    Set.InjOn Draft.id w.storedDrafts ∧ w.RefsQualified ∧
      (∀ k c, w.changes.get? k = some c → c.status ≠ .merged) ∧ w.Keyed ∧ w.ContentAddressed ∧
      w.Acyclic ∧ (∀ b tip, w.tip? b = some tip → w.Whole b.project tip) ∧
      ∃ w', Relation.ReflTransGen (World.Upkeep w.storedDrafts) w w' ∧
        ∃ c, w'.changes.get? 2 = some c ∧ c.status = .merged ∧ ¬ w'.OnBranch c := by
  intro w
  have hfirst : (submitted w 1).1 = some (.ok ⟨Table.empty.insert ⟨"p", "master"⟩ y, [1]⟩) ∧
      ∀ p ∈ (w.planned policy 8 1 actor).bind Except.toOption,
        ∀ bp ∈ p.branches, bp.drafts = [] := by decide +kernel
  have hnext : (submitted (submitted w 1).2.world 2).1 = some (.ok ⟨.empty, [2]⟩) ∧
      ∀ p ∈ ((submitted w 1).2.world.planned policy 8 2 actor).bind Except.toOption,
        ∀ bp ∈ p.branches, bp.drafts = [] := by decide +kernel
  have hend : (submitted (submitted w 1).2.world 2).2.world.changes.get? 2 =
        some ((Change.create 2 (branch "p") actor.id y).markMerged y actor.id) ∧
      (submitted (submitted w 1).2.world 2).2.world.tip? (branch "p") = some root ∧
      (submitted (submitted w 1).2.world 2).2.world.commit? "p" root = some first := by
    decide +kernel
  obtain ⟨hrecord, htip, hroot⟩ := hend
  refine ⟨shorthand_injOn, by decide +kernel, Table.forall_get?_iff.2 (by decide +kernel),
    by decide +kernel, contentAddressed_of_named named (by decide +kernel),
    acyclic_of_rank rank (by decide +kernel),
    fun b tip => whole_of_first (by decide +kernel) (by decide +kernel), _,
    (Relation.ReflTransGen.single (upkeep_submitted hfirst.1 hfirst.2)).tail
      (upkeep_submitted hnext.1 hnext.2), _, hrecord, rfl, ?_⟩
  rintro ⟨merged, tip, hmerged, hat, hleads⟩
  cases hmerged
  have hsame : some tip = some root := hat.symm.trans htip
  cases hsame
  exact absurd (hleads.eq_of_no_parents hroot rfl) (by decide)

end Submission
end Landing
