import Landing.Proofs.Submission.Submit

/-!
# Nothing is lost and nothing is left out

The new tip of every branch plan leads to the old tip and to the current commit of
every change of the branch, and after the submission every change with a patch set
leads from the tip that is recorded for it (`Submission.landed_tip_leads`).

Only the heads of a branch are taken, so two things come together: the heads
dominate their segment (`Segment.OrderOf.dominated`), and taking a head loses
nothing (`BranchPlan.HeadsTaken.leads_tip`).

A merge commit whose name is known already is not drafted again.  That it has the
right parents nevertheless is where names have to be free of collisions, among
the stored commits and the merge commits of the plan (`Plan.CollisionFree`).
-/

namespace Landing

open World

namespace Plan

variable {w : World} {p : Plan} {project : ProjectName} {a b id : CommitId} {c : Commit} {d : Draft}

/-- Among the stored commits and the merge commits of the plan, different contents have different
names. -/
def CollisionFree (p : Plan) (w : World) : Prop :=
  Set.InjOn Draft.id (w.storedDrafts ∪ {d | ∃ bp ∈ p.branches, d ∈ bp.drafts})

/-- The stored commits and the merge commits of the plan, each under its name. -/
def named (p : Plan) (w : World) : List (CommitId × Draft) :=
  (w.projects.entries.flatMap fun e => e.2.commits.entries.map fun e' => (e'.1, e'.2.toDraft)) ++
    p.branches.flatMap fun bp => bp.merges.zip bp.drafts

/-- Where names belong to contents, comparing the names as they are listed suffices. -/
theorem Framed.collisionFree (hplan : p.Framed w) {w' : World} (haddressed : w'.ContentAddressed)
    (hnamed : ∀ e ∈ p.named w', ∀ e' ∈ p.named w', e.1 = e'.1 → e.2 = e'.2) :
    p.CollisionFree w' := by
  have hlisted : ∀ d ∈ w'.storedDrafts ∪ {d | ∃ bp ∈ p.branches, d ∈ bp.drafts},
      (d.id, d) ∈ p.named w' := by
    rintro d (⟨project, id, c, hc, rfl⟩ | ⟨bp, hbp, hd⟩)
    · obtain ⟨stored, hproject, hcommit⟩ := exists_project_of_commit?.1 hc
      rw [haddressed project id c hc]
      refine List.mem_append_left _ (List.mem_flatMap.2 ⟨(project, stored), hproject, ?_⟩)
      exact List.mem_map.2 ⟨(id, c), hcommit, rfl⟩
    · obtain ⟨s, _, hof⟩ := hplan.exists_segment hbp
      refine List.mem_append_right _ (List.mem_flatMap.2 ⟨bp, hbp, ?_⟩)
      have hzip : (bp.drafts.map Draft.id).zip (bp.drafts.map id) =
          bp.drafts.map fun d => (d.id, d) := List.zip_map'
      rw [List.map_id] at hzip
      rw [hof.merges_eq, hzip]
      exact List.mem_map.2 ⟨d, hd, rfl⟩
  intro d hd d' hd' hid
  exact hnamed _ (hlisted d hd) _ (hlisted d' hd') hid

/-- The merge commits of all branches of a project. -/
def mergesFor (p : Plan) (project : ProjectName) : List Draft :=
  (p.branches.filter (·.branch.project == project)).flatMap (·.drafts)

theorem mem_mergesFor :
    d ∈ p.mergesFor project ↔ ∃ bp ∈ p.branches, bp.branch.project = project ∧ d ∈ bp.drafts := by
  simp [mergesFor, List.mem_flatMap, and_assoc]

theorem Framed.draftsFor_subset (hplan : p.Framed w) : p.draftsFor project ⊆ p.mergesFor project := by
  intro d hd
  exact mem_mergesFor.2 (hplan.drafted project d hd)

/-- A known commit has the name of its content, which is stored or a merge commit of the plan. -/
theorem Framed.content_of_known (hplan : p.Framed w) (haddressed : w.ContentAddressed)
    (hc : w.Known (p.draftsFor project) project id c) :
    c.toDraft.id = id ∧ c.toDraft ∈ w.storedDrafts ∪ {d | ∃ bp ∈ p.branches, d ∈ bp.drafts} := by
  rcases hc with hstored | ⟨d, hd, hid, rfl⟩
  · exact ⟨haddressed project id c hstored, .inl ⟨project, id, c, hstored, rfl⟩⟩
  · obtain ⟨bp, hbp, _, hmem⟩ := hplan.drafted project d hd
    exact ⟨hid, .inr ⟨bp, hbp, hmem⟩⟩

/-- A known commit with the name of a merge commit, or of a stored commit, is that commit. -/
theorem Framed.toDraft_of_known (hplan : p.Framed w) (haddressed : w.ContentAddressed)
    (hfree : p.CollisionFree w) (hc : w.Known (p.draftsFor project) project d.id c)
    (hd : d ∈ w.storedDrafts ∪ {d | ∃ bp ∈ p.branches, d ∈ bp.drafts}) : c.toDraft = d := by
  obtain ⟨hname, hcontent⟩ := hplan.content_of_known haddressed hc
  exact hfree hcontent hd hname

/-- The merge commits to store take no part in what the branches lead to. -/
theorem Framed.settled (hplan : p.Framed w) (haddressed : w.ContentAddressed)
    (hfree : p.CollisionFree w) (project : ProjectName) :
    w.Settled (p.draftsFor project) project where
  definite := definite_of_injOn haddressed hfree Set.subset_union_left fun d hd => by
    obtain ⟨bp, hbp, _, hmem⟩ := hplan.drafted project d hd
    exact .inr ⟨bp, hbp, hmem⟩
  stored := by
    -- A project with a draft has a branch with heads.
    refine or_iff_not_imp_left.2 fun hne => ?_
    obtain ⟨d, hd⟩ := List.exists_mem_of_ne_nil _ hne
    obtain ⟨bp, hbp, rfl, hmem⟩ := hplan.drafted project d hd
    exact hplan.acceptedStored hbp (.inr (List.ne_nil_of_mem hmem))

/-- The merge commits of a plan that are not to be stored are known under their names, so nothing
is missing in the graph without them. -/
theorem Framed.leads_draftsFor (hplan : p.Framed w) (haddressed : w.ContentAddressed)
    (hfree : p.CollisionFree w) (hleads : w.Leads (p.mergesFor project) project a b) :
    w.Leads (p.draftsFor project) project a b := by
  refine Relation.ReflTransGen.mono (fun x y hparent => ?_) _ _ hleads
  obtain ⟨c, hstored | ⟨d, hd, rfl, rfl⟩, hy⟩ := hparent
  · exact ⟨c, .inl hstored, hy⟩
  · -- The merge commit is stored or drafted, under its name and with its content.
    obtain ⟨bp, hbp, rfl, hmem⟩ := mem_mergesFor.1 hd
    obtain ⟨c, hc⟩ := hplan.exists_known hbp hmem
    have hsame := hplan.toDraft_of_known haddressed hfree hc (.inr ⟨bp, hbp, hmem⟩)
    refine ⟨c, hc, ?_⟩
    show y ∈ c.toDraft.parents
    rw [hsame]
    exact hy

/-- What a plan has planned is found in every world where its merge commits were stored beside what
was stored when the plan was made. -/
theorem Framed.leads_stored (hplan : p.Framed w) {w' : World} (hstored : w.StoredIn w')
    (hdrafts : ∀ d ∈ p.draftsFor project, (w'.commit? project d.id).isSome)
    (haddressed : w'.ContentAddressed) (hfree : p.CollisionFree w')
    (hleads : w.Leads (p.draftsFor project) project a b) : w'.Leads [] project a b := by
  refine Relation.ReflTransGen.mono (fun x y hparent => ?_) _ _ hleads
  obtain ⟨c, hc | ⟨d, hd, rfl, rfl⟩, hy⟩ := hparent
  · exact ⟨c, known_nil.2 (hstored project x c hc), hy⟩
  · -- What is stored under the name of the merge commit has its content.
    obtain ⟨c, hc⟩ := Option.isSome_iff_exists.1 (hdrafts d hd)
    obtain ⟨bp, hbp, _, hmem⟩ := hplan.drafted project d hd
    have hsame : c.toDraft = d :=
      hfree (.inl ⟨project, d.id, c, hc, rfl⟩) (.inr ⟨bp, hbp, hmem⟩)
        (haddressed project d.id c hc)
    refine ⟨c, known_nil.2 hc, ?_⟩
    show y ∈ c.toDraft.parents
    rw [hsame]
    exact hy

/-- Everything behind the commit was stored when the plan was made, or it is one of the merge commits. -/
def Reached (w : World) (project : ProjectName) (merges : List Draft) (x : CommitId) : Prop :=
  w.Whole project x ∨ ∃ d ∈ merges, d.id = x

/-- The history of what a branch is made of was stored. -/
theorem Framed.reached_of_origin (hplan : p.Framed w) {bp : BranchPlan} (hbp : bp ∈ p.branches)
    {s : Segment} (hs : s ∈ p.batch.segments) (hbranch : s.branch = bp.branch)
    (hheads : bp.newTip ≠ bp.oldTip ∨ bp.drafts ≠ []) {merges : List Draft} {x : CommitId}
    (horigin : BranchPlan.OriginIn (s.headChanges.filterMap (·.currentCommit?)) bp merges x) :
    Reached w bp.branch.project merges x := by
  rcases horigin with hold | hhead | hdraft
  · exact .inl (hplan.whole_oldTip hbp hheads hold)
  · obtain ⟨t, ht, htop⟩ := List.mem_filterMap.1 hhead
    have hwhole := hplan.whole_head hs ht htop
    rw [hbranch] at hwhole
    exact .inl hwhole
  · exact .inr hdraft

/-- The parents of a merge commit are reached by the merge commits before it. -/
theorem Framed.reached_parent (hplan : p.Framed w) {bp : BranchPlan} (hbp : bp ∈ p.branches)
    {earlier later : List Draft} (hsplit : bp.drafts = earlier ++ d :: later) {x : CommitId}
    (hx : x ∈ d.parents) : Reached w bp.branch.project earlier x := by
  obtain ⟨s, hs, hof⟩ := hplan.exists_segment hbp
  have hne : bp.drafts ≠ [] := by simp [hsplit]
  exact hplan.reached_of_origin hbp hs hof.branch_eq.symm (.inr hne)
    (hof.parents_before earlier d later hsplit x hx)

/-- What is reached by the first merge commits of a branch leads to nothing else, in a world with these
commits. -/
theorem Framed.reached_closed (hplan : p.Framed w) {w' : World} (hstored : w.StoredIn w')
    (haddressed : w'.ContentAddressed) (hfree : p.CollisionFree w') {bp : BranchPlan}
    (hbp : bp ∈ p.branches) {earlier later : List Draft} (hsplit : bp.drafts = earlier ++ later)
    {x y : CommitId} (hx : Reached w bp.branch.project earlier x)
    (hparent : w'.Parent [] bp.branch.project x y) : Reached w bp.branch.project earlier y := by
  rcases hx with hwhole | ⟨d, hd, rfl⟩
  · exact .inl (hwhole.leads (hwhole.leads_of_storedIn hstored hparent.leads))
  · -- What is stored under the name of the merge commit has its content.
    obtain ⟨c, hc, hy⟩ := hparent
    rw [known_nil] at hc
    have hmem : d ∈ bp.drafts := by simp [hsplit, hd]
    have hsame : c.toDraft = d :=
      hfree (.inl ⟨_, _, c, hc, rfl⟩) (.inr ⟨bp, hbp, hmem⟩) (haddressed _ _ c hc)
    have hy : y ∈ d.parents := by
      rw [← hsame]
      exact hy
    obtain ⟨before, after, rfl⟩ := List.append_of_mem hd
    have hcut : bp.drafts = before ++ d :: (after ++ later) := by simp [hsplit]
    refine (hplan.reached_parent hbp hcut hy).imp_right ?_
    rintro ⟨d', hd', hid⟩
    exact ⟨d', by simp [hd'], hid⟩

/-- Where the merge commits of a plan were stored, everything behind the new tip of a branch that moves
is stored. -/
theorem Framed.whole_newTip (hplan : p.Framed w) {w' : World} (hstored : w.StoredIn w')
    (hdrafts : ∀ project, ∀ d ∈ p.draftsFor project, (w'.commit? project d.id).isSome)
    (haddressed : w'.ContentAddressed) (hfree : p.CollisionFree w') {bp : BranchPlan}
    (hbp : bp ∈ p.moving) {tip : CommitId} (htip : bp.newTip = some tip) :
    w'.Whole bp.branch.project tip := by
  obtain ⟨hbranch, hmoves⟩ := mem_moving.1 hbp
  obtain ⟨s, hs, hof⟩ := hplan.exists_segment hbranch
  obtain ⟨tip', htip', hne⟩ := BranchPlan.movesRef_iff.1 hmoves
  have hmoved : bp.newTip ≠ bp.oldTip := by
    rw [htip']
    exact hne.symm
  have hreached : Reached w bp.branch.project bp.drafts tip :=
    hplan.reached_of_origin hbranch hs hof.branch_eq.symm (.inl hmoved) (hof.tip_origin tip htip)
  intro x hx
  rcases hx.closed (S := Reached w bp.branch.project bp.drafts)
    (fun y z hy hparent => hplan.reached_closed hstored haddressed hfree hbranch
      (List.append_nil _).symm hy hparent) hreached with hwhole | ⟨d, hd, rfl⟩
  · exact hstored.isSome hwhole.stored
  · obtain ⟨c, hc⟩ := hplan.exists_known hbranch hd
    rcases hc with hc | ⟨d', hd', hid, _⟩
    · rw [hstored _ _ _ hc]
      rfl
    · rw [← hid]
      exact hdrafts _ d' hd'

/-- Storing a merge commit of a plan closes no circle. -/
theorem Framed.acyclic_withCommit (hplan : p.Framed w) {w' : World} (hstored : w.StoredIn w')
    (hacyclic : w'.Acyclic) (haddressed : w'.ContentAddressed) (hproject : w'.HasProject project)
    (hd : d ∈ p.draftsFor project) (hfree : p.CollisionFree (w'.withCommit project d)) :
    (w'.withCommit project d).Acyclic := by
  by_cases hknown : (w'.commit? project d.id).isSome
  · -- The name is taken, so nothing is added.
    refine hacyclic.of_storedIn fun q id c hc => ?_
    rcases commit?_withCommit_cases hproject hc with hold | ⟨hnone, rfl, rfl, _⟩
    · exact hold
    · rw [hnone] at hknown
      cases hknown
  have hprojects : ∀ e ∈ [(project, d)], w'.HasProject e.1 := by simpa using hproject
  have haddressed' : (w'.withCommit project d).ContentAddressed :=
    haddressed.withCommits (l := [(project, d)]) hprojects
  have hstored' : w'.StoredIn (w'.withCommit project d) :=
    storedIn_withCommits (l := [(project, d)]) hprojects
  obtain ⟨bp, hbp, rfl, hmem⟩ := hplan.drafted project d hd
  obtain ⟨earlier, later, hsplit, hfirst⟩ := List.eq_append_cons_of_mem hmem
  -- The new commit is not among what its parents lead to.
  have hnot : ¬ Reached w bp.branch.project earlier d.id := by
    rintro (hwhole | ⟨d', hd', hid⟩)
    · exact hknown (hstored.isSome hwhole.stored)
    · have hsame : d' = d :=
        hfree (.inr ⟨bp, hbp, by simp [hsplit, hd']⟩) (.inr ⟨bp, hbp, hmem⟩) hid
      exact hfirst (hsame ▸ hd')
  have hbehind : ∀ y, Relation.TransGen
      ((w'.withCommit bp.branch.project d).Parent [] bp.branch.project) d.id y →
        Reached w bp.branch.project earlier y := by
    intro y hy
    induction hy with
    | single hparent =>
      obtain ⟨c, hc, hy⟩ := hparent
      rw [known_nil] at hc
      have hsame : c.toDraft = d :=
        hfree (.inl ⟨_, _, c, hc, rfl⟩) (.inr ⟨bp, hbp, hmem⟩) (haddressed' _ _ c hc)
      exact hplan.reached_parent hbp hsplit (hsame ▸ hy)
    | tail _ hparent ih =>
      exact hplan.reached_closed (hstored.trans hstored') haddressed' hfree hbp hsplit ih hparent
  intro q id hcircle
  -- A circle of other commits would have been there before.
  have hlink : ∀ x y, (w'.withCommit bp.branch.project d).Parent [] q x y →
      x = d.id ∧ q = bp.branch.project ∨ w'.Parent [] q x y := by
    rintro x y ⟨c, hc, hy⟩
    rcases commit?_withCommit_cases hproject (known_nil.1 hc) with hold | ⟨_, hq, hx, _⟩
    · exact .inr ⟨c, known_nil.2 hold, hy⟩
    · exact .inl ⟨hx, hq⟩
  by_cases hq : q = bp.branch.project
  · subst hq
    rcases transGen_or_visits (fun x y hparent => (hlink x y hparent).imp_left (·.1)) hcircle with
      hold | ⟨hto, hfrom⟩
    · exact hacyclic _ id hold
    · exact hnot (hbehind d.id (hfrom.trans_left hto))
  · refine hacyclic q id (Relation.TransGen.mono (fun x y hparent => ?_) _ _ hcircle)
    exact (hlink x y hparent).resolve_left fun hsame => hq hsame.2

/-- Storing the merge commits of a plan brings in no other names. -/
theorem Framed.collisionFree_withCommits (hplan : p.Framed w) {w' : World}
    (hprojects : ∀ e ∈ p.inserts, w'.HasProject e.1) (hfree : p.CollisionFree w') :
    p.CollisionFree (w'.withCommits p.inserts) := by
  refine Set.InjOn.mono (Set.union_subset (fun d hd => ?_) fun d hd => .inr hd) hfree
  rcases storedDrafts_withCommits hprojects hd with hold | ⟨q, hmem⟩
  · exact .inl hold
  · obtain ⟨bp, hbp, _, hd⟩ := hplan.drafted q d (mem_inserts.1 hmem)
    exact .inr ⟨bp, hbp, hd⟩

/-- What a plan has planned is found in the world once its merge commits were stored. -/
theorem Framed.leads_withCommits (hplan : p.Framed w) {w' : World} (hstored : w.StoredIn w')
    (hprojects : ∀ e ∈ p.inserts, w'.HasProject e.1) (haddressed : w'.ContentAddressed)
    (hfree : p.CollisionFree w') (hleads : w.Leads (p.draftsFor project) project a b) :
    (w'.withCommits p.inserts).Leads [] project a b := by
  refine hplan.leads_stored (hstored.trans (storedIn_withCommits hprojects)) (fun d hd => ?_)
    (haddressed.withCommits hprojects) (hplan.collisionFree_withCommits hprojects hfree) hleads
  exact isSome_commit?_withCommits hprojects (mem_inserts.2 hd)

/-- What a plan has planned is found in the world after it was applied. -/
theorem Of.leads_landed (hplan : p.Of w) (haddressed : w.ContentAddressed)
    (hfree : p.CollisionFree w) (hleads : w.Leads (p.draftsFor project) project a b) :
    (p.landed w).Leads [] project a b :=
  storedIn_landed.leads
    (hplan.leads_withCommits (.refl w) hplan.hasProject_inserts haddressed hfree hleads)

/-- The new tip of a branch leads to the old one. -/
theorem Framed.leads_oldTip (hplan : p.Framed w) (haddressed : w.ContentAddressed)
    (hfree : p.CollisionFree w) {bp : BranchPlan} (hbp : bp ∈ p.branches) {old : CommitId}
    (hold : bp.oldTip = some old) :
    ∃ tip, bp.newTip = some tip ∧
      w.Leads (p.draftsFor bp.branch.project) bp.branch.project tip old := by
  obtain ⟨s, _, hof⟩ := hplan.exists_segment hbp
  have hmerges : bp.drafts ⊆ p.mergesFor bp.branch.project :=
    fun d hd => mem_mergesFor.2 ⟨bp, hbp, rfl, hd⟩
  obtain ⟨tip, htip, hleads⟩ := hof.leads_old _ hplan.draftsFor_subset hmerges old hold
  rw [← hof.branch_eq] at hleads
  exact ⟨tip, htip, hplan.leads_draftsFor haddressed hfree hleads⟩

/-- The new tip of a branch leads to the current commit of every change of the branch. -/
theorem Framed.leads_change (hplan : p.Framed w) (hacyclic : w.Acyclic) (haddressed : w.ContentAddressed)
    (hfree : p.CollisionFree w) {bp : BranchPlan} (hbp : bp ∈ p.branches) {s : Segment}
    (hs : s ∈ p.batch.segments) (hbranch : s.branch = bp.branch) {change : Change}
    (hchange : change ∈ s.changes) {commit : CommitId}
    (hcommit : change.currentCommit? = some commit) :
    ∃ tip, bp.newTip = some tip ∧
      w.Leads (p.draftsFor bp.branch.project) bp.branch.project tip commit := by
  obtain ⟨s', hs', hof⟩ := hplan.exists_segment hbp
  obtain ⟨members, horder⟩ := hplan.ordered
  have hsame : s' = s :=
    List.inj_on_of_nodup_map horder.nodup hs' hs (hof.branch_eq.symm.trans hbranch.symm)
  subst hsame
  have hmerges : bp.drafts ⊆ p.mergesFor bp.branch.project :=
    fun d hd => mem_mergesFor.2 ⟨bp, hbp, rfl, hd⟩
  -- Some head is above the change, and the tip is above the head.
  obtain ⟨t, ht, top, htop, hbelow⟩ := (horder.segment s' hs').dominated hacyclic hchange hcommit
  obtain ⟨tip, htip, hleads⟩ := hof.leads_head _ hplan.draftsFor_subset hmerges t ht top htop
  have hall := hleads.trans (hbelow.mono (List.nil_subset _))
  rw [← hof.branch_eq] at hall
  exact ⟨tip, htip, hplan.leads_draftsFor haddressed hfree hall⟩

/-- Applying a plan where it was made leaves every branch at or above the tip it had. -/
theorem Of.tip_leads_back (hplan : p.Of w) (hrefs : w.RefsQualified) (haddressed : w.ContentAddressed)
    (hfree : p.CollisionFree w) {b : Branch} {old : CommitId} (hold : w.tip? b = some old) :
    ∃ tip, (p.landed w).tip? b = some tip ∧ (p.landed w).Leads [] b.project tip old := by
  by_cases hmoving : ∃ bp ∈ p.moving, bp.branch = b
  · obtain ⟨bp, hbp, rfl⟩ := hmoving
    obtain ⟨hbranch, _⟩ := mem_moving.1 hbp
    obtain ⟨tip, htip, hleads⟩ := hplan.leads_oldTip haddressed hfree hbranch
      ((hplan.oldTip_eq hrefs hbranch).trans hold)
    exact ⟨tip, tip?_landed hplan.apart (hplan.possible hrefs) hbp htip,
      hplan.leads_landed haddressed hfree hleads⟩
  · refine ⟨old, ?_, .refl⟩
    rw [tip?_landed_of_not_moving hplan.apart (hplan.possible hrefs), hold]
    exact fun bp hbp heq => hmoving ⟨bp, hbp, heq⟩

/-- A change of the batch stands in the plan for its branch. -/
theorem Framed.exists_branchPlan (hplan : p.Framed w) {change : Change}
    (hchange : change ∈ p.batch.changes) :
    ∃ bp ∈ p.branches, bp.branch = change.dest ∧ change.id ∈ bp.changes := by
  obtain ⟨members, horder⟩ := hplan.ordered
  obtain ⟨s, hs, _, hdest⟩ := horder.mem_segment hchange
  obtain ⟨bp, hbp, hof⟩ := exists_right_of_forall₂ hplan.branches hs
  have hbranch : bp.branch = change.dest := hof.branch_eq.trans hdest.symm
  exact ⟨bp, hbp, hbranch, (hplan.mem_changes_iff hbp).2 ⟨change, hchange, rfl, hbranch.symm⟩⟩

/-- The new tip of the branch of a change leads to the current commit of the change. -/
theorem Framed.leads_current (hplan : p.Framed w) (hacyclic : w.Acyclic)
    (haddressed : w.ContentAddressed) (hfree : p.CollisionFree w) {change : Change}
    (hchange : change ∈ p.batch.changes) {bp : BranchPlan} (hbp : bp ∈ p.branches)
    (hbranch : bp.branch = change.dest) {commit : CommitId}
    (hcommit : change.currentCommit? = some commit) :
    ∃ tip, bp.newTip = some tip ∧
      w.Leads (p.draftsFor change.dest.project) change.dest.project tip commit := by
  obtain ⟨members, horder⟩ := hplan.ordered
  obtain ⟨s, hs, hmem, hdest⟩ := horder.mem_segment hchange
  rw [← hbranch]
  exact hplan.leads_change hacyclic haddressed hfree hbp hs (hdest.symm.trans hbranch.symm) hmem
    hcommit

end Plan

/-- No two contents have one name. -/
theorem Sample.siblings_collisionFree : siblings.plan.CollisionFree siblings.world :=
  siblings.plan_of.collisionFree siblings.contentAddressed (by decide +kernel)

namespace Submission

/-- For every plan that planning comes to: in the graph of the stored commits and the merge commits
to store, the new tip of every branch leads to the tip that was seen and to the current commit of
every change of the branch.  After a submission that succeeds, every change of the batch with a
current commit is recorded as merged with a tip that leads to this commit. -/
theorem landed_tip_leads {s : Service} {w : World} (hcalm : s.backend = .calm w)
    (hkeyed : w.Keyed) (hacyclic : w.Acyclic) (haddressed : w.ContentAddressed)
    {policy : Policy} {budget : Nat} {change : ChangeId} {actor : Account} {p : Plan}
    (hplanned : (s.run (withHistory budget (plan policy change actor))).1 = some (.ok p))
    (hfree : p.CollisionFree w) :
    (∀ bp ∈ p.branches,
      (∀ old, bp.oldTip = some old → ∃ tip, bp.newTip = some tip ∧
        w.Leads (p.draftsFor bp.branch.project) bp.branch.project tip old) ∧
      ∀ segment ∈ p.batch.segments, segment.branch = bp.branch → ∀ c ∈ segment.changes,
        ∀ commit, c.currentCommit? = some commit → ∃ tip, bp.newTip = some tip ∧
          w.Leads (p.draftsFor bp.branch.project) bp.branch.project tip commit) ∧
    ∀ outcome after, s.run (submit policy budget change actor) = (some (.ok outcome), after) →
      ∀ c ∈ p.batch.changes, ∀ commit, c.currentCommit? = some commit →
        ∃ record tip, after.world.changes.get? c.id = some record ∧
          record.mergedAs = some tip ∧ after.world.Leads [] c.dest.project tip commit := by
  have hplan : p.Of w := of_run_plan hcalm hkeyed hplanned
  refine ⟨fun bp hbp => ⟨fun old hold => ?_, fun segment hsegment hbranch c hc commit hcommit => ?_⟩,
    fun outcome after hsubmit c hc commit hcommit => ?_⟩
  · exact hplan.leads_oldTip haddressed hfree hbp hold
  · exact hplan.leads_change hacyclic haddressed hfree hbp hsegment hbranch hc hcommit
  · obtain ⟨_, _, hworld⟩ := landed_of_run_submit hcalm hkeyed hplanned hsubmit
    -- The plan of the branch of the change records the tip.
    obtain ⟨bp, hbp, hbranch, hlisted⟩ := hplan.exists_branchPlan hc
    obtain ⟨tip, htip, hleads⟩ := hplan.leads_current hacyclic haddressed hfree hc hbp hbranch hcommit
    rw [hworld]
    refine ⟨c.markMerged tip p.actor.id, tip, ?_, rfl, ?_⟩
    · rw [hplan.get?_changes_landed hbp htip hlisted, (hplan.openRecord c hc).recorded]
      rfl
    · exact hplan.leads_landed haddressed hfree hleads

/-- The siblings are merged, and the merge commit leads to the second one. -/
theorem sample_tip_leads :
    let s := Sample.siblings
    s.world.Keyed ∧ s.world.Acyclic ∧ s.world.ContentAddressed ∧ s.plan.CollisionFree s.world ∧
      (s.service.run (withHistory s.world.reach (plan s.policy s.change s.actor))).1 =
        some (.ok s.plan) ∧
      ∃ outcome after, s.service.run (submit s.policy s.world.reach s.change s.actor) =
        (some (.ok outcome), after) ∧
      ∃ record tip, after.world.changes.get? 2 = some record ∧ record.mergedAs = some tip ∧
        after.world.Leads [] "p" tip Sample.y := by
  intro s
  obtain ⟨outcome, after, hrun, _⟩ := s.exists_run_submit
  have hall := landed_tip_leads (s := s.service) (w := s.world) rfl s.keyed s.acyclic
    s.contentAddressed s.run_plan Sample.siblings_collisionFree
  have hmem : Sample.change 2 "p" Sample.y ∈ s.plan.batch.changes := by decide +kernel
  exact ⟨s.keyed, s.acyclic, s.contentAddressed, Sample.siblings_collisionFree, s.run_plan, outcome,
    after, hrun, hall.2 outcome after hrun _ hmem Sample.y rfl⟩

end Submission
end Landing
