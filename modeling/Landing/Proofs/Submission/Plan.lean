import Landing.Proofs.Submission.BranchPlan
import Landing.Proofs.Submission.Validation
import Landing.Submission.Engine

/-!
# What a plan consists of

`Plan.Of` collects what holds of every plan that planning in a world comes to
(`World.yields_plan`): the batch holds open change records whose history is
stored, its dependencies were checked, every segment has a plan that follows the
steps of `BranchPlan.HeadsTaken`, and the commits to store are merge commits of
these plans.

Planning only asks (`Submission.isInquiry_plan`), whatever it comes to.
-/

namespace Landing

open World

/-! ### Commits to store -/

/-- The merge commits of a plan that are to be stored in a project, oldest first. -/
def Plan.draftsFor (p : Plan) (project : ProjectName) : List Draft :=
  (p.newCommits.get? project).getD []

theorem Plan.mem_inserts {p : Plan} {project : ProjectName} {d : Draft} :
    (project, d) ∈ p.inserts ↔ d ∈ p.draftsFor project := by
  have hentry : ∀ e ∈ p.newCommits.entries, p.newCommits.get? e.1 = some e.2 :=
    fun e he => (Table.get?_eq_some_iff ..).2 he
  unfold Plan.inserts Plan.draftsFor
  constructor
  · intro hmem
    obtain ⟨e, he, hd⟩ := List.mem_flatMap.1 hmem
    obtain ⟨d', hd', heq⟩ := List.mem_map.1 hd
    cases heq
    rw [hentry e he]
    exact hd'
  · intro hd
    cases hget : p.newCommits.get? project with
    | none => simp [hget] at hd
    | some l =>
      rw [hget] at hd
      refine List.mem_flatMap.2 ⟨(project, l), (Table.get?_eq_some_iff ..).1 hget, ?_⟩
      exact List.mem_map.2 ⟨d, hd, rfl⟩

/-- The created commits of a history are those that it drafted, project by project. -/
theorem History.get?_created (h : History) (project : ProjectName) :
    (h.created.get? project).getD [] = (h.view project).created := by
  have hiff : ∀ l, h.created.get? project = some l ↔
      (h.views.get? project).map (·.created) = some l ∧ (!l.isEmpty) = true := by
    intro l
    rw [History.created, Table.get?_filter_eq_some_iff, Table.get?_map]
  unfold History.view
  cases hview : h.views.get? project with
  | none =>
    rw [hview] at hiff
    cases hget : h.created.get? project with
    | none => rfl
    | some l => exact absurd ((hiff l).1 hget).1 (by simp)
  | some v =>
    rw [hview] at hiff
    cases hget : h.created.get? project with
    | none =>
      -- A project with drafts would be listed.
      by_cases hempty : v.created = []
      · simp [hempty]
      · have hlisted := (hiff v.created).2 ⟨rfl, by simpa using hempty⟩
        rw [hget] at hlisted
        cases hlisted
    | some l =>
      have hl := ((hiff l).1 hget).1
      simpa using hl.symm

/-! ### Plans -/

/-- What is said about a plan as far as commits and branches are concerned, when these were read in
`w`: how the batch is ordered, and how every branch takes its changes. -/
structure Plan.Framed (w : World) (p : Plan) : Prop where
  ordered : ∃ members, p.batch.OrderOf w members
  distinct : ∀ c ∈ p.batch.changes, ∀ c' ∈ p.batch.changes, c.id = c'.id → c = c'
  whole : ∀ c ∈ p.batch.changes, w.WholeChange c
  branches : List.Forall₂ (fun s b => BranchPlan.PlanOf w s (p.draftsFor s.branch.project) b)
    p.batch.segments p.branches
  drafted : ∀ project, ∀ d ∈ p.draftsFor project,
    ∃ b ∈ p.branches, b.branch.project = project ∧ d ∈ b.drafts
  housed : ∀ project, p.draftsFor project ≠ [] → (w.projects.get? project).isSome

/-- What is said about a plan that was made with commits and branches read in `w`, when every change
that was shown satisfies `P`. -/
structure Plan.Made (w : World) (P : Change → Prop) (p : Plan) : Prop
    extends Plan.Framed w p where
  shown : ∀ c ∈ p.batch.changes, P c ∧ c.isOpen = true
  checked : ∀ c ∈ p.batch.changes, ∀ own, c.currentCommit? = some own →
    ∀ x, w.Parent [] c.dest.project own x →
      w.DependencyShown P c.dest.project p.batch.commits x

theorem Plan.Made.mono {w : World} {P Q : Change → Prop} {p : Plan} (hplan : p.Made w P)
    (hPQ : ∀ c, P c → Q c) : p.Made w Q :=
  { hplan.toFramed with
    shown := fun c hc => ⟨hPQ c (hplan.shown c hc).1, (hplan.shown c hc).2⟩
    checked := fun c hc own hown x hx => (hplan.checked c hc own hown x hx).mono hPQ }

/-- What is said about a plan that was made in `w`. -/
structure Plan.Of (w : World) (p : Plan) : Prop extends Plan.Framed w p where
  openRecord : ∀ c ∈ p.batch.changes, w.OpenRecord c
  checked : ∀ c ∈ p.batch.changes, ∀ own, c.currentCommit? = some own →
    ∀ x, w.Parent [] c.dest.project own x → w.DependencyMet c.dest.project p.batch.commits x

/-- When the changes that are shown are the records of the world, the plan was made in it. -/
theorem Plan.Made.of {w : World} {p : Plan}
    (hplan : p.Made w fun c => w.changes.get? c.id = some c) : p.Of w :=
  { hplan.toFramed with
    openRecord := fun c hc => ⟨(hplan.shown c hc).1, (hplan.shown c hc).2⟩
    checked := fun c hc own hown x hx => (hplan.checked c hc own hown x hx).met fun _ h => h }

namespace World

variable {w : World} {ds : ProjectName → List Draft} {h h' : History}
variable {policy : Policy} {actor : Account}

/-- The requested change is the one that is shown under the number, and it is open. -/
theorem yields_requestedChange {A : (c : StoreCall) → Except StoreError c.Reply → Prop}
    {change : ChangeId} {requested : Change}
    (hy : Study.Yields A (Submission.requestedChange change actor) h requested h') :
    h' = h ∧ A (.get change) (.ok (some requested)) ∧ requested.isOpen = true := by
  simp only [Submission.requestedChange, yields_bind, yields_planning_ask (c := .get change)] at hy
  obtain ⟨o, _, ⟨hanswer, rfl⟩, hy⟩ := hy
  split at hy
  · exact absurd hy yields_throw
  · next found =>
    simp only [yields_bind, yields_planning_ask (c := .isVisible actor.id found)] at hy
    obtain ⟨seen, _, ⟨_, rfl⟩, hy⟩ := hy
    split at hy
    · split at hy
      · next hopen =>
        obtain ⟨rfl, rfl⟩ := yields_pure.1 hy
        exact ⟨rfl, hanswer, hopen⟩
      · exact absurd hy yields_throw
    · exact absurd hy yields_throw

/-- Resolving a branch comes to its plan. -/
theorem yields_resolveSegment {A : (c : StoreCall) → Except StoreError c.Reply → Prop}
    {segment : Segment} {b : BranchPlan}
    (hy : Study.Yields A (Submission.resolveSegment policy actor segment) h b h') :
    Study.Yields A (BranchPlan.compute policy actor segment) h b h' := by
  simp only [Submission.resolveSegment, yields_bind, yields_read] at hy
  obtain ⟨b', h₁, hb', hend⟩ := hy
  split at hend
  · simp only [yields_bind, yields_tell, yields_pure] at hend
    obtain ⟨_, _, rfl, rfl, rfl⟩ := hend
    exact hb'
  · obtain ⟨rfl, rfl⟩ := yields_pure.1 hend
    exact hb'

/-- Planning the branches one after another, when no plan is given up. -/
theorem yields_branchPlans {segments : List Segment} {plans : List BranchPlan}
    (hf : h.Faithful w ds)
    (hy : w.Yields (segments.mapM (Submission.resolveSegment policy actor)) h plans h')
    (hkept : ∀ b ∈ plans, b.state.problem? = none) :
    ∃ ds', h'.Faithful w ds' ∧
      List.Forall₂ (fun s b => BranchPlan.PlanOf w s (ds' s.branch.project) b) segments plans ∧
      ∀ r, ds r ⊆ ds' r ∧
        ∀ d ∈ ds' r, d ∈ ds r ∨ ∃ b ∈ plans, b.branch.project = r ∧ d ∈ b.drafts := by
  induction segments generalizing ds h plans with
  | nil =>
    obtain ⟨rfl, rfl⟩ := yields_pure.1 hy
    exact ⟨ds, hf, .nil, fun r => ⟨fun _ hd => hd, fun d hd => .inl hd⟩⟩
  | cons s segments ih =>
    simp only [List.mapM_cons, yields_bind, yields_pure] at hy
    obtain ⟨b, h₁, hb, plans', h₂, hplans, rfl, rfl⟩ := hy
    obtain ⟨ds₁, hf₁, hplan, hgrow₁⟩ :=
      yields_branchPlan hf (yields_resolveSegment hb) (hkept b (by simp))
    obtain ⟨ds', hf', hall, hgrow⟩ := ih hf₁ hplans fun b' hb' => hkept b' (by simp [hb'])
    -- The plan of the first branch stays one when more is drafted for the others.
    refine ⟨ds', hf', .cons (hplan.mono (hgrow _).1) hall, fun r => ⟨?_, fun d hd => ?_⟩⟩
    · exact fun _ hd => (hgrow r).1 ((hgrow₁ r).1 hd)
    · rcases (hgrow r).2 d hd with hd | ⟨b', hb', hproject, hdrafts⟩
      · rcases (hgrow₁ r).2 d hd with hd | ⟨rfl, hnew⟩
        · exact .inl hd
        · exact .inr ⟨b, by simp, by rw [hplan.branch_eq], hnew⟩
      · exact .inr ⟨b', by simp [hb'], hproject, hdrafts⟩

/-- The parts of a successful planning, one after another. -/
theorem yields_plan_parts {A : (c : StoreCall) → Except StoreError c.Reply → Prop}
    {change : ChangeId} {p : Plan}
    (hy : Study.Yields A (Submission.plan policy change actor) h p h') :
    ∃ requested h₁ members h₂ h₃ h₄,
      Study.Yields A (Submission.requestedChange change actor) h requested h₁ ∧
      Study.Yields A (Closure.compute policy.wholeTopic actor.id requested) h₁ members h₂ ∧
      Study.Yields A (Batch.order members) h₂ p.batch h₃ ∧
      Study.Yields A (Validation.check actor.id p.batch) h₃ () h₄ ∧
      Study.Yields A (p.batch.segments.mapM (Submission.resolveSegment policy actor)) h₄
        p.branches h' ∧
      (∀ b ∈ p.branches, b.state.problem? = none) ∧ p.actor = actor ∧
        p.newCommits = h'.created := by
  simp only [Submission.plan, yields_bind, yields_read, yields_tell] at hy
  obtain ⟨requested, h₁, hrequested, members, h₂, hmembers, b, h₃, hb, _, h₄, rfl, _, h₅, hcheck,
    plans, h₆, hplans, hend⟩ := hy
  split at hend
  · next hempty =>
    simp only [yields_bind, yields_pure] at hend
    obtain ⟨_, _, ⟨rfl, rfl⟩, rfl, rfl⟩ := hend
    exact ⟨requested, h₁, members, h₂, h₄, h₅, hrequested, hmembers, hb, hcheck, hplans,
      List.filterMap_eq_nil_iff.1 (List.isEmpty_iff.1 hempty), rfl, rfl⟩
  · exact absurd hend yields_throw

/-- What a successful planning comes to, and what its history knows then. -/
theorem yields_plan {P : Change → Prop} {change : ChangeId} {budget : Nat} {p : Plan}
    (hy : Study.Yields (w.Shows P) (Submission.plan policy change actor) (.start budget) p h') :
    p.Made w P ∧ h'.Faithful w p.draftsFor := by
  obtain ⟨requested, h₁, members, h₂, h₃, h₄, hrequested, hmembers, hb, hcheck, hplans, hkept, _,
    hcreated⟩ := yields_plan_parts hy
  -- Up to the plans of the branches nothing is drafted.
  obtain ⟨rfl, hopen⟩ := yields_requestedChange hrequested
  obtain ⟨hf₂, hnodup, hall⟩ := yields_closure (History.faithful_start w budget) hopen hmembers
  obtain ⟨hf₃, horder⟩ := yields_batch hf₂ hnodup (yields_of_shows hb)
  obtain ⟨hf₄, hchecked⟩ := yields_check hf₃ hcheck
  obtain ⟨ds', hf', hbranches, hgrow⟩ := yields_branchPlans hf₄ (yields_of_shows hplans) hkept
  -- What the plan stores is what was drafted on the way, project by project.
  have hdrafts : ∀ project, p.draftsFor project = ds' project := by
    intro project
    rw [Plan.draftsFor, hcreated, History.get?_created, hf'.drafts]
  have hdistinct : ∀ c ∈ p.batch.changes, ∀ c' ∈ p.batch.changes, c.id = c'.id → c = c' :=
    fun c hc c' hc' => List.inj_on_of_nodup_map hnodup (horder.mem_changes.1 hc)
      (horder.mem_changes.1 hc')
  refine ⟨⟨⟨⟨members, horder⟩, hdistinct, fun c hc => (hall c (horder.mem_changes.1 hc)).2, ?_,
    fun project d hd => ?_, fun project hne => ?_⟩,
    fun c hc => (hall c (horder.mem_changes.1 hc)).1, hchecked⟩, ?_⟩
  · refine hbranches.imp fun s b hplan => ?_
    rw [hdrafts]
    exact hplan
  · rw [hdrafts] at hd
    exact ((hgrow project).2 d hd).resolve_left (by simp)
  · rw [hdrafts, ← hf'.drafts project] at hne
    exact (hf'.view project).housed hne
  · have hsame : p.draftsFor = ds' := funext hdrafts
    rw [hsame]
    exact hf'

/-- In a successful planning the branches stand in order, each has a change, and no change is listed
twice. -/
theorem yields_plan_order {P : Change → Prop} {change : ChangeId} {budget : Nat} {p : Plan}
    (hy : Study.Yields (w.Shows P) (Submission.plan policy change actor) (.start budget) p h') :
    (p.batch.segments.map (·.branch)).Pairwise (compare · · = .lt) ∧
      (∀ s ∈ p.batch.segments, s.changes ≠ []) ∧ (p.batch.changes.map (·.id)).Nodup ∧
      p.actor = actor := by
  obtain ⟨requested, h₁, members, h₂, h₃, h₄, hrequested, hmembers, hb, _, _, _, hactor, _⟩ :=
    yields_plan_parts hy
  obtain ⟨rfl, hopen⟩ := yields_requestedChange hrequested
  obtain ⟨hf₂, hnodup, _⟩ := yields_closure (History.faithful_start w budget) hopen hmembers
  obtain ⟨_, horder⟩ := yields_batch hf₂ hnodup (yields_of_shows hb)
  have hbranches := branches_of_batch hb
  refine ⟨?_, fun s hs => horder.changes_ne_nil hbranches hs, horder.nodup_changes hnodup, hactor⟩
  rw [← hbranches]
  exact Table.ascending_keys _

end World

/-! ### Planning only asks -/

namespace Submission

open Study

variable {policy : Policy} {actor : Account} {change : ChangeId}

variable {E : Failure → Prop}

/-- The failures of its own that this step has name the requested change. -/
theorem isInquiry_requestedChange (hmissing : E (.notFound change)) (hhidden : E (.notVisible change))
    (hclosed : ∀ status, E (.notOpen change status)) :
    Study.IsInquiry E (requestedChange change actor) := by
  refine (Planning.isInquiry_ask (c := .get change) trivial).bind fun o => ?_
  split
  · exact isInquiry_throw hmissing
  · next found =>
    refine (Planning.isInquiry_ask (c := .isVisible actor.id found) trivial).bind fun seen => ?_
    split
    · split
      · exact isInquiry_pure _
      · exact isInquiry_throw (hclosed _)
    · exact isInquiry_throw hhidden

theorem isInquiry_resolveSegment {segment : Segment} :
    Study.IsInquiry E (resolveSegment policy actor segment) := by
  refine (Planning.isInquiry_read BranchPlan.isInquiry_compute).bind fun b => ?_
  dsimp only
  split
  · exact (Planning.isInquiry_tell rfl).bind fun _ => isInquiry_pure b
  · exact isInquiry_pure b

/-- Planning asks the stores and gives no orders. -/
theorem isInquiry_plan : Planning.IsInquiry (plan policy change actor) := by
  refine (isInquiry_requestedChange (fun _ _ => Failure.noConfusion) (fun _ _ => Failure.noConfusion)
    fun _ _ _ => Failure.noConfusion).bind fun requested => ?_
  refine (Closure.isInquiry_compute fun _ _ => Failure.noConfusion).bind fun members => ?_
  refine (Planning.isInquiry_read Batch.isInquiry_order).bind fun b => ?_
  refine (Planning.isInquiry_tell rfl).bind fun _ => ?_
  refine (Validation.isInquiry_check fun _ _ _ => Failure.noConfusion).bind fun _ => ?_
  refine (isInquiry_mapM fun s _ => isInquiry_resolveSegment).bind fun plans => ?_
  dsimp only
  split
  · exact isInquiry_get.bind fun h => isInquiry_pure _
  · exact isInquiry_throw fun _ _ => Failure.noConfusion

end Submission
end Landing
