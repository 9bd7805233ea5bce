import Landing.Proofs.Program.Budget
import Landing.Submission.Engine

/-!
# Submissions with more budget

All that a submission does with its budget is to hand it to walks along parent
links, to the search for what must go in, and to the listing of an archive's
commits.  Each of these spends one unit at a time and stops when there is none
left.  So a submission, a preview or an archive that has come to an end with some
budget comes to the same end with every larger one (`Submission.run_submit_of_le`).
-/

namespace Landing

open Study

/-! ### Histories -/

namespace History

variable {project : ProjectName} {visit : CommitId → Reading Visit}

theorem elastic_commit (project : ProjectName) (id : CommitId) : Elastic (commit project id) := by
  refine elastic_get (fun _ _ => rfl) fun h => ?_
  split
  · exact elastic_pure _
  · refine (elastic_ask _).bind fun c => ?_
    refine Elastic.bind (elastic_modify ?_ ?_) fun _ => elastic_pure c
    · exact fun _ _ => rfl
    · exact fun _ => rfl

theorem elastic_parents (project : ProjectName) (id : CommitId) : Elastic (parents project id) :=
  (elastic_commit project id).bind fun c => elastic_pure c.parents

theorem elastic_tips (project : ProjectName) : Elastic (tips project) := by
  refine elastic_get (fun _ _ => rfl) fun h => ?_
  split
  · exact elastic_pure _
  · refine (elastic_ask _).bind fun ts => ?_
    refine Elastic.bind (elastic_modify ?_ ?_) fun _ => elastic_pure ts
    · exact fun _ _ => rfl
    · exact fun _ => rfl

theorem elastic_tip? (branch : Branch) : Elastic (tip? branch) :=
  (elastic_tips branch.project).bind fun _ => elastic_pure _

theorem elastic_addDraft (project : ProjectName) (d : Draft) : Elastic (addDraft project d) := by
  have hsame : ∀ (h : History) budget,
      (h.withBudget budget).draft project d = (h.draft project d).withBudget budget := by
    intro h budget
    show (if (h.view project).commits.contains d.id then _ else _) = _
    rw [draft]
    split
    · rfl
    · rfl
  have hbudget : ∀ h : History, (h.draft project d).budget = h.budget := by
    intro h
    rw [draft]
    split
    · rfl
    · rfl
  exact (elastic_modify hsame hbudget).bind fun _ => elastic_pure d.id

/-- A walk spends one unit of its budget per visited commit. -/
theorem outlasted_walk (hvisit : ∀ c, Elastic (visit c)) {budget budget' : Nat}
    (hle : budget ≤ budget') (t : Trail) (queue : List CommitId) :
    Study.Outlasted (walk project visit budget t queue) (walk project visit budget' t queue) := by
  induction budget generalizing budget' t queue with
  | zero =>
    rw [walk, walk]
    cases t.pending queue with
    | nil => exact elastic_pure t
    | cons next rest => exact outlasted_exhausted _
  | succ budget ih =>
    obtain ⟨budget', rfl⟩ : ∃ n, budget' = n + 1 := ⟨budget' - 1, by omega⟩
    have hrest : budget ≤ budget' := by omega
    rw [walk, walk]
    cases t.pending queue with
    | nil => exact elastic_pure t
    | cons next rest =>
      refine Outlasted.bind (hvisit next) fun v => ?_
      cases v with
      | stop => exact elastic_pure _
      | pass => exact ih hrest _ _
      | enter => exact Outlasted.bind (elastic_parents project next) fun ps => ih hrest _ _

theorem elastic_walkFrom (hvisit : ∀ c, Elastic (visit c)) (starts : List CommitId) :
    Elastic (walkFrom project starts visit) :=
  outlasted_get fun _ _ hle => outlasted_walk hvisit hle _ _

theorem elastic_acceptedCommits (project : ProjectName) : Elastic (acceptedCommits project) := by
  refine elastic_get (fun _ _ => rfl) fun h => ?_
  split
  · exact elastic_pure _
  · refine (elastic_tips project).bind fun ts => ?_
    refine (elastic_walkFrom (fun _ => elastic_pure Visit.enter) _).bind fun t => ?_
    refine Elastic.bind (elastic_modify ?_ ?_) fun _ => elastic_pure t.entered
    · exact fun _ _ => rfl
    · exact fun _ => rfl

theorem elastic_isAccepted (project : ProjectName) (id : CommitId) : Elastic (isAccepted project id) :=
  (elastic_acceptedCommits project).bind fun ids => elastic_pure (ids.contains id)

theorem elastic_unacceptedAncestry (project : ProjectName) (starts : List CommitId) :
    Elastic (unacceptedAncestry project starts) := by
  refine (elastic_walkFrom (fun c => ?_) starts).bind fun t => elastic_pure t.entered
  exact (elastic_isAccepted project c).bind fun b => elastic_pure _

theorem elastic_isAncestor (project : ProjectName) (ancestor descendant : CommitId) :
    Elastic (isAncestor project ancestor descendant) := by
  unfold isAncestor
  split
  · exact elastic_pure true
  · refine (elastic_isAccepted project ancestor).bind fun anywhere => ?_
    refine (elastic_walkFrom (fun c => ?_) _).bind fun t => elastic_pure _
    split
    · exact elastic_pure _
    · split
      · exact elastic_pure _
      · exact (elastic_isAccepted project c).bind fun b => elastic_pure _

theorem elastic_mergeBase? (project : ProjectName) (a b : CommitId) : Elastic (mergeBase? project a b) := by
  refine (elastic_walkFrom (fun c => elastic_pure Visit.enter) _).bind fun t => ?_
  exact (elastic_walkFrom (fun c => elastic_pure _) _).bind fun t' => elastic_pure t'.found

/-- Listing commits spends one unit of the budget per commit whose parents are read. -/
theorem outlasted_arrange (project : ProjectName) (members : List CommitId) {budget budget' : Nat}
    (hle : budget ≤ budget') (stack : List Frame) (listed : List CommitId) :
    Study.Outlasted (arrange project members budget stack listed)
      (arrange project members budget' stack listed) := by
  induction budget generalizing budget' stack listed with
  | zero =>
    rw [arrange, arrange]
    split
    · exact outlasted_exhausted _
    · exact elastic_pure _
  | succ budget ih =>
    obtain ⟨budget', rfl⟩ : ∃ n, budget' = n + 1 := ⟨budget' - 1, by omega⟩
    rw [arrange, arrange]
    split
    · exact Outlasted.bind (elastic_parents project _) fun ps => ih (by omega) _ _
    · exact elastic_pure _

theorem elastic_parentsFirst (project : ProjectName) (commits : List CommitId) :
    Elastic (parentsFirst project commits) :=
  outlasted_get fun _ _ hle => outlasted_arrange project commits hle _ _

end History

/-! ### Closures -/

namespace Closure

theorem elastic_belowMember (change : Change) : Elastic (belowMember change) := by
  unfold belowMember
  split
  · exact elastic_pure []
  · refine (History.elastic_unacceptedAncestry _ _).bind fun ancestry => ?_
    refine Elastic.bind (elastic_mapM (fun id => ?_) ancestry) fun owners => elastic_pure _
    exact elastic_ask _

theorem elastic_onTopic (wholeTopic : Bool) (change : Change) (topics : List String) :
    Elastic (onTopic wholeTopic change topics) := by
  unfold onTopic
  split
  · split
    · exact elastic_pure _
    · exact (elastic_ask _).bind fun mates => elastic_pure _
  · exact elastic_pure _

/-- Growing a closure spends one unit of the budget per change. -/
theorem outlasted_grow (wholeTopic : Bool) {budget budget' : Nat} (hle : budget ≤ budget')
    (s : Closure) (queue : List Change) :
    Study.Outlasted (grow wholeTopic budget s queue) (grow wholeTopic budget' s queue) := by
  induction budget generalizing budget' s queue with
  | zero =>
    cases queue with
    | nil =>
      rw [grow, grow]
      exact elastic_pure s
    | cons change queue => exact outlasted_exhausted _
  | succ budget ih =>
    obtain ⟨budget', rfl⟩ : ∃ n, budget' = n + 1 := ⟨budget' - 1, by omega⟩
    cases queue with
    | nil => exact elastic_pure s
    | cons change queue =>
      refine Outlasted.bind (elastic_belowMember change) fun below => ?_
      refine Outlasted.bind (elastic_onTopic wholeTopic change _) fun r => ?_
      exact ih (by omega) _ _

theorem elastic_compute (wholeTopic : Bool) (actor : AccountId) (requested : Change) :
    Elastic (compute wholeTopic actor requested) := by
  refine Elastic.bind (Elastic.read ?_) fun closure => Elastic.bind ?_ fun seen => ?_
  · exact outlasted_get fun _ _ hle => outlasted_grow wholeTopic hle _ _
  · refine Elastic.bind (elastic_mapM (fun m => ?_) _) fun verdicts => elastic_pure _
    exact elastic_planning_ask _
  · split
    · exact elastic_pure _
    · exact elastic_throw _

end Closure

/-! ### Batches and dependencies -/

namespace Batch

theorem elastic_segment (branch : Branch) (members : List Change) :
    Elastic (Segment.order branch members) := by
  refine Elastic.bind ?_ fun below => by
    split
    · exact elastic_pure _
    · exact outlasted_exhausted _
  refine (elastic_mapM (fun lower => ?_) _).bind fun above => elastic_pure _
  refine (elastic_filterM (fun upper => ?_) _).bind fun above => elastic_pure _
  split
  · exact elastic_pure _
  · exact History.elastic_isAncestor _ _ _

theorem elastic_order (members : List Change) : Elastic (order members) := by
  refine Elastic.bind (elastic_mapM (fun e => ?_) _) fun segments => elastic_pure _
  exact elastic_segment e.1 e.2

end Batch

namespace Validation

theorem elastic_classify (actor : AccountId) (commit dependsOn : CommitId) (owner : Change) :
    Elastic (classify actor commit dependsOn owner) := by
  refine (elastic_planning_ask _).bind fun seen => ?_
  split
  · split
    · split
      · exact elastic_pure _
      · exact elastic_pure _
    · exact elastic_pure _
  · exact elastic_pure _

theorem elastic_firstUnmet (actor : AccountId) (project : ProjectName) (own : CommitId)
    (batchCommits seen queue : List CommitId) :
    Elastic (firstUnmet actor project own batchCommits seen queue) := by
  induction queue generalizing seen with
  | nil => exact elastic_pure none
  | cons c queue ih =>
    rw [firstUnmet]
    split
    · exact ih _
    · refine (Elastic.lift (History.elastic_isAccepted project c)).bind fun b => ?_
      split
      · exact ih _
      · refine (elastic_planning_ask _).bind fun owners => ?_
        split
        · exact ih _
        · split
          · exact elastic_pure _
          · exact (elastic_classify actor own c _).map _

theorem elastic_check (actor : AccountId) (b : Batch) : Elastic (check actor b) := by
  refine (elastic_mapM (fun c => ?_) _).bind fun found => ?_
  · refine Elastic.bind ?_ fun o => elastic_pure _
    unfold obstacle
    split
    · exact elastic_pure none
    · refine (Elastic.lift (History.elastic_parents _ _)).bind fun ps => ?_
      exact elastic_firstUnmet actor _ _ _ [] ps
  · dsimp only
    split
    · exact elastic_pure _
    · exact elastic_throw _

end Validation

/-! ### Branches -/

namespace BranchPlan

theorem elastic_treeAt (project : ProjectName) (id : CommitId) : Elastic (treeAt project id) :=
  (History.elastic_commit project id).bind fun c => elastic_pure c.tree

theorem elastic_coveredBy (project : ProjectName) (commit running : CommitId)
    (integrated : List ChangeId) (changes : List Change) :
    Elastic (coveredBy project commit running integrated changes) := by
  refine elastic_filterM (fun c => ?_) _
  split
  · exact elastic_pure false
  · refine (History.elastic_isAncestor _ _ _).bind fun b => ?_
    split
    · exact (History.elastic_isAncestor _ _ _).bind fun b => elastic_pure _
    · exact elastic_pure false

theorem elastic_draftMerge (policy : Policy) (actor : Account) (project : ProjectName)
    (running commit : CommitId) (covered : List (ChangeId × CommitId)) :
    Elastic (draftMerge policy actor project running commit covered) := by
  refine Elastic.bind ?_ fun base => ?_
  · refine (History.elastic_mergeBase? _ _ _).bind fun base => ?_
    split
    · exact elastic_treeAt _ _
    · exact elastic_pure _
  · refine (elastic_treeAt _ _).bind fun ours => (elastic_treeAt _ _).bind fun theirs => ?_
    split
    · exact elastic_pure _
    · refine (elastic_mapM (fun c => ?_) _).bind fun subjects => ?_
      · exact (History.elastic_commit _ _).bind fun c => elastic_pure _
      · exact (History.elastic_addDraft _ _).bind fun _ => elastic_pure _

theorem elastic_takeHead (policy : Policy) (actor : Account) (segment : Segment) (p : BranchPlan)
    (integrated : List ChangeId) (head : ChangeId) (commit : CommitId) :
    Elastic (takeHead policy actor segment p integrated head commit) := by
  unfold takeHead
  split
  · exact elastic_pure _
  · refine (History.elastic_isAncestor _ _ _).bind fun b => ?_
    split
    · exact elastic_pure _
    · refine (History.elastic_isAncestor _ _ _).bind fun possible => ?_
      split
      · exact elastic_pure _
      · refine (elastic_coveredBy _ _ _ _ _).bind fun covered => ?_
        dsimp only
        split
        · exact elastic_pure _
        · refine (elastic_draftMerge _ _ _ _ _ _).bind fun r => ?_
          split
          · exact elastic_pure _
          · exact elastic_pure _

theorem elastic_takeHeads (policy : Policy) (actor : Account) (segment : Segment) (p : BranchPlan)
    (integrated : List ChangeId) (heads : List Change) :
    Elastic (takeHeads policy actor segment p integrated heads) := by
  induction heads generalizing p integrated with
  | nil => exact elastic_pure _
  | cons head heads ih =>
    rw [takeHeads]
    split
    · exact ih p integrated
    · refine (elastic_takeHead _ _ _ _ _ _ _).bind fun r => ?_
      dsimp only
      split
      · exact elastic_pure _
      · exact ih r.1 r.2

theorem elastic_compute (policy : Policy) (actor : Account) (segment : Segment) :
    Elastic (compute policy actor segment) :=
  (History.elastic_tip? _).bind fun _ => elastic_takeHeads _ _ _ _ _ _

end BranchPlan

/-! ### Submissions -/

namespace Submission

variable {α σ : Type} {policy : Policy} {budget budget' : Nat} {change : ChangeId} {actor : Account}

theorem elastic_requestedChange (change : ChangeId) (actor : Account) :
    Elastic (requestedChange change actor) := by
  refine (elastic_planning_ask _).bind fun o => ?_
  split
  · exact elastic_throw _
  · refine (elastic_planning_ask _).bind fun seen => ?_
    split
    · split
      · exact elastic_pure _
      · exact elastic_throw _
    · exact elastic_throw _

theorem elastic_resolveSegment (policy : Policy) (actor : Account) (segment : Segment) :
    Elastic (resolveSegment policy actor segment) := by
  refine (Elastic.read (BranchPlan.elastic_compute policy actor segment)).bind fun b => ?_
  dsimp only
  split
  · exact (elastic_tell _).bind fun _ => elastic_pure b
  · exact elastic_pure b

theorem elastic_plan (policy : Policy) (change : ChangeId) (actor : Account) :
    Elastic (plan policy change actor) := by
  refine (elastic_requestedChange change actor).bind fun requested => ?_
  refine (Closure.elastic_compute _ _ requested).bind fun members => ?_
  refine (Elastic.read (Batch.elastic_order members)).bind fun b => ?_
  refine (elastic_tell _).bind fun _ => ?_
  refine (Validation.elastic_check _ b).bind fun _ => ?_
  refine (elastic_mapM (elastic_resolveSegment policy actor) _).bind fun plans => ?_
  dsimp only
  split
  · exact elastic_get (fun _ _ => rfl) fun h => elastic_pure _
  · exact elastic_throw _

theorem elastic_bundle (p : Plan) (project : ProjectName) : Elastic (bundle p project) := by
  refine (Elastic.read (History.elastic_unacceptedAncestry _ _)).bind fun reachable => ?_
  refine (Elastic.read (History.elastic_parentsFirst _ _)).bind fun ids => ?_
  exact (elastic_mapM (fun id => Elastic.read (History.elastic_commit _ id)) ids).bind
    fun commits => elastic_pure _

theorem elastic_bundles (policy : Policy) (change : ChangeId) (actor : Account) :
    Elastic (bundles policy change actor) :=
  (elastic_plan policy change actor).bind fun p => elastic_mapM (elastic_bundle p) _

theorem outlasted_withHistory {x : Planning α} (hx : Study.Elastic x) (hle : budget ≤ budget') :
    (withHistory budget x).Outlasted (· = ·) (withHistory budget' x) := by
  refine Program.Outlasted.bind (hx (.start budget) budget' hle) ?_
  rintro ⟨r, h⟩ _ ⟨rfl, _⟩
  exact ⟨r, rfl, rfl⟩

/-- A submission that has come to an end comes to the same end with a larger budget, whatever it runs
against. -/
theorem run_submit_of_le (hle : budget ≤ budget') {host : Program.Host σ} {s s' : σ}
    {r : Except Failure Outcome}
    (hrun : (submit policy budget change actor).run host s = (some r, s')) :
    (submit policy budget' change actor).run host s = (some r, s') := by
  have hplan := outlasted_withHistory (elastic_plan policy change actor) hle
  have hwhole : (submit policy budget change actor).Outlasted (· = ·)
      (submit policy budget' change actor) :=
    ⟨_, rfl, (hplan.bind_same _).bind_same _⟩
  exact hwhole.run hrun

/-- The same is true of a preview. -/
theorem run_preview_of_le (hle : budget ≤ budget') {host : Program.Host σ} {s s' : σ}
    {r : Except Failure (Table Branch CommitId)}
    (hrun : (preview policy budget change actor).run host s = (some r, s')) :
    (preview policy budget' change actor).run host s = (some r, s') := by
  have hplan := outlasted_withHistory (elastic_plan policy change actor) hle
  have hwhole : (preview policy budget change actor).Outlasted (· = ·)
      (preview policy budget' change actor) :=
    ⟨_, rfl, hplan.bind_same _⟩
  exact hwhole.run hrun

/-- The same is true of an archive. -/
theorem run_previewArchive_of_le (hle : budget ≤ budget') {host : Program.Host σ} {s s' : σ}
    {format : ArchiveFormat} {r : Except Failure Archive}
    (hrun : (previewArchive policy budget change actor format).run host s = (some r, s')) :
    (previewArchive policy budget' change actor format).run host s = (some r, s') := by
  have hpacked := outlasted_withHistory (elastic_bundles policy change actor) hle
  have hwhole : (previewArchive policy budget change actor format).Outlasted (· = ·)
      (previewArchive policy budget' change actor format) :=
    ⟨_, rfl, hpacked.bind_same _⟩
  exact hwhole.run hrun

end Submission
end Landing
