import Landing.Proofs.History.Pruning
import Landing.Proofs.Submission.LeastClosure
import Landing.Proofs.Submission.LeastOrder

/-!
# Planning comes to an end

Planning comes to an end whatever is stored, be it commits under names that are not
those of their contents or commits that lead back to themselves.  Every step of it
leaves a history that is as sound as before and has room for the merges that may still
be drafted, of which there is at most one for every head (`History.Fit`).  A budget that
exceeds the reach of the world is enough (`World.ends_plan_fit`).
-/

namespace Landing

open History

variable {ε α β : Type}

/-! ### What is needed to go on -/

namespace History

variable {w : World} {h h' : History} {more less : Nat}

/-- Everything remembered is so, and there is room for `more` drafts. -/
structure Fit (w : World) (more : Nat) (h : History) : Prop where
  sound : h.Sound w
  room : h.Roomy w more

theorem Fit.follows (hfit : h.Fit w more) (hf : h.Follows w h') : h'.Fit w more :=
  ⟨hf.sound hfit.sound, hf.roomy hfit.room⟩

theorem Fit.mono (hfit : h.Fit w more) (hle : less ≤ more) : h.Fit w less :=
  ⟨hfit.sound, hfit.room.mono hle⟩

theorem Fit.roomy (hfit : h.Fit w more) : h.Roomy w 0 := hfit.room.mono (Nat.zero_le more)

theorem Fit.draft (hfit : h.Fit w (more + 1)) (project : ProjectName) (d : Draft) :
    (h.draft project d).Fit w more :=
  ⟨hfit.sound.draft d, hfit.room.draft project d⟩

theorem fit_start {budget : Nat} (hbudget : w.reach ≤ budget) :
    (start budget).Fit w (2 * w.changes.size) :=
  ⟨sound_start w budget, (roomy_start (Nat.add_le_add_right hbudget 0)).mono (Nat.le_add_right _ 0)⟩

end History

namespace World

variable {w : World} {h h' : History} {project : ProjectName} {id : CommitId} {n : Nat}
variable {policy : Policy} {actor : Account} {change : ChangeId} {p : Plan}

/-- What informs and comes to an end leaves a history that is as fit as before. -/
theorem Halts.fit {x : Study ε α} (hx : w.Halts x h) (hinforms : w.Informs x) (hfit : h.Fit w n) :
    w.Ends x h (fun _ h' => h'.Fit w n) fun _ => True :=
  (hx.informed hinforms).mono (fun _ _ hf => hfit.follows hf) fun _ he => he

theorem ends_isAncestor_fit (hfit : h.Fit w n) {a d : CommitId} :
    w.Ends (isAncestor project a d) h (fun _ h' => h'.Fit w n) fun _ => True :=
  (halts_isAncestor hfit.sound hfit.roomy).fit informs_isAncestor hfit

theorem ends_commit_fit (hfit : h.Fit w n) :
    w.Ends (History.commit project id) h (fun _ h' => h'.Fit w n) fun _ => True :=
  halts_commit.fit informs_commit hfit

theorem ends_tell_fit (hfit : h.Fit w n) {s : Signal} :
    w.Ends (Planning.tell s) h (fun _ h' => h'.Fit w n) fun _ => True :=
  ends_tell hfit

/-! ### Gathering and ordering -/

theorem informs_belowMember {c : Change} : w.Informs (Closure.belowMember c) := by
  unfold Closure.belowMember
  split
  · exact informs_pure []
  · refine informs_unacceptedAncestry.bind fun ids => ?_
    exact (informs_mapM fun x _ => informs_ask (.byCommit c.dest.project x)).bind fun owners =>
      informs_pure _

theorem informs_onTopic {wholeTopic : Bool} {c : Change} {topics : List String} :
    w.Informs (Closure.onTopic wholeTopic c topics) := by
  unfold Closure.onTopic
  split
  · split
    · exact informs_pure _
    · exact (informs_ask (.openByTopic _)).bind fun found => informs_pure _
  · exact informs_pure _

theorem informs_grow {wholeTopic : Bool} (budget : Nat) (s : Closure) (queue : List Change) :
    w.Informs (Closure.grow wholeTopic budget s queue) := by
  induction budget generalizing s queue with
  | zero =>
    cases queue with
    | nil => exact informs_pure s
    | cons c queue => exact informs_exhausted
  | succ budget ih =>
    cases queue with
    | nil => exact informs_pure s
    | cons c queue => exact informs_belowMember.bind fun below => informs_onTopic.bind fun r => ih _ _

theorem informs_compute {wholeTopic : Bool} {actor : AccountId} {requested : Change} :
    w.Informs (Closure.compute wholeTopic actor requested) := by
  refine (Informs.read (informs_get.bind fun h => informs_grow _ _ _)).bind fun s => ?_
  refine Informs.bind ?_ fun seen => ?_
  · exact (informs_mapM fun m _ => informs_planning_ask (.isVisible actor m)).bind fun verdicts =>
      informs_pure _
  · split
    · exact informs_pure _
    · exact informs_throw _

/-- Ordering the changes of one branch comes to an end. -/
theorem ends_segment_order (hfit : h.Fit w n) {branch : Branch} {members : List Change} :
    w.Ends (Segment.order branch members) h (fun _ h' => h'.Fit w n) fun _ => True := by
  have hpairs : w.Ends (Segment.pairs branch.project (Segment.placed members)) h
      (fun _ h' => h'.Fit w n) fun _ => True := by
    refine Ends.bind (ends_mapM (I := fun h' => h'.Fit w n) (R := fun _ _ => True)
      (fun lower _ h₁ hfit₁ => ?_) hfit) fun _ _ hlists => ends_pure hlists.1
    refine (ends_filterM (I := fun h' => h'.Fit w n) (fun upper _ h₂ hfit₂ => ?_) hfit₁).bind
      fun _ _ hfit₃ => ends_pure ⟨hfit₃, trivial⟩
    split
    · exact ends_pure hfit₂
    · exact ends_isAncestor_fit hfit₂
  refine (hpairs.and_yields (x := Segment.pairs branch.project (Segment.placed members))
    fun below h' hy => Segment.mem_keys_of_pairs hy).bind fun below h₁ hboth => ?_
  -- Pairs of members never make a counter go below zero.
  rw [Segment.list?_byId hboth.2]
  exact ends_pure hboth.1

theorem ends_batch_order (hfit : h.Fit w n) (changes : List Change) :
    w.Ends (Batch.order changes) h (fun _ h' => h'.Fit w n) fun _ => True :=
  Ends.bind (ends_mapM (I := fun h' => h'.Fit w n) (R := fun _ _ => True)
    (fun _ _ _ hfit₁ => (ends_segment_order hfit₁).mono (fun _ _ hfit₂ => ⟨hfit₂, trivial⟩)
      fun _ he => he) hfit) fun _ _ hsegments => ends_pure hsegments.1

/-! ### Checking -/

theorem ends_firstUnmet_fit (hfit : h.Fit w n) {own : CommitId} {batchCommits seen queue : List CommitId} :
    w.Ends (Validation.firstUnmet actor.id project own batchCommits seen queue) h
      (fun _ h' => h'.Fit w n) fun _ => True := by
  induction queue generalizing seen h with
  | nil => exact ends_pure hfit
  | cons c queue ih =>
    rw [Validation.firstUnmet]
    split
    · exact ih hfit
    refine (Ends.read ((halts_isAccepted hfit.sound hfit.roomy).fit informs_isAccepted hfit)).bind
      fun b h₁ hfit₁ => ?_
    split
    · exact ih hfit₁
    have hasked : w.Ends (Planning.ask (.byCommit project c)) h₁ (fun _ h' => h'.Fit w n)
        fun _ => True := ends_planning_ask (fun _ _ => hfit₁) fun _ _ => trivial
    refine hasked.bind fun owners h₂ hfit₂ => ?_
    split
    · exact ih hfit₂
    split
    · exact ends_pure hfit₂
    · next owner _ =>
      refine Ends.map ((ends_planning_ask (c := .isVisible actor.id owner) (fun _ _ => hfit₂)
        fun _ _ => trivial).bind fun seen h₃ hfit₃ => ?_)
      split
      · split
        · split
          · exact ends_pure hfit₃
          · exact ends_pure hfit₃
        · exact ends_pure hfit₃
      · exact ends_pure hfit₃

/-- Checking the dependencies comes to an end. -/
theorem ends_check_fit (hfit : h.Fit w n) (b : Batch) :
    w.Ends (Validation.check actor.id b) h (fun _ h' => h'.Fit w n) fun _ => True := by
  refine Ends.bind (ends_mapM (I := fun h' => h'.Fit w n) (R := fun _ _ => True)
    (fun c _ h₁ hfit₁ => ?_) hfit) fun found h₁ hfound => ?_
  · have hobstacle : w.Ends (Validation.obstacle actor.id b.commits c) h₁ (fun _ h' => h'.Fit w n)
        fun _ => True := by
      unfold Validation.obstacle
      split
      · exact ends_pure hfit₁
      · exact (Ends.read (ends_parents.halts.fit informs_parents hfit₁)).bind
          fun ps h₂ hfit₂ => ends_firstUnmet_fit hfit₂
    exact hobstacle.bind fun o h₂ hfit₂ => ends_pure ⟨hfit₂, trivial⟩
  · dsimp only
    split
    · exact ends_pure hfound.1
    · exact ends_throw trivial

/-! ### Resolving branches -/

/-- Selecting the changes that a step covers. -/
theorem ends_coveredBy_fit (hfit : h.Fit w n) {commit running : CommitId} {integrated : List ChangeId}
    {changes : List Change} :
    w.Ends (BranchPlan.coveredBy project commit running integrated changes) h
      (fun _ h' => h'.Fit w n) fun _ => True := by
  refine ends_filterM (I := fun h' => h'.Fit w n) (fun c _ h₁ hfit₁ => ?_) hfit
  split
  · exact ends_pure hfit₁
  · refine (ends_isAncestor_fit hfit₁).bind fun leads h₂ hfit₂ => ?_
    split
    · exact (ends_isAncestor_fit hfit₂).bind fun _ h₃ hfit₃ => ends_pure hfit₃
    · exact ends_pure hfit₂

theorem ends_treeAt_fit (hfit : h.Fit w n) :
    w.Ends (BranchPlan.treeAt project id) h (fun _ h' => h'.Fit w n) fun _ => True :=
  (ends_commit_fit hfit).bind fun _ _ hfit₁ => ends_pure hfit₁

/-- Drafting a merge takes one place. -/
theorem ends_draftMerge_fit (hfit : h.Fit w (n + 1)) {running commit : CommitId}
    {covered : List (ChangeId × CommitId)} :
    w.Ends (BranchPlan.draftMerge policy actor project running commit covered) h
      (fun _ h' => h'.Fit w n) fun _ => True := by
  have hbase : w.Ends (BranchPlan.baseTree project running commit) h
      (fun _ h' => h'.Fit w (n + 1)) fun _ => True := by
    refine ((halts_mergeBase? hfit.sound hfit.roomy).fit informs_mergeBase? hfit).bind
      fun base h₁ hfit₁ => ?_
    split
    · exact ends_treeAt_fit hfit₁
    · exact ends_pure hfit₁
  refine hbase.bind fun base h₁ hfit₁ => ?_
  refine (ends_treeAt_fit hfit₁).bind fun ours h₂ hfit₂ => ?_
  refine (ends_treeAt_fit hfit₂).bind fun theirs h₃ hfit₃ => ?_
  split
  · exact ends_pure (hfit₃.mono (Nat.le_succ n))
  · refine Ends.bind (ends_mapM (I := fun h' => h'.Fit w (n + 1)) (R := fun _ _ => True)
      (fun c _ h₄ hfit₄ => ?_) hfit₃) fun subjects h₄ hsubjects => ?_
    · exact (ends_commit_fit hfit₄).bind fun _ _ hfit₅ => ends_pure ⟨hfit₅, trivial⟩
    · have hdraft : ∀ d : Draft, w.Ends (History.addDraft project d) h₄ (fun _ h' => h'.Fit w n)
          fun _ => True := fun d =>
        Ends.bind (m := fun _ h' => h'.Fit w n) (ends_modify (hsubjects.1.draft project d))
          fun _ _ hfit₅ => ends_pure hfit₅
      exact (hdraft _).bind fun _ _ hfit₅ => ends_pure hfit₅

/-- Taking a head takes at most one place. -/
theorem ends_takeHead_fit (hfit : h.Fit w (n + 1)) {segment : Segment} {plan : BranchPlan}
    {integrated : List ChangeId} {head : ChangeId} {commit : CommitId} :
    w.Ends (BranchPlan.takeHead policy actor segment plan integrated head commit) h
      (fun _ h' => h'.Fit w n) fun _ => True := by
  have hless : ∀ {h : History}, h.Fit w (n + 1) → h.Fit w n := fun hfit => hfit.mono (Nat.le_succ n)
  unfold BranchPlan.takeHead
  dsimp only
  split
  · exact ends_pure (hless hfit)
  · refine (ends_isAncestor_fit hfit).bind fun behind h₁ hfit₁ => ?_
    split
    · exact ends_pure (hless hfit₁)
    refine (ends_isAncestor_fit hfit₁).bind fun possible h₂ hfit₂ => ?_
    split
    · exact ends_pure (hless hfit₂)
    refine (ends_coveredBy_fit hfit₂).bind fun covered h₃ hfit₃ => ?_
    split
    · exact ends_pure (hless hfit₃)
    refine (ends_draftMerge_fit hfit₃).bind fun merge h₄ hfit₄ => ?_
    split
    · exact ends_pure hfit₄
    · exact ends_pure hfit₄

/-- Taking heads takes at most one place for each. -/
theorem ends_takeHeads_fit {segment : Segment} {plan : BranchPlan} {integrated : List ChangeId}
    {heads : List Change} (hfit : h.Fit w (heads.length + n)) :
    w.Ends (BranchPlan.takeHeads policy actor segment plan integrated heads) h
      (fun _ h' => h'.Fit w n) fun _ => True := by
  induction heads generalizing h plan integrated with
  | nil => exact ends_pure (hfit.mono (Nat.le_add_left n _))
  | cons head heads ih =>
    have hfit' : h.Fit w (heads.length + n + 1) := by
      refine hfit.mono ?_
      simp only [List.length_cons]
      omega
    rw [BranchPlan.takeHeads]
    split
    · exact ih (hfit'.mono (Nat.le_succ _))
    · refine (ends_takeHead_fit hfit').bind fun r h₁ hfit₁ => ?_
      obtain ⟨plan', integrated'⟩ := r
      dsimp only
      split
      · exact ends_pure (hfit₁.mono (Nat.le_add_left n _))
      · exact ih hfit₁

/-- Resolving a branch takes at most one place for every head. -/
theorem ends_resolveSegment_fit {segment : Segment}
    (hfit : h.Fit w (segment.headChanges.length + n)) :
    w.Ends (Submission.resolveSegment policy actor segment) h (fun _ h' => h'.Fit w n)
      fun _ => True := by
  have hcompute : w.Ends (BranchPlan.compute policy actor segment) h (fun _ h' => h'.Fit w n)
      fun _ => True := by
    have htip : w.Halts (History.tip? segment.branch) h :=
      halts_tips.bind fun _ _ _ => ends_pure trivial
    exact (htip.fit informs_tip? hfit).bind fun _ _ hfit₁ => ends_takeHeads_fit hfit₁
  refine (Ends.read hcompute).bind fun b h₁ hfit₁ => ?_
  dsimp only
  split
  · exact (ends_tell_fit hfit₁).bind fun _ _ hfit₂ => ends_pure hfit₂
  · exact ends_pure hfit₁

/-- Resolving all branches takes at most one place for every head. -/
theorem ends_resolveSegments_fit {segments : List Segment}
    (hfit : h.Fit w ((segments.flatMap (·.headChanges)).length + n)) :
    w.Ends (segments.mapM (Submission.resolveSegment policy actor)) h (fun _ h' => h'.Fit w n)
      fun _ => True := by
  induction segments generalizing h with
  | nil => exact ends_pure (hfit.mono (Nat.le_add_left n _))
  | cons s segments ih =>
    rw [List.mapM_cons]
    rw [List.flatMap_cons, List.length_append, Nat.add_assoc] at hfit
    refine (ends_resolveSegment_fit hfit).bind fun b h₁ hfit₁ => ?_
    exact (ih hfit₁).bind fun bs h₂ hfit₂ => ends_pure hfit₂

/-! ### Planning -/

/-- There are no more heads than changes. -/
theorem length_heads_le (segments : List Segment) :
    (segments.flatMap (·.headChanges)).length ≤ (segments.flatMap (·.changes)).length := by
  induction segments with
  | nil => exact Nat.le_refl 0
  | cons s segments ih =>
    rw [List.flatMap_cons, List.flatMap_cons, List.length_append, List.length_append]
    exact Nat.add_le_add (List.length_filter_le _ _) ih

/-- The changes of a batch have different records, so there are no more of them than records. -/
theorem length_changes_le {changes : List Change} (hnodup : (changes.map (·.id)).Nodup)
    (hrecords : ∀ c ∈ changes, w.changes.get? c.id = some c) : changes.length ≤ w.changes.size := by
  have hsub : changes.map (·.id) ⊆ w.changes.keys := by
    intro id hid
    obtain ⟨c, hc, rfl⟩ := List.mem_map.1 hid
    exact List.mem_map_of_mem (f := (·.1)) ((Table.get?_eq_some_iff ..).1 (hrecords c hc))
  have hle := (hnodup.subperm hsub).length_le
  simpa [Table.keys, Table.size] using hle

/-- The requested change is an open record, if it is found at all. -/
theorem ends_requestedChange_open (hkeyed : w.Keyed) :
    w.Ends (Submission.requestedChange change actor) h (fun a h' => h' = h ∧ w.OpenRecord a)
      fun _ => True := by
  have hfound : w.Ends (Planning.ask (.get change)) h
      (fun o h' => h' = h ∧ o = w.changes.get? change) fun _ => True :=
    ends_planning_ask (c := .get change) (fun o ho => ⟨rfl, (Except.ok.inj ho).symm⟩)
      fun _ _ => trivial
  refine hfound.bind fun o h₁ ho => ?_
  obtain ⟨rfl, rfl⟩ := ho
  split
  · exact ends_throw trivial
  · next requested hrequested =>
    have hid : requested.id = change := hkeyed change requested hrequested
    refine Ends.bind (m := fun _ h' => h' = h₁) (ends_planning_ask
      (c := .isVisible actor.id requested) (fun _ _ => rfl) fun _ _ => trivial) fun seen h₂ hsame => ?_
    split
    · split
      · next hopen => exact ends_pure ⟨hsame, hid ▸ hrequested, hopen⟩
      · exact ends_throw trivial
    · exact ends_throw trivial

/-- Planning comes to an end with a budget that exceeds the reach of the world. -/
theorem ends_plan_fit (hkeyed : w.Keyed) {budget : Nat} (hbudget : w.reach ≤ budget) :
    w.Ends (Submission.plan policy change actor) (.start budget) (fun _ h' => h'.Fit w 0)
      fun _ => True := by
  have hfresh : (start budget).Fresh w := faithful_start w budget
  refine (ends_requestedChange_open hkeyed).bind fun requested h₀ hrequested => ?_
  obtain ⟨rfl, hrecord⟩ := hrequested
  -- What was gathered are different records.
  have hgather := (Closure.ends_compute hkeyed hrecord policy.wholeTopic actor.id hfresh
    hbudget).and_yields (P := fun members h' => (start budget).Follows w h' ∧ h'.Fresh w ∧
      (members.map (·.id)).Nodup) fun members h' hy => by
    obtain ⟨hfresh', hnodup, _⟩ := yields_closure hfresh ⟨trivial, hrecord.isOpen⟩ hy
    exact ⟨informs_compute.follows hy, hfresh', hnodup⟩
  refine (hgather.mono (fun _ _ hall => hall) fun _ _ => trivial).bind fun members h₁ hmembers => ?_
  obtain ⟨hleast, hf₁, hfresh₁, hnodup⟩ := hmembers
  have hfit₁ : h₁.Fit w (2 * w.changes.size) := (fit_start hbudget).follows hf₁
  refine Ends.bind (Ends.read ((ends_batch_order hfit₁ members).and_yields fun b h' hy =>
    (yields_batch hfresh₁ hnodup hy).2)) fun b h₂ hb => ?_
  obtain ⟨hfit₂, horder⟩ := hb
  refine (ends_tell_fit hfit₂).bind fun _ h₃ hfit₃ => ?_
  refine (ends_check_fit hfit₃ b).bind fun _ h₄ hfit₄ => ?_
  have hrecords : ∀ c ∈ b.changes, w.changes.get? c.id = some c := by
    intro c hc
    cases hleast with
    | listed _ hjoins _ =>
      exact (((hjoins c).1 (horder.mem_changes.1 hc)).openRecord hkeyed hrecord).recorded
  have hheads : (b.segments.flatMap (·.headChanges)).length ≤ w.changes.size :=
    (length_heads_le b.segments).trans (length_changes_le (horder.nodup_changes hnodup) hrecords)
  refine (ends_resolveSegments_fit (n := 0) (hfit₄.mono (by omega))).bind fun plans h₅ hfit₅ => ?_
  dsimp only
  split
  · exact ends_get_bind (ends_pure hfit₅)
  · exact ends_throw trivial

end World
end Landing
