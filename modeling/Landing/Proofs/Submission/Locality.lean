import Landing.Proofs.Program.Scope
import Landing.Proofs.Submission.Submit

/-!
# Planning without the topic

When topics are left alone, all that goes in with a change is for the branch of
the change (`Closure.yields_compute_dest`), and planning asks for nothing but this
change and what belongs to its project (`Submission.callsOnly_plan`).
-/

namespace Landing

open World Study

/-- The call asks for the change of that number, or for something of the project. -/
def StoreCall.About (change : ChangeId) (project : ProjectName) : StoreCall → Prop
  | commit q _ => q = project
  | branches q => q = project
  | byCommit q _ => q = project
  | isVisible _ c => c.dest.project = project
  | get id => id = change
  | openByTopic .. | insertCommit .. | compareAndSwap .. | markMerged .. | reopen .. => False

variable {number : ChangeId} {project : ProjectName}
variable {A : (c : StoreCall) → Except StoreError c.Reply → Prop}

/-! ### Histories -/

namespace History

variable {id : CommitId} {starts : List CommitId}

theorem callsOnly_commit : CallsOnly (StoreCall.About number project) A (commit project id) := by
  refine callsOnly_get.bind fun h _ _ _ => ?_
  split
  · exact callsOnly_pure _
  · have hcall : StoreCall.About number project (.commit project id) := rfl
    refine (callsOnly_ask hcall).bind fun c _ _ _ => ?_
    exact (callsOnly_modify _).bind fun _ _ _ _ => callsOnly_pure c

theorem callsOnly_parents : CallsOnly (StoreCall.About number project) A (parents project id) :=
  callsOnly_commit.bind fun c _ _ _ => callsOnly_pure c.parents

theorem callsOnly_tips : CallsOnly (StoreCall.About number project) A (tips project) := by
  refine callsOnly_get.bind fun h _ _ _ => ?_
  split
  · exact callsOnly_pure _
  · have hcall : StoreCall.About number project (.branches project) := rfl
    refine (callsOnly_ask hcall).bind fun ts _ _ _ => ?_
    exact (callsOnly_modify _).bind fun _ _ _ _ => callsOnly_pure ts

theorem callsOnly_tip? {branch : Branch} (hbranch : branch.project = project) :
    CallsOnly (StoreCall.About number project) A (tip? branch) := by
  subst hbranch
  exact callsOnly_tips.bind fun _ _ _ _ => callsOnly_pure _

theorem callsOnly_walk {visit : CommitId → Reading Visit}
    (hvisit : ∀ c, CallsOnly (StoreCall.About number project) A (visit c)) (budget : Nat)
    (t : Trail) (queue : List CommitId) :
    CallsOnly (StoreCall.About number project) A (walk project visit budget t queue) := by
  induction budget generalizing t queue with
  | zero =>
    rw [walk]
    split
    · exact callsOnly_pure t
    · exact callsOnly_exhausted
  | succ budget ih =>
    rw [walk]
    split
    · exact callsOnly_pure t
    · refine (hvisit _).bind fun v _ _ _ => ?_
      cases v with
      | stop => exact callsOnly_pure _
      | pass => exact ih _ _
      | enter => exact callsOnly_parents.bind fun ps _ _ _ => ih _ _

theorem callsOnly_walkFrom {visit : CommitId → Reading Visit}
    (hvisit : ∀ c, CallsOnly (StoreCall.About number project) A (visit c)) :
    CallsOnly (StoreCall.About number project) A (walkFrom project starts visit) :=
  callsOnly_get.bind fun h _ _ _ => callsOnly_walk hvisit h.budget .start starts

theorem callsOnly_acceptedCommits :
    CallsOnly (StoreCall.About number project) A (acceptedCommits project) := by
  refine callsOnly_get.bind fun h _ _ _ => ?_
  split
  · exact callsOnly_pure _
  · refine callsOnly_tips.bind fun ts _ _ _ => ?_
    refine (callsOnly_walkFrom fun c => callsOnly_pure Visit.enter).bind fun t _ _ _ => ?_
    exact (callsOnly_modify _).bind fun _ _ _ _ => callsOnly_pure t.entered

theorem callsOnly_isAccepted :
    CallsOnly (StoreCall.About number project) A (isAccepted project id) :=
  callsOnly_acceptedCommits.bind fun ids _ _ _ => callsOnly_pure (ids.contains id)

theorem callsOnly_unacceptedAncestry :
    CallsOnly (StoreCall.About number project) A (unacceptedAncestry project starts) := by
  refine (callsOnly_walkFrom fun c => ?_).bind fun t _ _ _ => callsOnly_pure t.entered
  exact callsOnly_isAccepted.bind fun b _ _ _ => callsOnly_pure _

theorem callsOnly_isAncestor {ancestor descendant : CommitId} :
    CallsOnly (StoreCall.About number project) A (isAncestor project ancestor descendant) := by
  unfold isAncestor
  split
  · exact callsOnly_pure true
  · refine callsOnly_isAccepted.bind fun anywhere _ _ _ => ?_
    refine (callsOnly_walkFrom fun c => ?_).bind fun t _ _ _ => callsOnly_pure _
    split
    · exact callsOnly_pure _
    · split
      · exact callsOnly_pure _
      · exact callsOnly_isAccepted.bind fun b _ _ _ => callsOnly_pure _

theorem callsOnly_mergeBase? {a b : CommitId} :
    CallsOnly (StoreCall.About number project) A (mergeBase? project a b) := by
  refine (callsOnly_walkFrom fun c => callsOnly_pure Visit.enter).bind fun t _ _ _ => ?_
  exact (callsOnly_walkFrom fun c => callsOnly_pure _).bind fun t' _ _ _ => callsOnly_pure t'.found

end History

/-! ### Closures -/

namespace Closure

variable {h h' : History} {dest : Branch} {s s' : Closure} {queue : List Change}

/-- The members found so far are for the branch, and so are those that wait. -/
structure OnBranch (dest : Branch) (s : Closure) (queue : List Change) : Prop where
  members : ∀ id c, s.members.get? id = some c → c.dest = dest
  waiting : ∀ c ∈ queue, c.dest = dest

theorem onBranch_start (requested : Change) :
    (start requested).OnBranch requested.dest [requested] where
  members id c hget := by rw [(eq_of_start hget).2]
  waiting c hc := by rw [List.mem_singleton.1 hc]

/-- Whatever the answers are, what is found below a member is for its branch. -/
theorem yields_belowMember_dest {change : Change} {found : List Change}
    (hy : Study.Yields A (belowMember change) h found h') : ∀ c ∈ found, c.dest = change.dest := by
  unfold belowMember at hy
  split at hy
  · obtain ⟨rfl, rfl⟩ := yields_pure.1 hy
    exact fun c hc => absurd hc (by simp)
  · simp only [yields_bind, yields_pure] at hy
    obtain ⟨_, _, _, owners, _, _, rfl, rfl⟩ := hy
    intro c hc
    have hkept := (List.mem_filter.1 hc).2
    rw [Bool.and_eq_true, beq_iff_eq] at hkept
    exact hkept.2

/-- Adding changes for the branch. -/
theorem OnBranch.add {change : Change} {found : List Change} {topics : List String}
    (hs : s.OnBranch dest (change :: queue)) (hfound : ∀ c ∈ found, c.dest = change.dest) :
    (found.foldl Closure.add ({ s with topics }, [])).1.OnBranch dest
      (queue ++ (found.foldl Closure.add ({ s with topics }, [])).2) := by
  have hdest : ∀ c ∈ found, c.dest = dest :=
    fun c hc => (hfound c hc).trans (hs.waiting change (by simp))
  refine ⟨fun id c hget => ?_, fun c hc => ?_⟩
  · rcases mem_foldl_add hget with hold | ⟨hc, _⟩
    · exact hs.members id c hold
    · exact hdest c hc
  · rcases List.mem_append.1 hc with hc | hnew
    · exact hs.waiting c (List.mem_cons_of_mem _ hc)
    · exact hdest c ((mem_of_mem_foldl_add hnew).resolve_left (by simp))

/-- Without topics a closure grows on one branch. -/
theorem yields_grow_dest {budget : Nat} (hs : s.OnBranch dest queue)
    (hy : Study.Yields A (grow false budget s queue) h s' h') : s'.OnBranch dest [] := by
  induction budget generalizing s queue h with
  | zero =>
    cases queue with
    | nil =>
      obtain ⟨rfl, rfl⟩ := yields_pure.1 hy
      exact hs
    | cons change queue => exact absurd hy yields_exhausted
  | succ budget ih =>
    cases queue with
    | nil =>
      obtain ⟨rfl, rfl⟩ := yields_pure.1 hy
      exact hs
    | cons change queue =>
      simp only [grow, onTopic, yields_bind, yields_pure] at hy
      obtain ⟨below, h₁, hbelow, _, _, ⟨rfl, rfl⟩, hrest⟩ := hy
      rw [List.append_nil] at hrest
      exact ih (hs.add (yields_belowMember_dest hbelow)) hrest

/-- Without topics everything that goes in with a change is for the branch of the change. -/
theorem yields_compute_dest {actor : AccountId} {requested : Change} {members : List Change}
    (hy : Study.Yields A (compute false actor requested) h members h') :
    ∀ c ∈ members, c.dest = requested.dest := by
  simp only [compute, yields_bind, yields_read, yields_get] at hy
  obtain ⟨closure, h₁, ⟨_, _, ⟨rfl, rfl⟩, hgrow⟩, seen, h₂, _, hrest⟩ := hy
  have hend := yields_grow_dest (onBranch_start requested) hgrow
  split at hrest
  · obtain ⟨rfl, rfl⟩ := yields_pure.1 hrest
    intro c hc
    obtain ⟨id, hget⟩ := Table.mem_values.1 hc
    exact hend.members id c hget
  · exact absurd hrest yields_throw

theorem callsOnly_belowMember {change : Change} (hchange : change.dest.project = project) :
    CallsOnly (StoreCall.About number project) A (belowMember change) := by
  subst hchange
  unfold belowMember
  split
  · exact callsOnly_pure []
  · refine History.callsOnly_unacceptedAncestry.bind fun ancestry _ _ _ => ?_
    refine (callsOnly_mapM fun id _ => ?_).bind fun owners _ _ _ => callsOnly_pure _
    exact callsOnly_ask (c := .byCommit change.dest.project id) rfl

theorem callsOnly_grow (hproject : dest.project = project) (budget : Nat)
    (hs : s.OnBranch dest queue) :
    CallsOnly (StoreCall.About number project) A (grow false budget s queue) := by
  induction budget generalizing s queue with
  | zero =>
    cases queue with
    | nil => exact callsOnly_pure s
    | cons change queue => exact callsOnly_exhausted
  | succ budget ih =>
    cases queue with
    | nil => exact callsOnly_pure s
    | cons change queue =>
      have hchange : change.dest.project = project := by
        rw [hs.waiting change (by simp), hproject]
      refine (callsOnly_belowMember hchange).bind fun below h h' hbelow => ?_
      simp only [onTopic]
      refine (callsOnly_pure _).bind fun r h h' hr => ?_
      obtain ⟨rfl, _⟩ := yields_pure.1 hr
      dsimp only
      rw [List.append_nil]
      exact ih (hs.add (yields_belowMember_dest hbelow))

theorem callsOnly_compute {actor : AccountId} {requested : Change}
    (hrequested : requested.dest.project = project) :
    CallsOnly (StoreCall.About number project) A (compute false actor requested) := by
  refine (CallsOnly.read ?_).bind fun closure h h' hclosure => ?_
  · exact callsOnly_get.bind fun h _ _ _ =>
      callsOnly_grow hrequested h.budget (onBranch_start requested)
  · simp only [yields_read, yields_bind, yields_get] at hclosure
    obtain ⟨_, _, ⟨rfl, rfl⟩, hgrow⟩ := hclosure
    have hend := yields_grow_dest (onBranch_start requested) hgrow
    refine CallsOnly.bind ?_ fun seen _ _ _ => ?_
    · refine (callsOnly_mapM fun c hc => ?_).bind fun verdicts _ _ _ => callsOnly_pure _
      obtain ⟨id, hget⟩ := Table.mem_values.1 hc
      refine callsOnly_planning_ask (c := .isVisible actor c) ?_
      show c.dest.project = project
      rw [hend.members id c hget, hrequested]
    · split
      · exact callsOnly_pure _
      · exact callsOnly_throw _

end Closure

/-! ### Batches -/

namespace Batch

variable {h h' : History} {members : List Change} {b : Batch} {s : Segment}

/-- The group of a branch has a member. -/
theorem exists_member_of_entry {e : Branch × List Change} (he : e ∈ (byBranch members).entries) :
    ∃ c ∈ members, c.dest = e.1 := by
  obtain ⟨c, hc⟩ : ∃ c, c ∈ e.2 := by
    refine List.exists_mem_of_ne_nil _ fun hnil => ?_
    refine (get?_byBranch members e.1).2 ?_
    rw [(Table.get?_eq_some_iff ..).2 he, hnil]
  rw [mem_byBranch he] at hc
  obtain ⟨hmem, hdest⟩ := List.mem_filter.1 hc
  exact ⟨c, hmem, beq_iff_eq.1 hdest⟩

/-- A batch is for the branches of its members, whatever the answers are. -/
theorem exists_member_of_segment (hy : Study.Yields A (order members) h b h')
    (hs : s ∈ b.segments) : ∃ c ∈ members, c.dest = s.branch := by
  have hkey : s.branch ∈ (byBranch members).keys := by
    rw [branches_of_batch hy]
    exact List.mem_map_of_mem hs
  obtain ⟨e, he, hbranch⟩ := List.mem_map.1 hkey
  rw [← hbranch]
  exact exists_member_of_entry he

theorem callsOnly_segment {branch : Branch} (hbranch : branch.project = project)
    (members : List Change) :
    CallsOnly (StoreCall.About number project) A (Segment.order branch members) := by
  subst hbranch
  refine CallsOnly.bind ?_ fun below _ _ _ => by
    split
    · exact callsOnly_pure _
    · exact callsOnly_exhausted
  refine CallsOnly.bind (callsOnly_mapM fun lower _ => ?_) fun above _ _ _ => callsOnly_pure _
  refine CallsOnly.bind (callsOnly_filterM fun upper => ?_) fun above _ _ _ => callsOnly_pure _
  split
  · exact callsOnly_pure _
  · exact History.callsOnly_isAncestor

theorem callsOnly_order (hmembers : ∀ c ∈ members, c.dest.project = project) :
    CallsOnly (StoreCall.About number project) A (order members) := by
  refine CallsOnly.bind (callsOnly_mapM fun e he => ?_) fun segments _ _ _ => callsOnly_pure _
  obtain ⟨c, hc, hdest⟩ := exists_member_of_entry he
  refine callsOnly_segment ?_ e.2
  rw [← hdest]
  exact hmembers c hc

end Batch

/-! ### Dependencies -/

namespace Validation

theorem callsOnly_classify {actor : AccountId} {commit dependsOn : CommitId} {owner : Change}
    (howner : owner.dest.project = project) :
    CallsOnly (StoreCall.About number project) A (classify actor commit dependsOn owner) := by
  refine (callsOnly_planning_ask (c := .isVisible actor owner) howner).bind fun seen _ _ _ => ?_
  split
  · split
    · split
      · exact callsOnly_pure _
      · exact callsOnly_pure _
    · exact callsOnly_pure _
  · exact callsOnly_pure _

/-- An obstacle is looked for among the changes of the project only. -/
theorem callsOnly_firstUnmet {w : World} {P : Change → Prop} {actor : AccountId} {own : CommitId}
    {batchCommits : List CommitId} (seen queue : List CommitId) :
    CallsOnly (StoreCall.About number project) (w.Shows P)
      (firstUnmet actor project own batchCommits seen queue) := by
  induction queue generalizing seen with
  | nil => exact callsOnly_pure none
  | cons c queue ih =>
    rw [firstUnmet]
    split
    · exact ih _
    · refine (CallsOnly.lift History.callsOnly_isAccepted).bind fun b _ _ _ => ?_
      split
      · exact ih _
      · have hcall : StoreCall.About number project (.byCommit project c) := rfl
        refine (callsOnly_planning_ask hcall).bind fun owners h h' howners => ?_
        obtain ⟨hshown, rfl⟩ := yields_planning_ask.1 howners
        split
        · exact ih _
        · split
          · exact callsOnly_pure _
          · next owner howner =>
            refine CallsOnly.map (callsOnly_classify ?_) _
            exact (hshown owner (mem_of_lowest? howner)).2

theorem callsOnly_check {w : World} {P : Change → Prop} {actor : AccountId} {b : Batch}
    (hbatch : ∀ c ∈ b.changes, c.dest.project = project) :
    CallsOnly (StoreCall.About number project) (w.Shows P) (check actor b) := by
  refine (callsOnly_mapM fun c hc => ?_).bind fun found _ _ _ => ?_
  · refine CallsOnly.bind ?_ fun o _ _ _ => callsOnly_pure _
    rw [← hbatch c hc]
    unfold obstacle
    split
    · exact callsOnly_pure none
    · refine (CallsOnly.lift History.callsOnly_parents).bind fun ps _ _ _ => ?_
      exact callsOnly_firstUnmet [] ps
  · dsimp only
    split
    · exact callsOnly_pure _
    · exact callsOnly_throw _

end Validation

/-! ### Branches -/

namespace BranchPlan

variable {policy : Policy} {actor : Account} {segment : Segment}

theorem callsOnly_treeAt {id : CommitId} :
    CallsOnly (StoreCall.About number project) A (treeAt project id) :=
  History.callsOnly_commit.bind fun c _ _ _ => callsOnly_pure c.tree

theorem callsOnly_coveredBy {commit running : CommitId} {integrated : List ChangeId}
    {changes : List Change} :
    CallsOnly (StoreCall.About number project) A
      (coveredBy project commit running integrated changes) := by
  refine callsOnly_filterM fun c => ?_
  split
  · exact callsOnly_pure false
  · refine History.callsOnly_isAncestor.bind fun b _ _ _ => ?_
    split
    · exact History.callsOnly_isAncestor.bind fun b _ _ _ => callsOnly_pure _
    · exact callsOnly_pure false

theorem callsOnly_draftMerge {running commit : CommitId} {covered : List (ChangeId × CommitId)} :
    CallsOnly (StoreCall.About number project) A
      (draftMerge policy actor project running commit covered) := by
  refine CallsOnly.bind ?_ fun base _ _ _ => ?_
  · refine History.callsOnly_mergeBase?.bind fun base _ _ _ => ?_
    split
    · exact callsOnly_treeAt
    · exact callsOnly_pure _
  · refine callsOnly_treeAt.bind fun ours _ _ _ => callsOnly_treeAt.bind fun theirs _ _ _ => ?_
    split
    · exact callsOnly_pure _
    · refine CallsOnly.bind (callsOnly_mapM fun c _ => ?_) fun subjects _ _ _ => ?_
      · exact History.callsOnly_commit.bind fun c _ _ _ => callsOnly_pure _
      · exact (callsOnly_modify _).bind fun _ _ _ _ => callsOnly_pure _

theorem callsOnly_takeHead (hsegment : segment.branch.project = project) {p : BranchPlan}
    {integrated : List ChangeId} {head : ChangeId} {commit : CommitId} :
    CallsOnly (StoreCall.About number project) A
      (takeHead policy actor segment p integrated head commit) := by
  subst hsegment
  unfold takeHead
  split
  · exact callsOnly_pure _
  · refine History.callsOnly_isAncestor.bind fun b _ _ _ => ?_
    split
    · exact callsOnly_pure _
    · refine History.callsOnly_isAncestor.bind fun possible _ _ _ => ?_
      split
      · exact callsOnly_pure _
      · refine callsOnly_coveredBy.bind fun covered _ _ _ => ?_
        dsimp only
        split
        · exact callsOnly_pure _
        · refine callsOnly_draftMerge.bind fun r _ _ _ => ?_
          split
          · exact callsOnly_pure _
          · exact callsOnly_pure _

theorem callsOnly_takeHeads (hsegment : segment.branch.project = project) (p : BranchPlan)
    (integrated : List ChangeId) (heads : List Change) :
    CallsOnly (StoreCall.About number project) A
      (takeHeads policy actor segment p integrated heads) := by
  induction heads generalizing p integrated with
  | nil => exact callsOnly_pure _
  | cons head heads ih =>
    rw [takeHeads]
    split
    · exact ih p integrated
    · refine (callsOnly_takeHead hsegment).bind fun r _ _ _ => ?_
      dsimp only
      split
      · exact callsOnly_pure _
      · exact ih r.1 r.2

theorem callsOnly_compute (hsegment : segment.branch.project = project) :
    CallsOnly (StoreCall.About number project) A (compute policy actor segment) :=
  (History.callsOnly_tip? hsegment).bind fun _ _ _ _ => callsOnly_takeHeads hsegment _ _ _

end BranchPlan

/-! ### Plans -/

namespace Submission

variable {policy : Policy} {actor : Account} {change : ChangeId}

/-- The requested change is the only one that is asked for by its number. -/
theorem callsOnly_requestedChange {w : World} :
    CallsOnly (StoreCall.About change project) (w.Shows fun c => c.dest.project = project)
      (requestedChange change actor) := by
  have hget : StoreCall.About change project (.get change) := rfl
  refine (callsOnly_planning_ask hget).bind fun o h h' ho => ?_
  split
  · exact callsOnly_throw _
  · next requested =>
    have hproject : requested.dest.project = project := (yields_planning_ask.1 ho).1
    have hseen : StoreCall.About change project (.isVisible actor.id requested) := hproject
    refine (callsOnly_planning_ask hseen).bind fun seen _ _ _ => ?_
    split
    · split
      · exact callsOnly_pure requested
      · exact callsOnly_throw _
    · exact callsOnly_throw _

theorem callsOnly_resolveSegment {segment : Segment} (hsegment : segment.branch.project = project) :
    CallsOnly (StoreCall.About number project) A (resolveSegment policy actor segment) := by
  refine (CallsOnly.read (BranchPlan.callsOnly_compute hsegment)).bind fun b _ _ _ => ?_
  dsimp only
  split
  · exact (callsOnly_tell _).bind fun _ _ _ _ => callsOnly_pure b
  · exact callsOnly_pure b

/-- When topics are left alone and the requested change is for a branch of the project, planning asks
for this change and for what belongs to the project, and for nothing else. -/
theorem callsOnly_plan {w : World} (htopic : policy.wholeTopic = false) :
    CallsOnly (StoreCall.About change project) (w.Shows fun c => c.dest.project = project)
      (plan policy change actor) := by
  refine callsOnly_requestedChange.bind fun requested h h₁ hrequested => ?_
  have hproject : requested.dest.project = project := (yields_requestedChange hrequested).2.1
  rw [htopic]
  refine (Closure.callsOnly_compute hproject).bind fun members h₁ h₂ hmembers => ?_
  have hdest : ∀ c ∈ members, c.dest.project = project := fun c hc => by
    rw [Closure.yields_compute_dest hmembers c hc, hproject]
  refine (CallsOnly.read (Batch.callsOnly_order hdest)).bind fun b h₂ h₃ hb => ?_
  have hbatch := yields_read.1 hb
  refine (callsOnly_tell _).bind fun _ _ _ _ => ?_
  have hchanges : ∀ c ∈ b.changes, c.dest.project = project :=
    fun c hc => hdest c (Batch.mem_members_of_order hbatch c hc)
  refine (Validation.callsOnly_check hchanges).bind fun _ _ _ _ => ?_
  refine CallsOnly.bind (callsOnly_mapM fun s hs => ?_) fun plans _ _ _ => ?_
  · obtain ⟨c, hc, hbranch⟩ := Batch.exists_member_of_segment hbatch hs
    exact callsOnly_resolveSegment (by rw [← hbranch]; exact hdest c hc)
  · dsimp only
    split
    · exact callsOnly_get.bind fun h _ _ _ => callsOnly_pure _
    · exact callsOnly_throw _

/-- What goes in with the requested change, and the branch that it goes in on, when topics are left
alone. -/
theorem dest_of_planned {w : World} {budget : Nat} {p : Plan} (htopic : policy.wholeTopic = false)
    (hplanned : w.planned policy budget change actor = some (.ok p)) :
    ∃ requested, w.changes.get? change = some requested ∧
      (∀ c ∈ p.batch.changes, c.dest = requested.dest) ∧
      ∀ s ∈ p.batch.segments, s.branch = requested.dest := by
  rw [planned, run_withHistory isInquiry_plan] at hplanned
  obtain ⟨⟨r, h'⟩, hresult, rfl⟩ := Option.map_eq_some_iff.1 hplanned
  -- Planning goes by the answers of the world, whatever these are.
  have hyields : Study.Yields (fun c r => (w.answer c).1 = r) (plan policy change actor)
      (.start budget) p h' := Program.mayCome_of_result (fun _ => rfl) hresult
  obtain ⟨requested, h₁, members, h₂, h₃, h₄, hrequested, hmembers, hb, _⟩ := yields_plan_parts hyields
  obtain ⟨_, hanswer, _⟩ := yields_requestedChange hrequested
  rw [htopic] at hmembers
  have hdest := Closure.yields_compute_dest hmembers
  refine ⟨requested, Except.ok.inj hanswer, fun c hc => ?_, fun s hs => ?_⟩
  · exact hdest c (Batch.mem_members_of_order hb c hc)
  · obtain ⟨c, hc, hbranch⟩ := Batch.exists_member_of_segment hb hs
    rw [← hbranch]
    exact hdest c hc

end Submission
end Landing
