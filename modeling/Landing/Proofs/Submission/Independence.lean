import Landing.Proofs.History.Overlay
import Landing.Proofs.Submission.Integration
import Landing.Proofs.Submission.LeastClosure
import Mathlib.Data.List.Flatten

/-!
# Branches are resolved independently

All branches of a submission are resolved with one history.  It has served for
gathering the changes before, and it holds the merge commits that were drafted for
the branches resolved so far.  None of this makes a difference to the next branch:
its plan is the one that it has when it is resolved by itself, with a history that
knows nothing yet (`World.resolved_independently`).

A step of resolving asks about commits behind the tip of the plan and behind one
head.  What is behind them is stored or was drafted for the same branch
(`BranchPlan.Rooted`), so every question has the answer that it would have without
the drafts of others, and every step returns one result from all histories that
carry the drafts of the branch (`World.exists_returns_takeHead`).  The names must
tell the contents apart that can meet in this way: the stored commits, and what
each branch drafts by itself (`World.contents`).
-/

namespace Landing

open World

/-- The plan of a branch once the first `k` heads were taken. -/
def BranchPlan.upTo (policy : Policy) (actor : Account) (segment : Segment) (k : Nat) :
    Reading BranchPlan := do
  let oldTip ← History.tip? segment.branch
  let strategy := policy.strategyFor segment.branch.project
  takeHeads policy actor segment (start segment strategy oldTip) [] (segment.headChanges.take k)

theorem BranchPlan.elastic_upTo (policy : Policy) (actor : Account) (segment : Segment) (k : Nat) :
    Study.Elastic (upTo policy actor segment k) :=
  (History.elastic_tip? _).bind fun _ => elastic_takeHeads _ _ _ _ _ _

/-- There are no more heads to take than there are. -/
theorem BranchPlan.upTo_eq_min (policy : Policy) (actor : Account) (segment : Segment) (k : Nat) :
    upTo policy actor segment k = upTo policy actor segment (min k segment.headChanges.length) := by
  rw [upTo, upTo, ← List.take_eq_take_min]

/-- The tip of the plan leads to known commits only, and the drafts of the plan are among `U`. -/
structure BranchPlan.Rooted (w : World) (U : Set Draft) (project : ProjectName) (p : BranchPlan) :
    Prop where
  own : ∀ d ∈ p.drafts, d ∈ U
  tip : ∀ t, p.newTip = some t → w.Resolvable p.drafts project t

namespace World

/-- All ancestors of the tips in the project of the branch and of the commits of its changes are
stored. -/
structure Supplied (w : World) (s : Segment) : Prop where
  stocked : w.Stocked s.branch.project
  whole : ∀ c ∈ s.changes, ∀ commit, c.currentCommit? = some commit →
    w.Whole s.branch.project commit

/-- The merge commits that are drafted when the branch is resolved by itself, up to some head. -/
def draftedFor (w : World) (policy : Policy) (actor : Account) (s : Segment) : Set Draft :=
  {d | ∃ k budget p h', Program.result w (BranchPlan.upTo policy actor s k (.start budget)) =
    some (.ok p, h') ∧ d ∈ p.drafts}

/-- The stored contents, and the merge commits of the branches when each is resolved by itself. -/
def contents (w : World) (policy : Policy) (actor : Account) (l : List Segment) : Set Draft :=
  w.storedDrafts ∪ {d | ∃ s ∈ l, d ∈ w.draftedFor policy actor s}

/-- The budget exceeds the number of commits that a project may have after every head was merged. -/
def Affords (w : World) (l : List Segment) (budget : Nat) : Prop :=
  ∀ q, w.commitCount q + (l.flatMap (·.headChanges)).length < budget

open BranchPlan History

variable {w : World} {U : Set Draft} {project : ProjectName} {mine : List Draft} {n : Nat}
variable {policy : Policy} {actor : Account} {segment : Segment} {running commit : CommitId}

/-! ### Steps of resolving a branch -/

/-- Reading the files of a commit that is known. -/
theorem exists_returns_treeAt (hU : w.TellsApart U) {id : CommitId}
    (hknown : ∃ k, w.Known mine project id k) :
    ∃ tree, w.Returns (Carries w U project mine n) (treeAt project id) tree
      (Carries w U project mine n) := by
  obtain ⟨k, hk⟩ := hknown
  exact ⟨k.tree, returns_commit (f := fun k => k.tree) hU (fun _ _ h => congrArg Draft.tree h) hk⟩

theorem exists_returns_baseTree (hU : w.TellsApart U) (hown : ∀ d ∈ mine, d ∈ U)
    (hrunning : w.Resolvable mine project running) (hcommit : w.Resolvable mine project commit) :
    ∃ tree, w.Returns (Carries w U project mine n) (baseTree project running commit) tree
      (Carries w U project mine n) := by
  obtain ⟨base, hbase, hreturns⟩ :=
    exists_returns_mergeBase? (n := n) hU hown hrunning hcommit
  cases base with
  | none => exact ⟨.empty, hreturns.bind (returns_pure _)⟩
  | some b =>
    obtain ⟨tree, htree⟩ := exists_returns_treeAt hU (hcommit b (hbase b rfl))
    exact ⟨tree, hreturns.bind htree⟩

/-- Finding out which changes a step brings in: the step leads to all of them. -/
theorem exists_returns_coveredBy (hU : w.TellsApart U) (hstocked : w.Stocked project)
    (hrunning : w.Resolvable mine project running) (hcommit : w.Resolvable mine project commit)
    (integrated : List ChangeId) (changes : List Change) :
    ∃ covered, (∀ e ∈ covered, w.Leads mine project commit e.2) ∧
      w.Returns (Carries w U project mine n)
        (coveredBy project commit running integrated changes) covered
        (Carries w U project mine n) := by
  classical
  let test : ChangeId × CommitId → Bool := fun e =>
    if integrated.contains e.1 then false
    else if decide (w.Leads mine project commit e.2) then !decide (w.Leads mine project running e.2)
    else false
  refine ⟨_, fun e he => ?_, returns_filterM test fun e _ => ?_⟩
  · have htest := (List.mem_filter.1 he).2
    simp only [test] at htest
    split at htest
    · cases htest
    · split at htest
      · next hleads => exact of_decide_eq_true hleads
      · cases htest
  · simp only [test]
    split
    · exact returns_pure false
    · refine (returns_isAncestor hU hstocked hcommit).bind ?_
      split
      · exact (returns_isAncestor hU hstocked hrunning).bind (returns_pure _)
      · exact returns_pure false

/-- Drafting a merge commit, or finding that it is not possible. -/
theorem exists_returns_draftMerge (policy : Policy) (actor : Account)
    (hU : w.TellsApart U) (hstocked : w.Stocked project) (hown : ∀ d ∈ mine, d ∈ U)
    (hrunning : w.Resolvable mine project running)
    (hcommit : w.Resolvable mine project commit) {covered : List (ChangeId × CommitId)}
    (hcovered : ∀ e ∈ covered, w.Leads mine project commit e.2) :
    (∃ paths, w.Returns (Carries w U project mine (n + 1))
      (draftMerge policy actor project running commit covered) (.error paths)
      (Carries w U project mine n)) ∨
    ∃ d : Draft, d.parents = [running, commit] ∧ w.Returns (Carries w U project mine (n + 1))
      (draftMerge policy actor project running commit covered) (.ok d)
      (fun h' => d ∈ U → h'.Carries w U project (mine ++ [d]) n) := by
  obtain ⟨base, hbase⟩ := exists_returns_baseTree (n := n + 1) hU hown hrunning hcommit
  obtain ⟨ours, hours⟩ := exists_returns_treeAt (n := n + 1) hU (hrunning running .refl)
  obtain ⟨theirs, htheirs⟩ := exists_returns_treeAt (n := n + 1) hU (hcommit commit .refl)
  obtain ⟨subjects, hsubjects⟩ := exists_returns_mapM (l := covered)
    (f := fun c => do pure (c.1, (← History.commit project c.2).subject))
    (I := Carries w U project mine (n + 1)) fun e he => by
      obtain ⟨k, hk⟩ := hcommit e.2 (hcovered e he)
      exact ⟨_, returns_commit (f := fun k => (e.1, k.subject)) hU
        (fun k k' h => by rw [Commit.subject, Commit.subject, congrArg Draft.message h]) hk⟩
  cases hmerge : base.merge ours theirs with
  | error paths =>
    refine .inl ⟨paths, hbase.bind (hours.bind (htheirs.bind ?_))⟩
    rw [hmerge]
    exact (returns_pure _).mono (fun _ hh => hh) fun _ hh => hh.less (Nat.le_succ n)
  | ok tree =>
    let merge : Draft := {
      parents := [running, commit]
      tree
      author := actor.ident
      committer := policy.serverIdent
      message := mergeMessage subjects }
    refine .inr ⟨merge, rfl, hbase.bind (hours.bind (htheirs.bind ?_))⟩
    rw [hmerge]
    exact hsubjects.bind ((returns_addDraft hstocked merge).bind (returns_pure _))

/-- Taking one head. -/
theorem exists_returns_takeHead (policy : Policy) (actor : Account)
    (hU : w.TellsApart U) (hstocked : w.Stocked segment.branch.project)
    {p : BranchPlan} (hp : p.Rooted w U segment.branch.project)
    (hcommit : w.Whole segment.branch.project commit) (integrated : List ChangeId)
    (head : ChangeId) :
    ∃ r : BranchPlan × List ChangeId,
      w.Returns (Carries w U segment.branch.project p.drafts (n + 1))
        (takeHead policy actor segment p integrated head commit) r
        (fun h' => (∀ d ∈ r.1.drafts, d ∈ U) →
          h'.Carries w U segment.branch.project r.1.drafts n) ∧
      ((∀ d ∈ r.1.drafts, d ∈ U) → r.1.Rooted w U segment.branch.project) := by
  have hknown := hU.resolvable_of_whole hp.own hcommit
  have hless : ∀ h, Carries w U segment.branch.project p.drafts (n + 1) h →
      (∀ d ∈ p.drafts, d ∈ U) → h.Carries w U segment.branch.project p.drafts n :=
    fun h hh _ => hh.less (Nat.le_succ n)
  unfold takeHead
  cases htip : p.newTip with
  | none =>
    refine ⟨(p.fastForward commit, integrated), (returns_pure _).mono (fun _ hh => hh) hless,
      fun hown => ⟨hown, ?_⟩⟩
    rintro t ⟨⟩
    exact hknown
  | some running =>
    have hrunning := hp.tip running htip
    have hsame : (∀ d ∈ p.drafts, d ∈ U) → p.Rooted w U segment.branch.project := fun _ => hp
    classical
    have hbehind := returns_isAncestor (n := n + 1) (a := commit) hU hstocked hrunning
    have hahead := returns_isAncestor (n := n + 1) (a := running) hU hstocked hknown
    by_cases hreached : w.Leads p.drafts segment.branch.project running commit
    · refine ⟨(p, integrated), hbehind.bind ?_, hsame⟩
      rw [if_pos (decide_eq_true hreached)]
      exact (returns_pure _).mono (fun _ hh => hh) hless
    have hbehind' : ¬ decide (w.Leads p.drafts segment.branch.project running commit) = true :=
      fun htrue => hreached (of_decide_eq_true htrue)
    generalize decide (w.Leads p.drafts segment.branch.project commit running) = possible at hahead
    by_cases hforbidden : (p.strategy == .fastForwardOnly && !possible) = true
    · refine ⟨(p.abort head .fastForwardRequired, integrated),
        hbehind.bind ((if_neg hbehind').symm ▸ hahead.bind ?_), fun _ => ⟨hp.own, hp.tip⟩⟩
      rw [if_pos hforbidden]
      exact (returns_pure _).mono (fun _ hh => hh) hless
    obtain ⟨covered, hcovered, hcovers⟩ :=
      exists_returns_coveredBy (n := n + 1) hU hstocked hrunning hknown integrated segment.changes
    by_cases hforward : (p.strategy != .mergeAlways && possible) = true
    · refine ⟨(p.fastForward commit, integrated ++ covered.map (·.1)),
        hbehind.bind ((if_neg hbehind').symm ▸ hahead.bind ?_), fun hown => ⟨hown, ?_⟩⟩
      · rw [if_neg hforbidden]
        refine hcovers.bind ?_
        rw [if_pos hforward]
        exact (returns_pure _).mono (fun _ hh => hh) hless
      · rintro t ⟨⟩
        exact hknown
    rcases exists_returns_draftMerge (n := n) policy actor hU hstocked hp.own
      hrunning hknown hcovered with ⟨paths, hdraft⟩ | ⟨d, hparents, hdraft⟩
    · refine ⟨(p.abort head (.pathConflict paths), integrated ++ covered.map (·.1)),
        hbehind.bind ((if_neg hbehind').symm ▸ hahead.bind ?_), fun _ => ⟨hp.own, hp.tip⟩⟩
      rw [if_neg hforbidden]
      refine hcovers.bind ?_
      rw [if_neg hforward]
      exact hdraft.bind ((returns_pure _).mono (fun _ hh => hh) fun _ hh _ => hh)
    · refine ⟨(p.mergeTo d, integrated ++ covered.map (·.1)),
        hbehind.bind ((if_neg hbehind').symm ▸ hahead.bind ?_), fun hown => ⟨hown, ?_⟩⟩
      · rw [if_neg hforbidden]
        refine hcovers.bind ?_
        rw [if_neg hforward]
        refine hdraft.bind ((returns_pure _).mono (fun _ hh => hh) fun _ hh hown => ?_)
        exact hh (hown d (by simp [mergeTo]))
      · rintro t ⟨⟩
        refine hU.resolvable_draft hown fun q hq => ?_
        rw [hparents] at hq
        rcases List.mem_pair.1 hq with rfl | rfl
        · exact hrunning
        · exact hknown

/-- Taking heads in order, provided that all that is drafted on the way is among the contents. -/
theorem exists_returns_takeHeads (policy : Policy) (actor : Account)
    (hU : w.TellsApart U) (hstocked : w.Stocked segment.branch.project)
    {heads : List Change} (hwhole : ∀ c ∈ heads, ∀ commit, c.currentCommit? = some commit →
      w.Whole segment.branch.project commit)
    {p : BranchPlan} (hp : p.Rooted w U segment.branch.project) (integrated : List ChangeId)
    {g : History} (hg : g.Carries w U segment.branch.project p.drafts (n + heads.length))
    (hin : ∀ k q g', Program.result w
      (takeHeads policy actor segment p integrated (heads.take k) g) = some (.ok q, g') →
        ∀ d ∈ q.drafts, d ∈ U) :
    ∃ q, w.Returns (Carries w U segment.branch.project p.drafts (n + heads.length))
      (takeHeads policy actor segment p integrated heads) q
      (Carries w U segment.branch.project q.drafts n) := by
  induction heads generalizing p integrated g with
  | nil => exact ⟨p.resolve, returns_pure p.resolve⟩
  | cons head heads ih =>
    have hwhole' := fun c hc => hwhole c (List.mem_cons_of_mem head hc)
    rw [takeHeads]
    cases hcommit : head.currentCommit? with
    | none =>
      -- A change without a commit is passed over.
      have hskip : ∀ k, takeHeads policy actor segment p integrated ((head :: heads).take (k + 1)) =
          takeHeads policy actor segment p integrated (heads.take k) := by
        intro k
        rw [List.take_succ_cons, takeHeads, hcommit]
      obtain ⟨q, hq⟩ := ih hwhole' hp integrated (hg.less (Nat.le_succ _)) fun k q g' hresult =>
        hin (k + 1) q g' (by rw [hskip]; exact hresult)
      exact ⟨q, hq.mono (fun _ hh => hh.less (Nat.le_succ _)) fun _ hh => hh⟩
    | some commit =>
      obtain ⟨⟨p', integrated'⟩, hreturns, hrooted⟩ :=
        exists_returns_takeHead (n := n + heads.length) policy actor hU hstocked hp
          (hwhole head List.mem_cons_self commit hcommit) integrated head.id
      dsimp only at hreturns hrooted
      obtain ⟨g₁, hfirst, hg₁⟩ := hreturns g hg
      -- The rest of the heads is taken from here, unless the plan was given up.
      have hrest : ∀ k q g', Program.result w ((if p'.state.isTerminal then pure p'
          else takeHeads policy actor segment p' integrated' (heads.take k) :
            Reading BranchPlan) g₁) = some (.ok q, g') → ∀ d ∈ q.drafts, d ∈ U := by
        intro k q g' hresult
        refine hin (k + 1) q g' ?_
        rw [List.take_succ_cons, takeHeads, hcommit]
        exact result_bind_of_ok hfirst hresult
      have hown : ∀ d ∈ p'.drafts, d ∈ U := by
        cases hterminal : p'.state.isTerminal with
        | true => exact hrest 0 p' g₁ (by rw [if_pos hterminal]; rfl)
        | false => exact hrest 0 p'.resolve g₁ (by rw [hterminal]; rfl)
      have hfirst' := hreturns.mono (fun _ hh => hh) fun _ hh => hh hown
      cases hterminal : p'.state.isTerminal with
      | true =>
        refine ⟨p', hfirst'.bind ?_⟩
        dsimp only
        rw [if_pos hterminal]
        exact (returns_pure _).mono (fun _ hh => hh) fun _ hh => hh.less (Nat.le_add_right n _)
      | false =>
        rw [hterminal] at hrest
        obtain ⟨q, hq⟩ := ih hwhole' (hrooted hown) integrated' (hg₁ hown) hrest
        refine ⟨q, hfirst'.bind ?_⟩
        dsimp only
        rw [hterminal]
        exact hq

/-- Where all that is needed is stored, resolving a branch returns the same plan from every history
that has room for the merge commits of the branch. -/
theorem exists_returns_compute (policy : Policy) (actor : Account)
    (hU : w.TellsApart U) (hs : w.Supplied segment)
    (hin : w.draftedFor policy actor segment ⊆ U) :
    ∃ q, w.Returns (Carries w U segment.branch.project [] (n + segment.headChanges.length))
      (compute policy actor segment) q (Carries w U segment.branch.project q.drafts n) := by
  obtain ⟨tip, haccepted, htip⟩ := exists_returns_tip? hs.stocked U []
    (n + segment.headChanges.length)
  -- Nothing is drafted yet, so what the history of the branch needs to know is stored.
  have hrooted : (start segment (policy.strategyFor segment.branch.project) tip).Rooted w U
      segment.branch.project := by
    refine ⟨fun _ hd => (nomatch hd), fun t ht => ?_⟩
    exact hU.resolvable_of_whole (fun _ hd => (nomatch hd)) (hs.stocked.2.whole (haccepted t ht))
  obtain ⟨g, hg, hcarries⟩ := htip _ (Carries.start w U segment.branch.project _)
  obtain ⟨q, hq⟩ := exists_returns_takeHeads (n := n) policy actor hU hs.stocked
    (fun c hc => hs.whole c (List.mem_of_mem_filter hc)) hrooted [] hcarries
    fun k q g' hresult d hd => hin ⟨k, _, q, g', result_bind_of_ok hg hresult, hd⟩
  exact ⟨q, htip.bind hq⟩

/-- Every branch has one plan that it is resolved to, whatever the contents are that are told apart
and however much room is left. -/
theorem exists_plan_returns (w : World) (policy : Policy) (actor : Account) (s : Segment) :
    ∃ q : BranchPlan, ∀ U n, w.TellsApart U → w.Supplied s → w.draftedFor policy actor s ⊆ U →
      w.Returns (Carries w U s.branch.project [] (n + s.headChanges.length))
        (compute policy actor s) q (Carries w U s.branch.project q.drafts n) := by
  by_cases hsome : ∃ budget q h', Program.result w (compute policy actor s (.start budget)) =
      some (.ok q, h')
  · -- Any budget that suffices will do, since a larger one leads to the same plan.
    obtain ⟨budget, q, h', hresult⟩ := hsome
    refine ⟨q, fun U n hU hs hin => ?_⟩
    obtain ⟨q', hq'⟩ := exists_returns_compute (n := n) policy actor hU hs hin
    obtain ⟨_, hresult', _⟩ := hq' _ (Carries.start w U s.branch.project _)
    cases (elastic_compute policy actor s).result_unique (h := .start 0) hresult hresult'
    exact hq'
  · -- Something is missing then, and any plan will do.
    refine ⟨.start s .mergeAlways none, fun U n hU hs hin => absurd ?_ hsome⟩
    obtain ⟨q', hq'⟩ := exists_returns_compute (n := n) policy actor hU hs hin
    obtain ⟨h', hresult', _⟩ := hq' _ (Carries.start w U s.branch.project _)
    exact ⟨_, q', h', hresult'⟩

/-- Resolving branches one after another, each of which has a plan. -/
theorem returns_resolveSegments {plan : Segment → BranchPlan} {l : List Segment}
    (project : ProjectName) (mine : List Draft)
    (hplan : ∀ s ∈ l, ∀ n, w.Returns (Carries w U s.branch.project [] (n + s.headChanges.length))
      (compute policy actor s) (plan s) (Carries w U s.branch.project (plan s).drafts n)) :
    w.Returns (Carries w U project mine (l.flatMap (·.headChanges)).length)
      (l.mapM (Submission.resolveSegment policy actor)) (l.map plan) fun _ => True := by
  -- What is said of the drafts of one branch is forgotten when the next one comes.
  induction l generalizing project mine with
  | nil => exact (returns_pure []).mono (fun _ hh => hh) fun _ _ => trivial
  | cons s l ih =>
    rw [List.mapM_cons, List.flatMap_cons, List.length_append, Nat.add_comm]
    have hfirst : w.Returns (Carries w U project mine
        ((l.flatMap (·.headChanges)).length + s.headChanges.length))
        (Submission.resolveSegment policy actor s) (plan s)
        (Carries w U s.branch.project (plan s).drafts (l.flatMap (·.headChanges)).length) := by
      refine Returns.bind ((hplan s (by simp) _).mono (fun _ hh => hh.forget _)
        fun _ hh => hh).read ?_
      split
      · exact (returns_tell _).bind (returns_pure _)
      · exact returns_pure _
    have hrest := ih s.branch.project (plan s).drafts
      fun s' hs' => hplan s' (by simp [hs'])
    exact hfirst.bind (hrest.bind (returns_pure _))

end World

/-! ### The branches of a submission -/

namespace Submission

/-- What planning does before it resolves the branches: it finds the changes that go in, orders them
and checks what they depend on. -/
def gathered (policy : Policy) (change : ChangeId) (actor : Account) : Planning Batch := do
  let requested ← requestedChange change actor
  let members ← Closure.compute policy.wholeTopic actor.id requested
  let batch ← Planning.read (Batch.order members)
  Planning.tell (.closure batch.size batch.segments.length policy.wholeTopic)
  Validation.check actor.id batch
  pure batch

/-- What planning does after the changes were gathered. -/
def planBatch (policy : Policy) (change : ChangeId) (actor : Account) (batch : Batch) :
    Planning Plan := do
  let branches ← batch.segments.mapM (resolveSegment policy actor)
  let problems := branches.filterMap fun b => b.state.problem?
  if problems.isEmpty then
    pure { requested := change, actor, batch, branches, newCommits := (← get).created }
  else throw (.conflict ⟨batch.size, problems⟩)

theorem plan_eq (policy : Policy) (change : ChangeId) (actor : Account) :
    plan policy change actor = gathered policy change actor >>= planBatch policy change actor := by
  simp only [plan, gathered, planBatch, bind_assoc, pure_bind]

theorem elastic_gathered (policy : Policy) (change : ChangeId) (actor : Account) :
    Study.Elastic (gathered policy change actor) := by
  refine (elastic_requestedChange change actor).bind fun requested => ?_
  refine (Closure.elastic_compute _ _ requested).bind fun members => ?_
  refine (Study.Elastic.read (Batch.elastic_order members)).bind fun b => ?_
  refine (Study.elastic_tell _).bind fun _ => ?_
  exact (Validation.elastic_check _ b).bind fun _ => Study.elastic_pure b

end Submission

namespace World

open Submission

variable {w : World} {policy : Policy} {actor : Account} {change : ChangeId} {budget : Nat}
variable {b : Batch} {h : History}

theorem Affords.subperm {l l' : List Segment} (h : w.Affords l' budget) (hsub : l.Subperm l') :
    w.Affords l budget := by
  obtain ⟨m, hperm, hsublist⟩ := hsub
  intro q
  have hheads : (l.flatMap (·.headChanges)).length ≤ (l'.flatMap (·.headChanges)).length := by
    rw [← (hperm.flatMap_right _).length_eq]
    exact (hsublist.flatMap _).length_le
  have hroom := h q
  omega

/-- The heads of a batch of recorded changes are no more than these. -/
theorem affords_of_recorded (hnodup : b.changes.Nodup)
    (hrecorded : b.changes ⊆ w.changes.values) (hbudget : w.reach ≤ budget) :
    w.Affords b.segments budget := by
  have hheads : (b.segments.flatMap (·.headChanges)).length ≤ w.changes.size := by
    calc (b.segments.flatMap (·.headChanges)).length
        ≤ b.changes.length :=
          (List.Sublist.flatMap_right _ fun s _ => List.filter_sublist).length_le
      _ ≤ w.changes.values.length := (hnodup.subperm hrecorded).length_le
      _ = w.changes.size := List.length_map _
  intro q
  have hcount := w.commitCount_add_lt_reach q
  omega

/-- When the changes were gathered, nothing is drafted yet, and the history of every change is
stored. -/
theorem of_gathered (hbudget : w.reach ≤ budget)
    (hgathered : Program.result w (gathered policy change actor (.start budget)) =
      some (.ok b, h)) :
    h.Fresh w ∧ h.budget = budget ∧ w.Affords b.segments budget ∧
      ∀ s ∈ b.segments, ∀ c ∈ s.changes, c.dest = s.branch ∧ w.WholeChange c := by
  have hy : Study.Yields (w.Shows (· ∈ w.changes.values)) (gathered policy change actor)
      (.start budget) b h :=
    Program.mayCome_of_result (shows_answer fun _ hc => hc) hgathered
  have hsame : h.budget = budget := (elastic_gathered policy change actor).budget_eq hy
  simp only [gathered, yields_bind, yields_read, yields_tell, yields_pure] at hy
  obtain ⟨requested, h₁, hrequested, members, h₂, hmembers, b', h₃, hb, _, h₄, rfl, _, h₅, hcheck,
    rfl, rfl⟩ := hy
  obtain ⟨rfl, hopen⟩ := yields_requestedChange hrequested
  obtain ⟨hf₂, hnodup, hall⟩ := yields_closure (History.faithful_start w budget) hopen hmembers
  obtain ⟨hf₃, horder⟩ := yields_batch hf₂ hnodup (yields_of_shows hb)
  obtain ⟨hf₄, _⟩ := yields_check hf₃ hcheck
  refine ⟨hf₄, hsame, affords_of_recorded (horder.nodup_changes hnodup).of_map (fun c hc => ?_)
    hbudget, fun s hs c hc => ?_⟩
  · exact (hall c (horder.mem_changes.1 hc)).1.1
  · obtain ⟨hmem, hdest⟩ := horder.mem_of_segment hs hc
    exact ⟨hdest, (hall c hmem).2⟩

/-- A planning that succeeds gathers its batch and resolves the branches of it. -/
theorem exists_gathered {p : Plan}
    (hplanned : w.planned policy budget change actor = some (.ok p)) :
    ∃ h h', Program.result w (gathered policy change actor (.start budget)) =
        some (.ok p.batch, h) ∧
      Program.result w (p.batch.segments.mapM (resolveSegment policy actor) h) =
        some (.ok p.branches, h') := by
  rw [planned, run_withHistory isInquiry_plan, plan_eq] at hplanned
  obtain ⟨⟨r, h'⟩, hresult, rfl⟩ := Option.map_eq_some_iff.1 hplanned
  obtain ⟨b, h, hgathered, hrest⟩ := Study.result_bind_ok hresult
  obtain ⟨branches, h₁, hbranches, hend⟩ := Study.result_bind_ok hrest
  dsimp only at hend
  split at hend
  · cases hend
    exact ⟨h, h', hgathered, hbranches⟩
  · cases hend

/-- The plan of every branch is the one that `plan` names, where all that the branch needs is stored
and no two of the contents in question have the same name. -/
structure Resolves (w : World) (policy : Policy) (actor : Account) (plan : Segment → BranchPlan) :
    Prop where
  /-- A branch that is resolved by itself. -/
  alone : ∀ s budget, w.Supplied s → w.Affords [s] budget →
    Set.InjOn Draft.id (w.contents policy actor [s]) →
    ∃ h', Program.result w (BranchPlan.compute policy actor s (.start budget)) =
      some (.ok (plan s), h')
  /-- Branches that are resolved one after another, on a history that has been put to any use that
  drafts nothing. -/
  together : ∀ l h, (∀ s ∈ l, w.Supplied s) → h.Fresh w → w.Affords l h.budget →
    Set.InjOn Draft.id (w.contents policy actor l) →
    ∃ h', Program.result w (l.mapM (resolveSegment policy actor) h) = some (.ok (l.map plan), h')
  /-- The branches of a submission, each by itself and all of them in any order after the changes were
  gathered. -/
  submitted : ∀ change budget b h, w.reach ≤ budget →
    Program.result w (gathered policy change actor (.start budget)) = some (.ok b, h) →
    (∀ s ∈ b.segments, w.Stocked s.branch.project) →
    Set.InjOn Draft.id (w.contents policy actor b.segments) →
    (∀ s ∈ b.segments, ∃ h',
      Program.result w (BranchPlan.compute policy actor s (.start budget)) =
        some (.ok (plan s), h')) ∧
    (∀ l : List Segment, l.Perm b.segments → ∃ h',
      Program.result w (l.mapM (resolveSegment policy actor) h) = some (.ok (l.map plan), h')) ∧
    ∀ p, w.planned policy budget change actor = some (.ok p) →
      p.batch = b ∧ p.branches = b.segments.map plan

theorem contents_mono {l l' : List Segment} (hsub : l ⊆ l') :
    w.contents policy actor l ⊆ w.contents policy actor l' := by
  refine Set.union_subset_union_right _ ?_
  rintro d ⟨s, hs, hd⟩
  exact ⟨s, hsub hs, hd⟩

/-- Branches are resolved independently.  In a world where every commit is stored under the name of its
content, every branch has one plan. -/
theorem resolved_independently (haddressed : w.ContentAddressed) (policy : Policy)
    (actor : Account) : ∃ plan, w.Resolves policy actor plan := by
  choose plan hplan using exists_plan_returns w policy actor
  have happly : ∀ l, (∀ s ∈ l, w.Supplied s) → Set.InjOn Draft.id (w.contents policy actor l) →
      ∀ s ∈ l, ∀ n, w.Returns
        (History.Carries w (w.contents policy actor l) s.branch.project []
          (n + s.headChanges.length))
        (BranchPlan.compute policy actor s) (plan s)
        (History.Carries w (w.contents policy actor l) s.branch.project (plan s).drafts n) := by
    intro l hsupplied hinj s hs n
    refine hplan s _ n ⟨haddressed, hinj, Set.subset_union_left⟩ (hsupplied s hs) fun d hd => ?_
    exact .inr ⟨s, hs, hd⟩
  have halone : ∀ s budget, w.Supplied s → w.Affords [s] budget →
      Set.InjOn Draft.id (w.contents policy actor [s]) →
      ∃ h', Program.result w (BranchPlan.compute policy actor s (.start budget)) =
        some (.ok (plan s), h') := by
    intro s budget hs hbudget hinj
    have hroom : ∀ q, w.commitCount q + (0 + s.headChanges.length) < budget := by
      simpa [Affords] using hbudget
    obtain ⟨h', hresult, _⟩ := happly [s] (by simpa using hs) hinj s (by simp) 0 _
      (.of_fresh (History.faithful_start w budget) hroom)
    exact ⟨h', hresult⟩
  have htogether : ∀ l h, (∀ s ∈ l, w.Supplied s) → h.Fresh w → w.Affords l h.budget →
      Set.InjOn Draft.id (w.contents policy actor l) →
      ∃ h', Program.result w (l.mapM (resolveSegment policy actor) h) =
        some (.ok (l.map plan), h') := by
    intro l h hsupplied hfresh hbudget hinj
    obtain ⟨h', hresult, _⟩ := returns_resolveSegments "" [] (happly l hsupplied hinj) h
      (.of_fresh hfresh hbudget)
    exact ⟨h', hresult⟩
  refine ⟨plan, halone, htogether, ?_⟩
  intro change budget b h hbudget hgathered hstocked hinj
  obtain ⟨hfresh, rfl, haffords, hwhole⟩ := of_gathered hbudget hgathered
  have hsupplied : ∀ s ∈ b.segments, w.Supplied s := by
    refine fun s hs => ⟨hstocked s hs, fun c hc commit hcommit => ?_⟩
    obtain ⟨hdest, hstored⟩ := hwhole s hs c hc
    rw [← hdest]
    exact (hstored commit hcommit).1
  have hanyOrder : ∀ l : List Segment, l.Perm b.segments → ∃ h',
      Program.result w (l.mapM (resolveSegment policy actor) h) = some (.ok (l.map plan), h') := by
    intro l hperm
    exact htogether l h (fun s hs => hsupplied s (hperm.subset hs)) hfresh
      (haffords.subperm hperm.subperm) (hinj.mono (contents_mono hperm.subset))
  refine ⟨fun s hs => ?_, hanyOrder, fun p hplanned => ?_⟩
  · exact halone s h.budget (hsupplied s hs) (haffords.subperm (List.singleton_subperm_iff.2 hs))
      (hinj.mono (contents_mono (by simpa using hs)))
  · obtain ⟨h₁, h₂, hbatch, hbranches⟩ := exists_gathered hplanned
    rw [hgathered] at hbatch
    cases hbatch
    obtain ⟨h', hresolved⟩ := hanyOrder p.batch.segments (.refl _)
    have hsame := hbranches.symm.trans hresolved
    simp only [Option.some.injEq, Prod.mk.injEq, Except.ok.injEq] at hsame
    exact ⟨rfl, hsame.1⟩

end World

namespace Sample

/-- The first two siblings once more, for a branch that does not exist yet. -/
def aside : Segment :=
  let side : Branch := ⟨"p", "refs/heads/side"⟩
  ⟨side, [Change.create 4 side actor.id x, Change.create 5 side actor.id y], [4, 5]⟩

/-- However many heads are taken, no other commits are drafted than by the plan for the siblings. -/
theorem draftedFor_siblings : ∀ s ∈ aside :: siblings.plan.batch.segments,
    siblings.world.draftedFor policy actor s ⊆
      {d | ∃ p ∈ siblings.plan.branches, d ∈ p.drafts} := by
  have hfew : ∀ s ∈ aside :: siblings.plan.batch.segments,
      s.headChanges.length ≤ 2 ∧ ∀ k ∈ [0, 1, 2], (Program.result siblings.world
        (BranchPlan.upTo policy actor s k (.start siblings.world.reach))).map (fun r =>
          r.1.map fun p => p.drafts.all (· == merge)) = some (.ok true) := by decide +kernel
  rintro s hs d ⟨k, budget, p, h', hresult, hd⟩
  obtain ⟨hlength, hdrafts⟩ := hfew s hs
  rw [BranchPlan.upTo_eq_min] at hresult
  have hk : min k s.headChanges.length ∈ [0, 1, 2] := by
    simp only [List.mem_cons, List.not_mem_nil, or_false]
    omega
  obtain ⟨⟨r, h₁⟩, hr, hmerge⟩ := Option.map_eq_some_iff.1 (hdrafts _ hk)
  obtain rfl : r = .ok p :=
    (BranchPlan.elastic_upTo policy actor s _).result_unique (h := .start 0) hr hresult
  have hall : p.drafts.all (· == merge) = true := by simpa [Except.map] using hmerge
  rw [eq_of_beq (List.all_eq_true.1 hall d hd)]
  decide

/-- All that these branches need is stored. -/
theorem supplied_siblings : ∀ s ∈ aside :: siblings.plan.batch.segments,
    siblings.world.Supplied s := by
  obtain ⟨h, _, hgathered, _⟩ := World.exists_gathered siblings.planned
  obtain ⟨_, _, _, hwhole⟩ := World.of_gathered (Nat.le_refl _) hgathered
  -- The commits are those of the gathered changes.
  have hcommits : ∀ s ∈ aside :: siblings.plan.batch.segments,
      s.changes.any (·.currentCommit?.isSome) = true ∧
        ∀ c ∈ s.changes, ∃ r ∈ siblings.plan.batch.segments, ∃ c' ∈ r.changes,
          c'.currentCommit? = c.currentCommit? ∧ c'.dest.project = s.branch.project := by decide
  intro s hs
  obtain ⟨hsome, hcommits⟩ := hcommits s hs
  have hboth : ∀ c ∈ s.changes, ∀ commit, c.currentCommit? = some commit →
      siblings.world.Stocked s.branch.project ∧
        siblings.world.Whole s.branch.project commit := by
    intro c hc commit hcommit
    obtain ⟨r, hr, c', hc', hsame, hproject⟩ := hcommits c hc
    have hchange := (hwhole r hr c' hc').2
    have hcommit' := hsame.trans hcommit
    rw [← hproject]
    exact ⟨hchange.stocked hcommit', (hchange commit hcommit').1⟩
  obtain ⟨c, hc, hcommit⟩ := List.any_eq_true.1 hsome
  obtain ⟨commit, hcommit⟩ := Option.isSome_iff_exists.1 hcommit
  exact ⟨(hboth c hc commit hcommit).1, fun c hc commit hcommit => (hboth c hc commit hcommit).2⟩

end Sample

namespace World

/-- The branches of the siblings have the plans that they have by themselves.  So they have after
another branch of the first project, for which the same merge commit is drafted. -/
theorem siblings_resolved_independently :
    let s := Sample.siblings
    let w := s.world
    let l := Sample.aside :: s.plan.batch.segments
    w.ContentAddressed ∧ (∀ r ∈ l, w.Supplied r) ∧
      Set.InjOn Draft.id (w.contents s.policy s.actor l) ∧
      ∃ plan, w.Resolves s.policy s.actor plan ∧
        s.plan.branches = s.plan.batch.segments.map plan ∧
        (∃ h', Program.result w
          (l.mapM (Submission.resolveSegment s.policy s.actor) (.start w.reach)) =
            some (.ok (l.map plan), h')) ∧
        ∀ r ∈ l, r.branch.project = "p" → (plan r).drafts = [Sample.merge] := by
  intro s w l
  have hinj : Set.InjOn Draft.id (w.contents s.policy s.actor l) := by
    refine Sample.siblings_collisionFree.mono (Set.union_subset_union_right _ ?_)
    rintro d ⟨r, hr, hd⟩
    exact Sample.draftedFor_siblings r hr hd
  have haffords : w.Affords l w.reach := by
    have hheads : (l.flatMap (·.headChanges)).length ≤ 2 * w.changes.size := by decide
    intro q
    have hcount := w.commitCount_add_lt_reach q
    omega
  obtain ⟨plan, hplan⟩ := resolved_independently s.contentAddressed s.policy s.actor
  refine ⟨s.contentAddressed, Sample.supplied_siblings, hinj, plan, hplan, ?_, ?_, ?_⟩
  · obtain ⟨h, _, hgathered, _⟩ := exists_gathered s.planned
    obtain ⟨_, _, hsame⟩ := hplan.submitted s.change _ _ h (Nat.le_refl _) hgathered
      (fun r hr => (Sample.supplied_siblings r (List.mem_cons_of_mem _ hr)).stocked)
      (hinj.mono (contents_mono (List.subset_cons_self _ _)))
    exact (hsame s.plan s.planned).2
  · exact hplan.together l _ Sample.supplied_siblings (History.faithful_start w _) haffords hinj
  · have hdrafts : ∀ r ∈ l, r.branch.project = "p" → (Program.result w
        (BranchPlan.compute s.policy s.actor r (.start w.reach))).map (fun o =>
          o.1.map (·.drafts)) = some (.ok [Sample.merge]) := by decide +kernel
    intro r hr hproject
    obtain ⟨h', hresult⟩ := hplan.alone r w.reach (Sample.supplied_siblings r hr)
      (haffords.subperm (List.singleton_subperm_iff.2 hr))
      (hinj.mono (contents_mono (by simpa using hr)))
    have hdraft := hdrafts r hr hproject
    rw [hresult] at hdraft
    simpa [Except.map] using hdraft

end World
end Landing
