import Landing.Proofs.Program.Failing
import Landing.Proofs.Submission.Plan

/-!
# Whom an answer names

What planning comes to names changes in several ways: a failure names the requested
change, the changes with a problem, and the owners of the commits that these depend on;
a plan lists the changes of its batch; and the merge commits of a plan list changes by
number and quote the subjects of their commits.

All of these are changes that the actor sees, apart from the requested one
(`World.namesOnly_of_plan`, `World.sees_of_plan`).  The changes of a batch
were asked for one by one before the batch was made, and the owner of a commit is asked
for before a problem names it.
-/

namespace Landing

open World Study

/-! ### Names -/

/-- The change that an obstacle names. -/
def Obstacle.owner? : Obstacle → Option ChangeId
  | notSubmitted _ _ owner => some owner
  | outdatedPatchSet _ _ owner _ _ => some owner
  | notVisibleOrDeleted .. | pathConflict .. | fastForwardRequired => none

/-- The changes that a report names. -/
def Report.named (r : Report) : List ChangeId :=
  r.problems.flatMap fun p => p.change :: p.obstacle.owner?.toList

/-- The change that an error of the stores names. -/
def StoreError.named? : StoreError → Option ChangeId
  | changeNotFound id => some id
  | _ => none

/-- The change that a step was taken for. -/
def TakenStep.named? : TakenStep → Option ChangeId
  | refSwap .. => none
  | markMerged change => some change

/-- All changes that the failure names are as in `P`.  A step that could not be undone is named by its
description. -/
def Failure.NamesOnly (P : ChangeId → Prop) : Failure → Prop
  | notFound change => P change
  | notVisible change => P change
  | notOpen change _ => P change
  | dependency report => ∀ id ∈ report.named, P id
  | conflict report => ∀ id ∈ report.named, P id
  | rollbackFailed step cause =>
    (∃ taken : TakenStep, step = taken.describe ∧ ∀ id ∈ taken.named?, P id) ∧
      ∀ id ∈ cause.named?, P id
  | storage cause => ∀ id ∈ cause.named?, P id
  | concurrentModification .. | unsupportedFormat .. | archive .. => True

theorem Report.mem_named {r : Report} {id : ChangeId} : id ∈ r.named ↔
    ∃ p ∈ r.problems, id = p.change ∨ id ∈ p.obstacle.owner? := by
  simp [named]

theorem Failure.NamesOnly.mono {P Q : ChangeId → Prop} {f : Failure} (hf : f.NamesOnly P)
    (hPQ : ∀ id, P id → Q id) : f.NamesOnly Q := by
  cases f with
  | notFound change => exact hPQ _ hf
  | notVisible change => exact hPQ _ hf
  | notOpen change status => exact hPQ _ hf
  | dependency report => exact fun id hid => hPQ id (hf id hid)
  | conflict report => exact fun id hid => hPQ id (hf id hid)
  | storage cause => exact fun id hid => hPQ id (hf id hid)
  | rollbackFailed step cause =>
    obtain ⟨⟨taken, hstep, hnamed⟩, hcause⟩ := hf
    exact ⟨⟨taken, hstep, fun id hid => hPQ id (hnamed id hid)⟩, fun id hid => hPQ id (hcause id hid)⟩
  | _ => trivial

namespace World

variable {w : World}

/-- The answers that the world gives. -/
def Answers (w : World) (c : StoreCall) (r : Except StoreError c.Reply) : Prop := (w.answer c).1 = r

/-- The change is recorded, and the account sees it. -/
structure Sees (w : World) (actor : AccountId) (c : Change) : Prop where
  recorded : w.changes.get? c.id = some c
  visible : w.isVisible actor c = true

/-- The change of this number is the requested one, or the account sees it. -/
def MayName (w : World) (actor : AccountId) (requested id : ChangeId) : Prop :=
  id = requested ∨ ∃ c, c.id = id ∧ w.Sees actor c

/-- A hidden change may not be named unless it is the requested one. -/
theorem not_mayName_of_hidden {actor : AccountId} {requested id : ChangeId} {c : Change}
    (hget : w.changes.get? id = some c) (hhidden : w.isVisible actor c = false)
    (hne : id ≠ requested) : ¬ w.MayName actor requested id := by
  rintro (heq | ⟨seen, rfl, hseen⟩)
  · exact hne heq
  · obtain rfl : seen = c := Option.some.inj (hseen.recorded.symm.trans hget)
    rw [hseen.visible] at hhidden
    cases hhidden

theorem Answers.shows {P : Change → Prop} (hP : ∀ c ∈ w.changes.values, P c) {c : StoreCall}
    {r : Except StoreError c.Reply} (hr : w.Answers c r) : w.Shows P c r := by
  rw [← show (w.answer c).1 = r from hr]
  exact shows_answer hP c

/-- A study that the world answers is one that it shows its commits and branches to. -/
theorem yields_of_answers {ε α : Type} {x : Study ε α} {h h' : History} {a : α}
    (hy : Study.Yields w.Answers x h a h') : w.Yields x h a h' :=
  hy.mono fun _ _ hr => hr.shows fun _ _ => trivial

end World

/-- The change whose record is to be written. -/
def StoreCall.marked? : StoreCall → Option ChangeId
  | markMerged id _ _ => some id
  | reopen id => some id
  | _ => none

/-- An error names no change but the one whose record was to be written. -/
def StoreCall.NamesOwn (c : StoreCall) (r : Except StoreError c.Reply) : Prop :=
  ∀ e, r = .error e → ∀ id ∈ e.named?, id ∈ c.marked?

namespace World

variable {w : World}

theorem named?_of_project? {project : ProjectName} {e : StoreError}
    (he : w.project? project = .error e) : e.named? = none := by
  unfold project? at he
  split at he
  · cases he
  · cases he
    rfl

theorem named?_of_compareAndSwap {branch : Branch} {old new : Option CommitId} {e : StoreError}
    (he : w.compareAndSwap branch old new = .error e) : e.named? = none := by
  unfold compareAndSwap at he
  split at he
  · next hproject =>
    cases he
    exact named?_of_project? hproject
  · dsimp only at he
    split at he
    · cases he
      rfl
    · split at he
      · split at he
        · cases he
        · cases he
          rfl
      · cases he

/-- An order fails when what it orders does. -/
theorem of_settle {α β : Type} {f : β → α × World} {r : Except StoreError β} {e : StoreError}
    (he : (w.settle (r.map f)).1 = .error e) : r = .error e := by
  cases r with
  | error e' =>
    cases he
    rfl
  | ok b => cases he

theorem updateChange_eq_error {id : ChangeId} {f : Change → Change} {e : StoreError}
    (he : w.updateChange id f = .error e) : e = .changeNotFound id := by
  unfold updateChange at he
  split at he
  · cases he
  · cases he
    rfl

theorem named?_of_readCommit {project : ProjectName} {id : CommitId} {e : StoreError}
    (he : w.readCommit project id = .error e) : e.named? = none := by
  unfold readCommit at he
  split at he
  · next hproject =>
    cases he
    exact named?_of_project? hproject
  · split at he
    · cases he
    · cases he
      rfl

theorem named?_of_branches {project : ProjectName} {e : StoreError}
    (he : w.branches project = .error e) : e.named? = none := by
  unfold branches at he
  cases hproject : w.project? project with
  | error e' =>
    rw [hproject] at he
    cases he
    exact named?_of_project? hproject
  | ok p =>
    rw [hproject] at he
    cases he

theorem named?_of_putCommit {project : ProjectName} {d : Draft} {e : StoreError}
    (he : w.putCommit project d = .error e) : e.named? = none := by
  unfold putCommit at he
  split at he
  · next hproject =>
    cases he
    exact named?_of_project? hproject
  · dsimp only at he
    split at he
    · cases he
    · cases he

/-- Only the two calls that write a record name a change in their errors. -/
theorem namesOwn_answer (w : World) (c : StoreCall) : c.NamesOwn (w.answer c).1 := by
  intro e he
  have hnone : e.named? = none → ∀ id ∈ e.named?, id ∈ c.marked? := by
    intro hnamed id hid
    rw [hnamed] at hid
    cases hid
  cases c with
  | commit project id => exact hnone (named?_of_readCommit he)
  | branches project => exact hnone (named?_of_branches he)
  | insertCommit project d => exact hnone (named?_of_putCommit (of_settle he))
  | compareAndSwap branch old new => exact hnone (named?_of_compareAndSwap (of_settle he))
  | markMerged id tip submitter =>
    rw [updateChange_eq_error (of_settle he)]
    exact fun _ hid => hid
  | reopen id =>
    rw [updateChange_eq_error (of_settle he)]
    exact fun _ hid => hid
  | get | byCommit | openByTopic | isVisible => cases he

end World

/-- A question that fails names no change. -/
theorem Failure.PassedOn.namesOnly {w : World} {P : ChangeId → Prop} {f : Failure}
    (hf : f.PassedOn w.Answers) : f.NamesOnly P := by
  obtain ⟨c, e, hc, he, rfl⟩ := hf
  intro id hid
  have hmarked := w.namesOwn_answer c e he id hid
  cases c with
  | insertCommit | compareAndSwap | markMerged | reopen => exact hc.elim
  | _ => cases hmarked

/-- A study that only asks, with own failures that name what they may, names nothing else. -/
theorem Study.IsInquiry.namesOnly {w : World} {P : ChangeId → Prop} {α : Type} {x : Planning α}
    (hx : Study.IsInquiry (·.NamesOnly P) x) {h : History} {f : Failure}
    (hfails : FailsWith w.Answers x h f) : f.NamesOnly P := by
  rcases hx.of_failsWith hfails with hown | hpassed
  · exact hown
  · exact Failure.PassedOn.namesOnly hpassed

/-! ### The message of a merge commit -/

/-- The message is that of a merge commit for some changes as in `P`.  It lists their numbers and quotes
the subjects of their current commits. -/
def Draft.Quotes (w : World) (project : ProjectName) (P : Change → Prop) (d : Draft) : Prop :=
  ∃ listed : List (ChangeId × String), d.message = mergeMessage listed ∧
    ∀ e ∈ listed, ∃ c own k, P c ∧ c.id = e.1 ∧ c.currentCommit? = some own ∧
      (w.commit? project own = some k ∨ ∃ d : Draft, d.id = own ∧ d.commit = k) ∧ k.subject = e.2

theorem Draft.Quotes.mono {w : World} {project : ProjectName} {P Q : Change → Prop} {d : Draft}
    (hd : d.Quotes w project P) (hPQ : ∀ c, P c → Q c) : d.Quotes w project Q := by
  obtain ⟨listed, hmessage, hlisted⟩ := hd
  refine ⟨listed, hmessage, fun e he => ?_⟩
  obtain ⟨c, own, k, hc, hrest⟩ := hlisted e he
  exact ⟨c, own, k, hPQ c hc, hrest⟩

namespace BranchPlan

variable {w : World} {ds : ProjectName → List Draft} {h h' : History}
variable {project : ProjectName} {policy : Policy} {actor : Account} {segment : Segment}
variable {changes : List Change} {covered : List (ChangeId × CommitId)}

/-- The changes that a step brings in are among those it is given, with their current commits. -/
theorem mem_of_coveredBy {A : (c : StoreCall) → Except StoreError c.Reply → Prop}
    {commit running : CommitId} {integrated : List ChangeId}
    (hy : Study.Yields A (coveredBy project commit running integrated changes) h covered h') :
    ∀ e ∈ covered, ∃ c ∈ changes, c.id = e.1 ∧ c.currentCommit? = some e.2 := by
  intro e he
  have hmem := (yields_filterM (I := fun _ => True) (P := fun _ _ => True)
    (fun _ _ _ _ _ _ _ => ⟨trivial, trivial⟩) trivial hy).2.1.subset he
  obtain ⟨c, hc, hmap⟩ := List.mem_filterMap.1 hmem
  obtain ⟨own, hown, rfl⟩ := Option.map_eq_some_iff.1 hmap
  exact ⟨c, hc, rfl, hown⟩

/-- A merge commit quotes the changes that its step brings in. -/
theorem quotes_of_draftMerge (hf : h.Faithful w ds) {running commit : CommitId} {d : Draft}
    (hcovered : ∀ e ∈ covered, ∃ c ∈ changes, c.id = e.1 ∧ c.currentCommit? = some e.2)
    (hy : w.Yields (draftMerge policy actor project running commit covered) h (.ok d) h') :
    d.Quotes w project (· ∈ changes) := by
  simp only [draftMerge, yields_bind] at hy
  obtain ⟨base, h₁, hbase, ours, h₂, hours, theirs, h₃, htheirs, hy⟩ := hy
  have hf₃ := (yields_treeAt (yields_treeAt (yields_baseTree hf hbase) hours).1 htheirs).1
  split at hy
  · cases (yields_pure.1 hy).1
  · simp only [yields_bind, yields_pure, Except.ok.injEq] at hy
    obtain ⟨subjects, h₄, hsubjects, _, _, _, rfl, _⟩ := hy
    obtain ⟨_, hall⟩ := yields_mapM (I := fun h => h.Faithful w ds)
      (R := fun (e : ChangeId × CommitId) (s : ChangeId × String) => s.1 = e.1 ∧
        ∃ k, w.Known (ds project) project e.2 k ∧ k.subject = s.2)
      (fun e _ h s h' hI hs => by
        simp only [yields_bind, yields_pure] at hs
        obtain ⟨k, _, hk, rfl, rfl⟩ := hs
        obtain ⟨hI', hknown⟩ := yields_commit hI hk
        exact ⟨hI', rfl, k, hknown, rfl⟩) hf₃ hsubjects
    refine ⟨subjects, rfl, fun s hs => ?_⟩
    obtain ⟨e, he, hid, k, hknown, hsubject⟩ := exists_left_of_forall₂ hall hs
    obtain ⟨c, hc, hce, hown⟩ := hcovered e he
    refine ⟨c, e.2, k, hc, hce.trans hid.symm, hown, hknown.imp_right ?_, hsubject⟩
    rintro ⟨d, _, hd, rfl⟩
    exact ⟨d, hd, rfl⟩

/-- What the plan of a branch tells: its merge commits quote changes of the segment, and if it is given
up, then because of one of them, and no other change is named. -/
structure Tells (w : World) (segment : Segment) (p : BranchPlan) : Prop where
  branch_eq : p.branch = segment.branch
  quotes : ∀ d ∈ p.drafts, d.Quotes w segment.branch.project (· ∈ segment.changes)
  names : ∀ pr, p.state.problem? = some pr →
    pr.obstacle.owner? = none ∧ ∃ c ∈ segment.changes, c.id = pr.change

theorem Tells.takeHead {p p' : BranchPlan} (hp : p.Tells w segment) (hf : h.Faithful w ds)
    {integrated integrated' : List ChangeId} {head : Change} (hhead : head ∈ segment.changes)
    {commit : CommitId} (hy : w.Yields
      (BranchPlan.takeHead policy actor segment p integrated head.id commit) h (p', integrated') h') :
    p'.Tells w segment := by
  have habort : ∀ o : Obstacle, o.owner? = none → (p.abort head.id o).Tells w segment := by
    refine fun o ho => ⟨hp.branch_eq, hp.quotes, fun pr hpr => ?_⟩
    cases hpr
    exact ⟨ho, head, hhead, rfl⟩
  unfold BranchPlan.takeHead at hy
  split at hy
  · cases (yields_pure.1 hy).1
    exact ⟨hp.branch_eq, hp.quotes, hp.names⟩
  · next running _ =>
    simp only [yields_bind] at hy
    obtain ⟨b, h₁, hb, hy⟩ := hy
    have hf₁ := (yields_isAncestor hf hb).1
    split at hy
    · cases (yields_pure.1 hy).1
      exact hp
    · simp only [yields_bind] at hy
      obtain ⟨possible, h₂, hpossible, hy⟩ := hy
      have hf₂ := (yields_isAncestor hf₁ hpossible).1
      split at hy
      · cases (yields_pure.1 hy).1
        exact habort _ rfl
      · simp only [yields_bind] at hy
        obtain ⟨covered, h₃, hcovered, hy⟩ := hy
        have hf₃ := (yields_coveredBy hf₂ hcovered).1
        split at hy
        · cases (yields_pure.1 hy).1
          exact ⟨hp.branch_eq, hp.quotes, hp.names⟩
        · simp only [yields_bind] at hy
          obtain ⟨r, h₄, hr, hy⟩ := hy
          split at hy
          · next d =>
            cases (yields_pure.1 hy).1
            have hd := quotes_of_draftMerge hf₃ (mem_of_coveredBy hcovered) hr
            refine ⟨hp.branch_eq, fun d' hd' => ?_, hp.names⟩
            rcases List.mem_append.1 hd' with hold | hnew
            · exact hp.quotes d' hold
            · rw [List.mem_singleton.1 hnew]
              exact hd
          · cases (yields_pure.1 hy).1
            exact habort _ rfl

theorem Tells.takeHeads {p q : BranchPlan} (hp : p.Tells w segment) (hf : h.Faithful w ds)
    {integrated : List ChangeId} {heads : List Change} (hheads : ∀ t ∈ heads, t ∈ segment.changes)
    (hy : w.Yields (BranchPlan.takeHeads policy actor segment p integrated heads) h q h') :
    q.Tells w segment := by
  induction heads generalizing p integrated ds h with
  | nil =>
    obtain ⟨rfl, rfl⟩ := yields_pure.1 hy
    exact ⟨hp.branch_eq, hp.quotes, fun pr hpr => by cases hpr⟩
  | cons head heads ih =>
    have hrest : ∀ t ∈ heads, t ∈ segment.changes := fun t ht => hheads t (by simp [ht])
    rw [BranchPlan.takeHeads] at hy
    split at hy
    · exact ih hp hf hrest hy
    · next commit _ =>
      simp only [yields_bind] at hy
      obtain ⟨⟨p₁, integrated₁⟩, h₁, hhead, hy⟩ := hy
      obtain ⟨ds₁, hf₁, -⟩ := yields_takeHead_move hf hhead
      have hp₁ := hp.takeHead hf (hheads head (by simp)) hhead
      split at hy
      · obtain ⟨rfl, rfl⟩ := yields_pure.1 hy
        exact hp₁
      · exact ih hp₁ hf₁ hrest hy

/-- What the plan of a segment tells. -/
theorem tells_of_compute (hf : h.Faithful w ds) {p : BranchPlan}
    (hy : w.Yields (compute policy actor segment) h p h') :
    (∃ ds', h'.Faithful w ds') ∧ p.Tells w segment := by
  simp only [compute, yields_bind] at hy
  obtain ⟨oldTip, h₁, htip, hy⟩ := hy
  have hf₁ := (yields_tip? hf htip).1
  obtain ⟨ds', hf', -⟩ := yields_takeHeads_rounds hf₁ rfl hy
  refine ⟨⟨ds', hf'⟩, Tells.takeHeads ?_ hf₁ (fun t ht => (List.mem_filter.1 ht).1) hy⟩
  exact ⟨rfl, fun d hd => (by cases hd), fun pr hpr => (by cases hpr)⟩

end BranchPlan

/-! ### The problems of a batch -/

namespace Validation

variable {w : World} {h h' : History} {actor : AccountId}

/-- A problem names the owner of a commit only if the account sees this change. -/
theorem visible_of_classify {commit dependsOn : CommitId} {owner : Change} {o : Obstacle}
    (hy : Study.Yields w.Answers (classify actor commit dependsOn owner) h o h') :
    ∀ id ∈ o.owner?, id = owner.id ∧ w.isVisible actor owner = true := by
  simp only [classify, yields_bind, yields_planning_ask (c := .isVisible actor owner)] at hy
  obtain ⟨visible, _, ⟨hanswer, rfl⟩, hy⟩ := hy
  have hvisible : w.isVisible actor owner = visible := Except.ok.inj hanswer
  split at hy
  · next htrue =>
    -- All obstacles of a visible owner name the owner.
    have hnamed : o.owner? = some owner.id := by
      split at hy
      · split at hy
        · rw [(yields_pure.1 hy).1]
          rfl
        · rw [(yields_pure.1 hy).1]
          rfl
      · rw [(yields_pure.1 hy).1]
        rfl
    intro id hid
    rw [hnamed] at hid
    cases hid
    exact ⟨rfl, hvisible.trans htrue⟩
  · rw [(yields_pure.1 hy).1]
    intro id hid
    cases hid

/-- Whatever the first unmet dependency is, an owner that is named is a change that the account
sees. -/
theorem sees_of_firstUnmet (hkeyed : w.Keyed) {project : ProjectName} {own : CommitId}
    {batchCommits seen queue : List CommitId} {o : Obstacle}
    (hy : Study.Yields w.Answers (firstUnmet actor project own batchCommits seen queue) h (some o)
      h') : ∀ id ∈ o.owner?, ∃ c, c.id = id ∧ w.Sees actor c := by
  induction queue generalizing seen h with
  | nil => cases (yields_pure.1 hy).1
  | cons c queue ih =>
    rw [firstUnmet] at hy
    split at hy
    · exact ih hy
    · simp only [yields_bind, yields_lift] at hy
      obtain ⟨b, h₁, _, hy⟩ := hy
      split at hy
      · exact ih hy
      · simp only [yields_bind, yields_planning_ask (c := .byCommit project c)] at hy
        obtain ⟨owners, _, ⟨hanswer, rfl⟩, hy⟩ := hy
        split at hy
        · exact ih hy
        · split at hy
          · cases (yields_pure.1 hy).1
            intro id hid
            cases hid
          · next owner howner =>
            obtain ⟨o', hclassify, heq⟩ := yields_map.1 hy
            cases heq
            have howners : w.changesAt project c = owners := Except.ok.inj hanswer
            have hmem := mem_of_lowest? howner
            rw [← howners] at hmem
            intro id hid
            obtain ⟨rfl, hvisible⟩ := visible_of_classify hclassify id hid
            exact ⟨owner, rfl, hkeyed.get?_of_mem (List.mem_filter.1 hmem).1, hvisible⟩

theorem sees_of_obstacle (hkeyed : w.Keyed) {batchCommits : List CommitId} {c : Change}
    {o : Obstacle}
    (hy : Study.Yields w.Answers (obstacle actor batchCommits c) h (some o) h') :
    ∀ id ∈ o.owner?, ∃ c, c.id = id ∧ w.Sees actor c := by
  unfold obstacle at hy
  split at hy
  · cases (yields_pure.1 hy).1
  · simp only [yields_bind, yields_lift] at hy
    obtain ⟨ps, h₁, _, hy⟩ := hy
    exact sees_of_firstUnmet hkeyed hy

/-- A problem of a batch is one of its changes, and an owner that it names is a change that the account
sees. -/
theorem named_of_check (hkeyed : w.Keyed) {b : Batch} {f : Failure}
    (hfails : FailsWith w.Answers (check actor b) h f) :
    f.NamesOnly fun id => (∃ c ∈ b.changes, c.id = id) ∨ ∃ c, c.id = id ∧ w.Sees actor c := by
  rcases failsWith_bind.1 hfails with hasking | ⟨found, h₁, hfound, hend⟩
  · exact (isInquiry_mapM fun c _ => isInquiry_obstacle.bind fun o => isInquiry_pure _).namesOnly
      hasking
  · have hall := (yields_mapM (I := fun _ => True)
      (R := fun (c : Change) (p : Option Problem) => ∀ pr, p = some pr → pr.change = c.id ∧
        ∀ id ∈ pr.obstacle.owner?, ∃ c, c.id = id ∧ w.Sees actor c)
      (fun c _ h p h' _ hp => by
        simp only [yields_bind, yields_pure] at hp
        obtain ⟨o, _, ho, rfl, rfl⟩ := hp
        refine ⟨trivial, fun pr hpr => ?_⟩
        obtain ⟨obstacle, rfl, rfl⟩ := Option.map_eq_some_iff.1 hpr
        exact ⟨rfl, sees_of_obstacle hkeyed ho⟩) trivial hfound).2
    dsimp only at hend
    split at hend
    · exact absurd hend failsWith_pure
    · rw [failsWith_throw] at hend
      rw [hend]
      intro id hid
      obtain ⟨pr, hpr, hnamed⟩ := Report.mem_named.1 hid
      obtain ⟨p, hp, rfl⟩ := List.mem_filterMap.1 hpr
      obtain ⟨c, hc, hproblem⟩ := exists_left_of_forall₂ hall hp
      obtain ⟨hchange, howner⟩ := hproblem pr rfl
      rcases hnamed with rfl | hid
      · exact .inl ⟨c, hc, hchange.symm⟩
      · exact .inr (howner id hid)

end Validation

/-! ### Planning -/

/-- The plan speaks of changes that the account sees: those of its batch, and those that its merge
commits list and quote. -/
structure Plan.Seen (w : World) (actor : AccountId) (p : Plan) : Prop where
  changes : ∀ c ∈ p.batch.changes, w.Sees actor c
  merges : ∀ project, ∀ d ∈ p.draftsFor project, d.Quotes w project (w.Sees actor)

namespace Closure

variable {wholeTopic : Bool} {actor : AccountId} {requested : Change} {h h' : History}

/-- The members of a closure were asked for one by one. -/
theorem visible_of_compute {w : World} {members : List Change}
    (hy : Study.Yields w.Answers (compute wholeTopic actor requested) h members h') :
    ∀ c ∈ members, w.isVisible actor c = true := by
  simp only [compute, visible, yields_bind, yields_pure] at hy
  obtain ⟨closure, h₁, _, seen, h₂, ⟨verdicts, _, hverdicts, rfl, rfl⟩, hend⟩ := hy
  split at hend
  · next hseen =>
    obtain ⟨rfl, rfl⟩ := yields_pure.1 hend
    have hall := (yields_mapM (I := fun _ => True)
      (R := fun (c : Change) (verdict : Bool) => w.isVisible actor c = verdict)
      (fun c _ h b h' _ hb => by
        obtain ⟨hanswer, _⟩ := (yields_planning_ask (c := .isVisible actor c)).1 hb
        exact ⟨trivial, Except.ok.inj hanswer⟩) trivial hverdicts).2
    intro c hc
    obtain ⟨verdict, hverdict, heq⟩ := exists_right_of_forall₂ hall hc
    rw [heq]
    exact List.all_eq_true.1 hseen verdict hverdict
  · exact absurd hend yields_throw

end Closure

namespace World

variable {w : World} {h h' : History} {policy : Policy} {actor : Account} {change : ChangeId}

/-- The requested change is recorded under its number and open. -/
theorem openRecord_of_requested (hkeyed : w.Keyed) {requested : Change}
    (hy : Study.Yields w.Answers (Submission.requestedChange change actor) h requested h') :
    h' = h ∧ requested.id = change ∧ w.OpenRecord requested := by
  obtain ⟨rfl, hanswer, hopen⟩ := yields_requestedChange hy
  have hget : w.changes.get? change = some requested := Except.ok.inj hanswer
  have hid := hkeyed change requested hget
  rw [← hid] at hget
  exact ⟨rfl, hid, hget, hopen⟩

/-- All members of a closure are changes that the account sees. -/
theorem sees_of_closure (hkeyed : w.Keyed) (hf : h.Fresh w) {wholeTopic : Bool} {actor : AccountId}
    {requested : Change} (hrequested : w.OpenRecord requested) {members : List Change}
    (hy : Study.Yields w.Answers (Closure.compute wholeTopic actor requested) h members h') :
    h'.Fresh w ∧ (members.map (·.id)).Nodup ∧ ∀ c ∈ members, w.Sees actor c := by
  obtain ⟨hf', hnodup, hall⟩ :=
    yields_closure (P := fun c => w.changes.get? c.id = some c) hf
      ⟨hrequested.recorded, hrequested.isOpen⟩
      (hy.mono fun _ _ hr => hr.shows fun _ => hkeyed.get?_of_mem)
  exact ⟨hf', hnodup, fun c hc => ⟨(hall c hc).1.1, Closure.visible_of_compute hy c hc⟩⟩

/-- Two steps of planning that make the batch: it holds changes that the account sees, and nothing is
drafted yet. -/
theorem sees_of_batch (hkeyed : w.Keyed) (hf : h.Fresh w) {wholeTopic : Bool} {actor : AccountId}
    {requested : Change} (hrequested : w.OpenRecord requested) {members : List Change} {b : Batch}
    {h₁ : History}
    (hmembers : Study.Yields w.Answers (Closure.compute wholeTopic actor requested) h members h₁)
    (hbatch : Study.Yields w.Answers (Batch.order members) h₁ b h') :
    h'.Fresh w ∧ ∀ c ∈ b.changes, w.Sees actor c := by
  obtain ⟨hf₁, hnodup, hsees⟩ := sees_of_closure hkeyed hf hrequested hmembers
  exact ⟨(yields_batch hf₁ hnodup (yields_of_answers hbatch)).1, fun c hc =>
    hsees c (Batch.mem_members_of_order hbatch c hc)⟩

/-- The plans of the branches tell about changes of their segments only. -/
theorem tells_of_branchPlans {ds : ProjectName → List Draft} (hf : h.Faithful w ds)
    {segments : List Segment} {plans : List BranchPlan}
    (hy : w.Yields (segments.mapM (Submission.resolveSegment policy actor)) h plans h') :
    List.Forall₂ (fun s b => BranchPlan.Tells w s b) segments plans :=
  (yields_mapM (I := fun h => ∃ ds, h.Faithful w ds) (R := fun s b => BranchPlan.Tells w s b)
    (fun s _ h b h' hI hb => by
      obtain ⟨ds, hf⟩ := hI
      exact BranchPlan.tells_of_compute hf (yields_resolveSegment hb)) ⟨ds, hf⟩ hy).2

/-- The problems that make planning give up are about changes of the batch. -/
theorem namesOnly_of_problems {segments : List Segment} {plans : List BranchPlan} {size : Nat}
    (htells : List.Forall₂ (fun s b => BranchPlan.Tells w s b) segments plans) :
    (Failure.conflict ⟨size, plans.filterMap fun b => b.state.problem?⟩).NamesOnly fun id =>
      ∃ c ∈ segments.flatMap (·.changes), c.id = id := by
  intro id hid
  obtain ⟨pr, hpr, hnamed⟩ := Report.mem_named.1 hid
  obtain ⟨plan, hplan, hproblem⟩ := List.mem_filterMap.1 hpr
  obtain ⟨s, hs, htell⟩ := exists_left_of_forall₂ htells hplan
  obtain ⟨hnone, c, hc, heq⟩ := htell.names pr hproblem
  rcases hnamed with rfl | hnamed
  · exact ⟨c, List.mem_flatMap.2 ⟨s, hs, hc⟩, heq⟩
  · rw [hnone] at hnamed
    cases hnamed

/-- **A planning that fails names only what the account sees**, apart from the requested change. -/
theorem namesOnly_of_plan (hkeyed : w.Keyed) {budget : Nat} {f : Failure}
    (hfails : FailsWith w.Answers (Submission.plan policy change actor) (.start budget) f) :
    f.NamesOnly (w.MayName actor.id change) := by
  rcases failsWith_bind.1 hfails with hrequest | ⟨requested, h₁, hrequested, hfails⟩
  · exact (Submission.isInquiry_requestedChange (.inl rfl) (.inl rfl) fun _ => .inl rfl).namesOnly
      hrequest
  obtain ⟨rfl, rfl, hopen⟩ := openRecord_of_requested hkeyed hrequested
  rcases failsWith_bind.1 hfails with hclosure | ⟨members, h₂, hmembers, hfails⟩
  · exact (Closure.isInquiry_compute (.inl rfl)).namesOnly hclosure
  rcases failsWith_bind.1 hfails with horder | ⟨b, h₃, hb, hfails⟩
  · exact (Planning.isInquiry_read Batch.isInquiry_order).namesOnly horder
  obtain ⟨hf₃, hsees⟩ :=
    sees_of_batch hkeyed (History.faithful_start w budget) hopen hmembers (yields_read.1 hb)
  have hlisted : ∀ id, (∃ c ∈ b.changes, c.id = id) → w.MayName actor.id requested.id id := by
    rintro id ⟨c, hc, rfl⟩
    exact .inr ⟨c, rfl, hsees c hc⟩
  rcases failsWith_bind.1 hfails with htell | ⟨_, h₄, htell, hfails⟩
  · exact (Planning.isInquiry_tell rfl).namesOnly htell
  obtain ⟨_, rfl⟩ := yields_tell.1 htell
  rcases failsWith_bind.1 hfails with hcheck | ⟨_, h₅, hcheck, hfails⟩
  · exact (Validation.named_of_check hkeyed hcheck).mono fun id hid => hid.elim (hlisted id) .inr
  rcases failsWith_bind.1 hfails with hresolve | ⟨plans, h₆, hplans, hend⟩
  · exact (isInquiry_mapM fun s _ => Submission.isInquiry_resolveSegment).namesOnly hresolve
  have hf₅ := (yields_check hf₃ (yields_of_answers hcheck)).1
  have htells := tells_of_branchPlans hf₅ (yields_of_answers hplans)
  dsimp only at hend
  split at hend
  · exact (isInquiry_get.bind fun _ => isInquiry_pure _).namesOnly hend
  · rw [failsWith_throw.1 hend]
    exact (namesOnly_of_problems htells).mono hlisted

/-- **A plan speaks only of what the account sees**: its changes are seen, and its merge commits quote
no others. -/
theorem sees_of_plan (hkeyed : w.Keyed) {budget : Nat} {p : Plan}
    (hy : Study.Yields w.Answers (Submission.plan policy change actor) (.start budget) p h') :
    p.Seen w actor.id := by
  obtain ⟨requested, h₁, members, h₂, h₃, h₄, hrequested, hmembers, hb, hcheck, hplans, _⟩ :=
    yields_plan_parts hy
  obtain ⟨rfl, _, hopen⟩ := openRecord_of_requested hkeyed hrequested
  obtain ⟨hf₃, hsees⟩ :=
    sees_of_batch hkeyed (History.faithful_start w budget) hopen hmembers hb
  have hf₄ := (yields_check hf₃ (yields_of_answers hcheck)).1
  have htells := tells_of_branchPlans hf₄ (yields_of_answers hplans)
  have hmade := (yields_plan (yields_of_answers hy)).1
  refine ⟨hsees, fun project d hd => ?_⟩
  obtain ⟨b, hb, rfl, hdrafts⟩ := hmade.drafted project d hd
  obtain ⟨s, hs, htell⟩ := exists_left_of_forall₂ htells hb
  rw [htell.branch_eq]
  exact (htell.quotes d hdrafts).mono fun c hc => hsees c (List.mem_flatMap.2 ⟨s, hs, hc⟩)

end World

end Landing
