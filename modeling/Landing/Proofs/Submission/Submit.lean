import Landing.Proofs.Submission.Apply

/-!
# Runs of previews and submissions

In a world without trouble everything is decided by what planning comes to,
`World.planned`.  A preview shows the tips of the plan and changes nothing.  A
submission ends as planning ends, and when there is a plan it applies it
(`World.run_preview`, `World.run_submit_of_plan`).  The other way round, a
submission that succeeds has made a plan and carried it out
(`World.exists_plan_of_run_submit`).

A `Scenario` is a world with the plan that planning comes to in it.  There are two
of them to look at, one where commits are merged (`Sample.siblings`) and one where
a commit is up for review in another project (`Sample.fork`).
-/

namespace Landing

open Submission

/-- Whether a plan was applied makes no difference to the tips. -/
theorem Plan.tips_markApplied (p : Plan) : p.markApplied.tips = p.tips := by
  unfold tips moving markApplied
  rw [List.filter_map, List.filterMap_map]
  rfl

namespace World

variable {w w' : World} {policy : Policy} {budget : Nat} {change : ChangeId} {actor : Account}
variable {p : Plan}

/-- What planning comes to: a plan or a failure, or nothing when the budget is used up. -/
def planned (w : World) (policy : Policy) (budget : Nat) (change : ChangeId) (actor : Account) :
    Option (Except Failure Plan) :=
  (w.run (withHistory budget (plan policy change actor))).1

/-- Planning changes nothing, and a plan is one that planning yields. -/
theorem run_withHistory {α : Type} {x : Planning α} (hx : Planning.IsInquiry x) :
    w.run (withHistory budget x) =
      ((Program.result w (x (History.start budget))).map (·.1), w) := by
  show w.run (x (History.start budget) >>= fun r => pure r.1) = _
  rw [run_bind, run_of_inquires (hx.inquires _)]
  cases Program.result w (x (History.start budget)) with
  | none => rfl
  | some r => rfl

theorem run_planning (w : World) (policy : Policy) (budget : Nat) (change : ChangeId)
    (actor : Account) : w.run (withHistory budget (plan policy change actor)) =
      (w.planned policy budget change actor, w) := by
  rw [planned, run_withHistory isInquiry_plan]

/-- A plan that was made is one that planning yields where changes are shown as they are recorded. -/
theorem yields_of_planned (hkeyed : w.Keyed)
    (hplanned : w.planned policy budget change actor = some (.ok p)) :
    ∃ h', Study.Yields (w.Shows fun c => w.changes.get? c.id = some c) (plan policy change actor)
      (.start budget) p h' := by
  rw [planned, run_withHistory isInquiry_plan] at hplanned
  obtain ⟨⟨r, h'⟩, hresult, rfl⟩ := Option.map_eq_some_iff.1 hplanned
  exact ⟨h', Program.mayCome_of_result (shows_answer fun _ => hkeyed.get?_of_mem) hresult⟩

/-- Everything that is said about plans holds of a plan that was made. -/
theorem of_planned (hkeyed : w.Keyed)
    (hplanned : w.planned policy budget change actor = some (.ok p)) : p.Of w := by
  obtain ⟨h', hyields⟩ := yields_of_planned hkeyed hplanned
  exact (yields_plan hyields).1.of

/-- Planning does not fail because something could not be undone. -/
theorem ne_rollbackFailed_of_planned {f : Failure}
    (hplanned : w.planned policy budget change actor = some (.error f)) (step : String)
    (cause : StoreError) : f ≠ .rollbackFailed step cause := by
  rw [planned, run_withHistory isInquiry_plan] at hplanned
  obtain ⟨⟨r, h'⟩, hresult, rfl⟩ := Option.map_eq_some_iff.1 hplanned
  rcases (isInquiry_plan.inquires (History.start budget)).of_mayCome
    (Program.mayCome_of_result (A := fun _ _ => True) (fun _ => trivial) hresult) with
      hown | ⟨_, e, _, _, rfl⟩
  · exact hown step cause
  · exact Failure.noConfusion

/-- A preview shows the tips of the plan. -/
theorem run_preview (w : World) (policy : Policy) (budget : Nat) (change : ChangeId)
    (actor : Account) : w.run (preview policy budget change actor) =
      ((w.planned policy budget change actor).map (Except.map Plan.tips), w) := by
  rw [preview, run_tell_bind, run_bind, run_planning]
  cases w.planned policy budget change actor with
  | none => rfl
  | some r => rfl

/-- Planning and applying, when there is a plan that can be carried out. -/
theorem run_planAndApply_of_plan (hplanned : w.planned policy budget change actor = some (.ok p))
    (hplan : p.Of w) (hland : w.CanLand p) :
    w.run (planAndApply policy budget change actor) =
      (some (.ok p.markApplied), p.landed w) := by
  rw [planAndApply, run_bind, run_planning, hplanned]
  dsimp only
  rw [run_bind, run_apply_of_canLand hplan hland]
  rfl

/-- Publishing events changes no world. -/
theorem run_publish (w : World) (events : List Event) : w.run (publish events) = (some (), w) := by
  induction events with
  | nil => rfl
  | cons e events ih =>
    show w.run (Program.tell (.published e) >>= fun _ => publish events) = _
    rw [run_tell_bind, ih]

/-- A submission without a plan ends without one and changes nothing. -/
theorem run_submit_of_no_plan (hplanned : ∀ p, w.planned policy budget change actor ≠ some (.ok p)) :
    w.run (submit policy budget change actor) =
      ((w.planned policy budget change actor).map (Except.map fun _ => ⟨.empty, []⟩), w) := by
  rw [submit, run_tell_bind, run_bind, planAndApply, run_bind, run_planning]
  cases hr : w.planned policy budget change actor with
  | none => rfl
  | some r =>
    cases r with
    | error failure => rfl
    | ok p => exact absurd hr (hplanned p)

/-- A submission with a plan applies it. -/
theorem run_submit_of_plan (hplanned : w.planned policy budget change actor = some (.ok p))
    (hplan : p.Of w) (hland : w.CanLand p) :
    w.run (submit policy budget change actor) =
      (some (.ok ⟨p.tips, p.batch.changes.map (·.id)⟩), p.landed w) := by
  rw [submit, run_tell_bind, run_bind, run_planAndApply_of_plan hplanned hplan hland]
  dsimp only
  rw [run_tell_bind, run_bind, run_publish, Plan.tips_markApplied]
  rfl

/-- A submission that succeeds has made a plan and has carried it out. -/
theorem exists_plan_of_run_submit (hkeyed : w.Keyed) {outcome : Outcome}
    (hrun : w.run (submit policy budget change actor) = (some (.ok outcome), w')) :
    ∃ p, w.planned policy budget change actor = some (.ok p) ∧ p.Of w ∧ w.CanLand p ∧
      w' = p.landed w := by
  by_cases hplanned : ∃ p, w.planned policy budget change actor = some (.ok p)
  · obtain ⟨p, hp⟩ := hplanned
    have hplan := of_planned hkeyed hp
    -- The steps were all taken, since otherwise the submission would have failed.
    have hland : w.CanLand p := by
      rw [submit, run_tell_bind, run_bind, planAndApply, run_bind, run_planning, hp] at hrun
      dsimp only at hrun
      rw [run_bind] at hrun
      cases happly : w.run p.apply with
      | mk o w₁ =>
        rw [happly] at hrun
        cases o with
        | none => cases hrun
        | some r =>
          cases r with
          | error failure => cases hrun
          | ok r => exact canLand_of_run_apply hplan happly
    rw [run_submit_of_plan hp hplan hland] at hrun
    cases hrun
    exact ⟨p, hp, hplan, hland, rfl⟩
  · rw [run_submit_of_no_plan fun p hp => hplanned ⟨p, hp⟩] at hrun
    cases hr : w.planned policy budget change actor with
    | none =>
      rw [hr] at hrun
      cases hrun
    | some r =>
      cases r with
      | error failure =>
        rw [hr] at hrun
        cases hrun
      | ok p => exact absurd ⟨p, hr⟩ hplanned

end World

namespace Submission

variable {s after : Service} {w : World} {policy : Policy} {budget : Nat} {change : ChangeId}
variable {actor : Account} {p : Plan}

/-- A plan that a service without trouble comes to is a plan of its world. -/
theorem of_run_plan (hcalm : s.backend = .calm w) (hkeyed : w.Keyed)
    (hplanned : (s.run (withHistory budget (plan policy change actor))).1 = some (.ok p)) :
    p.Of w := by
  rw [(Service.run_calm hcalm _).1] at hplanned
  exact World.of_planned hkeyed hplanned

/-- A submission that succeeds has carried out the plan that planning comes to. -/
theorem landed_of_run_submit (hcalm : s.backend = .calm w) (hkeyed : w.Keyed)
    (hplanned : (s.run (withHistory budget (plan policy change actor))).1 = some (.ok p))
    {outcome : Outcome} (hsubmit : s.run (submit policy budget change actor) =
      (some (.ok outcome), after)) :
    p.Of w ∧ w.CanLand p ∧ after.world = p.landed w := by
  have hplan := of_run_plan hcalm hkeyed hplanned
  rw [(Service.run_calm hcalm _).1] at hplanned
  obtain ⟨hended, hafter⟩ := Service.run_calm hcalm (submit policy budget change actor)
  rw [hsubmit] at hended hafter
  obtain ⟨p', hplanned', _, hland, hlanded⟩ :=
    World.exists_plan_of_run_submit hkeyed (Prod.ext hended.symm rfl)
  rw [World.planned, hplanned] at hplanned'
  cases hplanned'
  rw [← hlanded]
  exact ⟨hplan, hland, congrArg Backend.world hafter⟩

end Submission

/-! ### Scenarios -/

/-- A world in good order together with the plan that planning comes to in it. -/
structure Scenario where
  world : World
  policy : Policy
  change : ChangeId
  actor : Account
  plan : Plan
  refsQualified : world.RefsQualified
  keyed : world.Keyed
  unsubmitted : world.Unsubmitted
  acyclic : world.Acyclic
  contentAddressed : world.ContentAddressed
  planned : world.planned policy world.reach change actor = some (.ok plan)

namespace Scenario

variable (s : Scenario)

/-- A service on the stores of a scenario, where nothing goes wrong. -/
def service : Service := Service.start s.world 8

theorem plan_of : s.plan.Of s.world := World.of_planned s.keyed s.planned

theorem canLand : s.world.CanLand s.plan := s.plan_of.possible s.refsQualified

theorem run_plan :
    (s.service.run (withHistory s.world.reach (Submission.plan s.policy s.change s.actor))).1 =
      some (.ok s.plan) := by
  rw [(Service.run_calm (w := s.world) rfl _).1]
  exact s.planned

theorem run_preview :
    (s.service.run (preview s.policy s.world.reach s.change s.actor)).1 =
      some (.ok s.plan.tips) := by
  rw [(Service.run_calm (w := s.world) rfl _).1, World.run_preview, s.planned]
  rfl

/-- The submission succeeds, and it leaves the world of the plan behind. -/
theorem exists_run_submit : ∃ outcome after,
    s.service.run (submit s.policy s.world.reach s.change s.actor) = (some (.ok outcome), after) ∧
      after.world = s.plan.landed s.world := by
  obtain ⟨after, hrun, hafter⟩ := Service.exists_run_of_calm (s := s.service) rfl
    (World.run_submit_of_plan s.planned s.plan_of s.canLand)
  exact ⟨_, after, hrun, congrArg Backend.world hafter⟩

end Scenario

namespace Sample

def ident : Signature := ⟨"a", "a@x"⟩

def actor : Account := ⟨7, ident⟩

def policy : Policy := { Policy.standard with wholeTopic := true }

def root : CommitId := ⟨0x45543282c9eb11d9321c384e6f9579d5317d5cd7af353941b926ae04e2b4b343#256⟩

def x : CommitId := ⟨0xee125d08e952a39a5e7fdef5b7bd110be925d7de9e53cc0b03869a0923821b82#256⟩

def y : CommitId := ⟨0xb8172ca320981ed268eca4e1d28cce9d49d357858262417f39beef4a3b554358#256⟩

def z : CommitId := ⟨0x6fffdc31e00d0ff53160c4d37db0a051ca97ce3807ac5aa9b3f14242d0e560fb#256⟩

/-- The name of a commit on top of `x`. -/
def upper : CommitId := ⟨0xebe2847502f03eb302b8c83a9ff8e4b53b7a8200f57e12dfdc87f06636500423#256⟩

/-- The first commit, which all projects have in common. -/
def first : Commit :=
  { World.rootDraft "p" ident with id := root }

/-- A commit on top of another one that adds an empty file. -/
def second (parent : CommitId) (file : String) (id : CommitId) : Commit where
  parents := [parent]
  tree := Table.empty.insert file ""
  author := ident
  committer := ident
  message := file
  id

def commits : List Commit :=
  [first, second root "x" x, second root "y" y, second root "z" z, second x "u" upper]

theorem named : ∀ c ∈ commits, c.toDraft.id = c.id := by
  decide +kernel

/-- No two of the commits have one name. -/
theorem injOn_commits : Set.InjOn Draft.id {d | ∃ c ∈ commits, c.toDraft = d} := by
  have hdistinct : ∀ c ∈ commits, ∀ c' ∈ commits, c.id = c'.id → c = c' := by decide +kernel
  rintro _ ⟨c, hc, rfl⟩ _ ⟨c', hc', rfl⟩ hid
  rw [named c hc, named c' hc'] at hid
  rw [hdistinct c hc c' hc' hid]

theorem storedDrafts_subset {w : World}
    (hstored : ∀ e ∈ w.projects.entries, ∀ e' ∈ e.2.commits.entries, e'.2 ∈ commits) :
    w.storedDrafts ⊆ {d | ∃ c ∈ commits, c.toDraft = d} := by
  rintro d ⟨q, id, c, hc, rfl⟩
  obtain ⟨p, hp, he⟩ := World.exists_project_of_commit?.1 hc
  exact ⟨c, hstored _ hp _ he, rfl⟩

def rank (id : CommitId) : Nat :=
  if id = root then 0 else if id = upper then 2 else 1

/-- A project with one branch, which is at the first commit. -/
def project (others : List Commit) : Project where
  commits := Table.ofList ((first :: others).map fun c => (c.id, c))
  refs := Table.empty.insert World.firstBranch root

def branch (project : ProjectName) : Branch := ⟨project, World.firstBranch⟩

/-- A change with the one topic in use. -/
def change (id : ChangeId) (project : ProjectName) (commit : CommitId) : Change :=
  (Change.create id (branch project) actor.id commit).withTopic "t"

/-- What merging the siblings `x` and `y` gives. -/
def merge : Draft where
  parents := [x, y]
  tree := Table.ofList [("x", ""), ("y", "")]
  author := ident
  committer := policy.serverIdent
  message := "Merge \"y\""

def mergeId : CommitId := ⟨0xa0aeeba80ab55dbf25a591d06a2089412618b9429949c680a8d41a6031c8222f#256⟩

/-- Two siblings are up for review in the first project, where the one is merged into the other, and
a third one in the second project, whose branch is forwarded to it. -/
def siblings : Scenario where
  world :=
    { World.empty with
      projects := Table.ofList [
        ("p", project [second root "x" x, second root "y" y]),
        ("q", project [second root "z" z])]
      changes := Table.ofList [
        (1, change 1 "p" x), (2, change 2 "p" y), (3, change 3 "q" z)]
      nextId := 4 }
  policy
  change := 2
  actor
  plan := {
    requested := 2
    actor
    batch := ⟨[
      { branch := branch "p", changes := [change 1 "p" x, change 2 "p" y], heads := [1, 2] },
      { branch := branch "q", changes := [change 3 "q" z], heads := [3] }]⟩
    branches := [
      { branch := branch "p"
        strategy := .mergeIfNecessary
        oldTip := some root
        newTip := some mergeId
        changes := [1, 2]
        merges := [mergeId]
        fastForwards := 1
        state := .resolved .merge
        drafts := [merge] },
      { branch := branch "q"
        strategy := .mergeIfNecessary
        oldTip := some root
        newTip := some z
        changes := [3]
        merges := []
        fastForwards := 1
        state := .resolved .fastForward }]
    newCommits := Table.ofList [("p", [merge])] }
  refsQualified := by decide +kernel
  keyed := by decide +kernel
  unsubmitted := by decide +kernel
  acyclic := World.acyclic_of_rank rank (by decide +kernel)
  contentAddressed := World.contentAddressed_of_named named (by decide +kernel)
  planned := by decide +kernel

/-- In the first project a sibling leads to itself and to the first commit only. -/
theorem eq_or_eq_root_of_leads {id other : CommitId} {file : String}
    (hid : siblings.world.commit? "p" id = some (second root file id))
    (hleads : siblings.world.Leads [] "p" id other) : other = id ∨ other = root := by
  have hroot : siblings.world.commit? "p" root = some first := by decide +kernel
  rcases Relation.ReflTransGen.cases_head hleads with rfl | ⟨parent, ⟨c, hc, hparent⟩, hrest⟩
  · exact .inl rfl
  · obtain rfl : c = second root file id := Option.some.inj ((World.known_nil.1 hc).symm.trans hid)
    obtain rfl : parent = root := List.mem_singleton.1 hparent
    exact .inr (World.Leads.eq_of_no_parents hroot rfl hrest)

/-- A commit is up for review in the second project.  In the first project nobody has asked for it,
but a change is built on it. -/
def fork : Scenario where
  world :=
    { World.empty with
      projects := Table.ofList [
        ("p", project [second root "x" x, second x "u" upper]),
        ("q", project [second root "x" x])]
      changes := Table.ofList [(1, change 1 "q" x), (2, change 2 "p" upper)]
      nextId := 3 }
  policy
  change := 2
  actor
  plan := {
    requested := 2
    actor
    batch := ⟨[
      { branch := branch "p", changes := [change 2 "p" upper], heads := [2] },
      { branch := branch "q", changes := [change 1 "q" x], heads := [1] }]⟩
    branches := [
      { branch := branch "p"
        strategy := .mergeIfNecessary
        oldTip := some root
        newTip := some upper
        changes := [2]
        merges := []
        fastForwards := 1
        state := .resolved .fastForward },
      { branch := branch "q"
        strategy := .mergeIfNecessary
        oldTip := some root
        newTip := some x
        changes := [1]
        merges := []
        fastForwards := 1
        state := .resolved .fastForward }]
    newCommits := .empty }
  refsQualified := by decide +kernel
  keyed := by decide +kernel
  unsubmitted := by decide +kernel
  acyclic := World.acyclic_of_rank rank (by decide +kernel)
  contentAddressed := World.contentAddressed_of_named named (by decide +kernel)
  planned := by decide +kernel

end Sample
end Landing
