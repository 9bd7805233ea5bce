import Landing.Proofs.Store.Abreast
import Landing.Proofs.Store.Faults
import Landing.Proofs.Submission.Isolation

/-!
# Commits that are left over

A merge commit that was stored stays stored, whatever becomes of the submission that
stored it.  Nothing depends on whether it is there.

* Planning never asks whether a commit is stored; it asks for commits, and fails with
  the first one that is missing.  So commits left over make no difference to it, unless
  it would fail with a missing commit without them (`World.planned_of_littered`).
* The merge commits of a plan are stored before any branch moves, and all other tips of
  a plan were read while planning.  So every tip that a branch is pointed at is stored,
  with the commits left over and without them (`Plan.Framed.sure_steps`).
-/

namespace Landing

open World Submission

variable {policy : Policy} {budget : Nat} {change : ChangeId} {actor : Account}

/-! ### Planning -/

namespace Service

variable {α : Type} {s s' : Service}

/-- Planning that does not fail with a missing commit does the same with commits left over. -/
theorem Paired.run_withHistory {x : Planning α} (hx : Planning.IsInquiry x)
    (h : Paired World.Littered s s')
    (hmissing : ∀ q id, (s.world.run (withHistory budget x)).1 ≠
      some (.error (.storage (.commitNotFound q id)))) :
    (s'.run (withHistory budget x)).1 = (s.run (withHistory budget x)).1 ∧
      Paired World.Littered (s.run (withHistory budget x)).2 (s'.run (withHistory budget x)).2 := by
  have hinquires := hx.inquires (History.start budget)
  obtain ⟨hresult, hafter⟩ := h.run_of_inquires hinquires fun q id k hk => by
    refine hmissing q id ?_
    rw [World.run_withHistory hx, hk]
    rfl
  -- The history is dropped at the end.
  have hdrop : ∀ s : Service, s.run (withHistory budget x) =
      ((s.run (x (History.start budget))).1.map (·.1), (s.run (x (History.start budget))).2) := by
    intro s
    show Program.run host ((x (History.start budget)).bind fun r => .done r.1) s = _
    rw [Program.run_bind, Service.run]
    obtain ⟨r, t⟩ := Program.run host (x (History.start budget)) s
    cases r with
    | none => rfl
    | some r => rfl
  rw [hdrop, hdrop, hresult]
  exact ⟨rfl, hafter⟩

end Service

namespace World

variable {w w' : World} {p : Plan}

/-- A plan that was made is framed by the world, whatever the records are like. -/
theorem framed_of_planned (hplanned : w.planned policy budget change actor = some (.ok p)) :
    p.Framed w := by
  rw [planned, run_withHistory isInquiry_plan] at hplanned
  obtain ⟨⟨r, h'⟩, hresult, rfl⟩ := Option.map_eq_some_iff.1 hplanned
  have hyields : Study.Yields (w.Shows fun _ => True) (plan policy change actor) (.start budget) p h' :=
    Program.mayCome_of_result (shows_answer fun _ _ => trivial) hresult
  exact (yields_plan hyields).1.toFramed

/-- Planning comes to the same with commits left over, unless it fails with a missing commit without
them. -/
theorem planned_of_littered (h : w.Littered w')
    (hmissing : ∀ q id, w.planned policy budget change actor ≠
      some (.error (.storage (.commitNotFound q id)))) :
    w'.planned policy budget change actor = w.planned policy budget change actor := by
  have hlittered : Service.Paired World.Littered (.start w 0) (.start w' 0) :=
    ⟨h, nofun, rfl, rfl, rfl, rfl, rfl, rfl⟩
  have hsame := (hlittered.run_withHistory isInquiry_plan hmissing).1
  rw [(Service.run_calm (w := w') rfl _).1, (Service.run_calm (w := w) rfl _).1] at hsame
  exact hsame

end World

/-! ### Applying a plan -/

/-- Storing commits is storing the first one and, if this is done, the others. -/
theorem Plan.storeAll_cons (q : ProjectName) (d : Draft) (l : List (ProjectName × Draft)) :
    ∃ next, storeAll ((q, d) :: l) = .call (.insertCommit q d) next ∧
      (∀ id, next (.ok id) = storeAll l) ∧ ∀ e, next (.error e) = .done (.error (.storage e)) :=
  ⟨_, rfl, fun _ => rfl, fun _ => rfl⟩

/-- Once all commits are stored, all of them are there. -/
theorem Service.stored_of_run_storeAll {l : List (ProjectName × Draft)} {s t : Service} {u : Unit}
    (hrun : s.run (Plan.storeAll l) = (some (.ok u), t)) :
    ∀ e ∈ l, (t.world.commit? e.1 e.2.id).isSome := by
  induction l generalizing s with
  | nil => simp
  | cons e l ih =>
    obtain ⟨q, d⟩ := e
    obtain ⟨next, hcons, hok, herror⟩ := Plan.storeAll_cons q d l
    rw [hcons, run_call] at hrun
    rcases s.answer_cases (c := .insertCommit q d) rfl with ⟨_, _, _, hanswer⟩ | ⟨faults, _, hanswer⟩
    · rw [hanswer, herror] at hrun
      cases hrun
    rcases s.world.answer_insertCommit q d with ⟨⟨e, hfail⟩, _⟩ | ⟨hstored, hproject⟩
    · rw [hanswer, hfail, herror] at hrun
      cases hrun
    · rw [hanswer, hstored, hok] at hrun
      refine List.forall_mem_cons.2 ⟨(keeps_of_run hrun).stored.isSome ?_, ih hrun⟩
      show ((s.world.withCommit q d).commit? q d.id).isSome
      rw [commit?_withCommit hproject]
      simp

namespace Plan

variable {w u : World} {p : Plan}

/-- Every tip that a step points a branch at, or points it back at, is stored once the merge commits
are. -/
theorem Framed.sure_steps (hplan : p.Framed w) (hnames : w.NamedIn u)
    (hinserts : ∀ e ∈ p.inserts, (u.commit? e.1 e.2.id).isSome) :
    ∀ s ∈ p.steps, s.call.Sure u ∧ s.backCall.Sure u := by
  intro s hs
  cases s with
  | mark k tip submitter => exact ⟨trivial, trivial⟩
  | swap b old new =>
    obtain ⟨bp, hbp, rfl, rfl, hnew⟩ := swap_mem_steps.1 hs
    constructor
    · rintro t ⟨⟩
      obtain ⟨c, hc⟩ := Option.isSome_iff_exists.1 (hplan.isSome_newTip hbp hnew)
      rcases known_of_commit?_withCommits hplan.hasProject_inserts hc with hold | ⟨d, hd, rfl, _⟩
      · exact hnames _ _ (by rw [hold]; rfl)
      · exact hinserts _ hd
    · intro t hold
      obtain ⟨hbranch, hmoves⟩ := mem_moving.1 hbp
      obtain ⟨tip, htip, hne⟩ := BranchPlan.movesRef_iff.1 hmoves
      have hwhole := hplan.whole_oldTip hbranch (.inl (by rw [htip]; exact hne.symm)) hold
      exact hnames _ _ hwhole.stored

end Plan

namespace Service

variable {s s' : Service} {l : World} {p : Plan}

/-- A plan is applied alike. -/
theorem Paired.runs_apply (h : Paired (World.Abreast l) s s') (hplan : p.Framed s.world) :
    RunsAbreast l s s' p.apply := by
  rw [Plan.apply_eq]
  have hstore : (Plan.storeAll p.inserts).CallsOnly (StoreCall.Sure s.world) fun _ _ => True :=
    (Program.executes_storeAll p.inserts).callsOnly fun _ _ => trivial
  refine (h.runs_of_sure (fun _ _ hid => hid) hstore).bind fun r t t' hrun ht => ?_
  cases r with
  | error f => exact ht.runs_done _
  | ok u =>
    exact ht.runs_of_sure (fun _ _ hid => hid) (Plan.callsOnly_transact
      (hplan.sure_steps (keeps_of_run hrun).stored.namedIn (stored_of_run_storeAll hrun)))

/-- Planning and applying. -/
theorem Paired.runs_planAndApply (h : Paired World.Littered s s')
    (hmissing : ∀ q id, s.world.planned policy budget change actor ≠
      some (.error (.storage (.commitNotFound q id)))) :
    RunsAbreast s'.world s s' (planAndApply policy budget change actor) := by
  have hinquiry : Planning.IsInquiry (plan policy change actor) := isInquiry_plan
  obtain ⟨hresult, hafter⟩ := h.run_withHistory hinquiry hmissing
  obtain ⟨hworld, hend⟩ := s.run_withHistory hinquiry budget
  have hplan : RunsAbreast s'.world s s' (withHistory budget (plan policy change actor)) := by
    refine ⟨hresult, { hafter with world := ?_ }⟩
    have habreast := hafter.world.abreast
    rwa [(s'.run_withHistory hinquiry budget).1] at habreast ⊢
  refine hplan.bind fun r t t' hrun ht => ?_
  cases r with
  | error f => exact ht.runs_done _
  | ok p =>
    rw [hrun] at hworld hend
    have hplanned : s.world.planned policy budget change actor = some (.ok p) := by
      rcases hend with ⟨_, _, hfail⟩ | hplanned
      · cases hfail
      · rw [World.planned, World.run_withHistory isInquiry_plan]
        exact hplanned.symm
    have hframed : p.Framed t.world := by
      rw [show t.world = s.world from hworld]
      exact framed_of_planned hplanned
    refine (ht.runs_apply hframed).bind fun r u u' _ hu => ?_
    cases r with
    | error f => exact hu.runs_done _
    | ok applied => exact hu.runs_done _

/-- A submission that does not fail with a missing commit while planning does the same with commits
left over. -/
theorem Paired.runs_submit (h : Paired World.Littered s s')
    (hmissing : ∀ q id, s.world.planned policy budget change actor ≠
      some (.error (.storage (.commitNotFound q id)))) :
    RunsAbreast s'.world s s' (submit policy budget change actor) := by
  have hstarted : RunsAbreast s'.world (s.note (.started change actor.id false))
      (s'.note (.started change actor.id false)) (planAndApply policy budget change actor) := by
    rw [← world_note s' (.started change actor.id false)]
    refine (h.note _).runs_planAndApply ?_
    rw [world_note]
    exact hmissing
  refine (hstarted.bind fun r t t' _ ht => ?_).signal
  cases r with
  | error f => exact ((ht.note (.rejected f)).runs_done _).signal
  | ok p =>
    -- Only signals are left.
    have hsignals : Program.CallsOnly (StoreCall.Sure t.world) (fun _ _ => True)
        ((publish p.events).bind fun _ =>
          .done (.ok ⟨p.tips, p.batch.changes.map (·.id)⟩ : Except Failure Outcome)) :=
      (silent_publish p.events _).callsOnly
    refine ((ht.note _).runs_of_sure (fun q id hid => ?_) hsignals).signal
    rw [world_note]
    exact hid

end Service

/-! ### The commits of another world -/

namespace World

variable {w v : World}

/-- The commits of a project; none if there is no such project. -/
def commitsOf (v : World) (q : ProjectName) : Table CommitId Commit :=
  ((v.projects.get? q).map (·.commits)).getD .empty

/-- The world with the commits of another one. -/
def withCommitsOf (w v : World) : World :=
  { w with projects := Table.ofList (w.projects.entries.map fun e =>
      (e.1, ⟨v.commitsOf e.1, e.2.refs⟩)) }

theorem get?_withCommitsOf (w v : World) (q : ProjectName) :
    (w.withCommitsOf v).projects.get? q =
      (w.projects.get? q).map fun p => ⟨v.commitsOf q, p.refs⟩ := by
  have hnodup : ((w.projects.entries.map fun e =>
      (e.1, (⟨v.commitsOf e.1, e.2.refs⟩ : Project))).map (·.1)).Nodup := by
    rw [List.map_map]
    exact w.projects.nodup_keys
  refine Option.ext fun p => ?_
  rw [withCommitsOf, Table.get?_ofList hnodup, List.mem_map, Option.map_eq_some_iff]
  constructor
  · rintro ⟨e, he, heq⟩
    cases heq
    exact ⟨e.2, (Table.get?_eq_some_iff ..).2 he, rfl⟩
  · rintro ⟨p₀, hp₀, rfl⟩
    exact ⟨(q, p₀), (Table.get?_eq_some_iff ..).1 hp₀, rfl⟩

theorem alike_withCommitsOf (w v : World) : (w.withCommitsOf v).Alike w where
  refs q := by
    rw [get?_withCommitsOf, Option.map_map]
    rfl
  changes := rfl
  nextId := rfl
  hidden := rfl
  accounts := rfl

/-- In the projects that are there, the commits are those of the other world. -/
theorem commit?_withCommitsOf (w v : World) (q : ProjectName) (id : CommitId) :
    (w.withCommitsOf v).commit? q id = (w.projects.get? q).bind fun _ => v.commit? q id := by
  have hcommits : (v.commitsOf q).get? id = v.commit? q id := by
    unfold commitsOf commit?
    cases v.projects.get? q with
    | none => rfl
    | some p => rfl
  rw [commit?, get?_withCommitsOf]
  cases w.projects.get? q with
  | none => rfl
  | some p => exact hcommits

theorem storedIn_withCommitsOf (h : v.StoredIn w) :
    v.StoredIn (w.withCommitsOf v) ∧ (w.withCommitsOf v).StoredIn w := by
  constructor
  · intro q id c hc
    obtain ⟨p, hp, _⟩ := exists_project_of_commit?.1 (h q id c hc)
    rw [commit?_withCommitsOf, (Table.get?_eq_some_iff ..).2 hp]
    exact hc
  · intro q id c hc
    rw [commit?_withCommitsOf] at hc
    obtain ⟨_, _, hc⟩ := Option.bind_eq_some_iff.1 hc
    exact h q id c hc

end World

namespace Service

/-- The service as it would be if no commits had been stored since `before`. -/
def withoutCommitsSince (after before : Service) : Service :=
  after.withWorld (after.world.withCommitsOf before.world)

/-- What a service has come to has the commits left over that were stored on the way. -/
theorem Keeps.littered {s after : Service} (h : s.Keeps after) (harmed : s.Armed) :
    Paired World.Littered (after.withoutCommitsSince s) after where
  world :=
    { toAlike := alike_withCommitsOf after.world s.world
      stored := (storedIn_withCommitsOf h.stored).2 }
  armed i hi := (storedIn_withCommitsOf h.stored).1.isSome (harmed i (h.interference i hi))
  interference := rfl
  faults := rfl
  recorded := rfl
  bus := rfl
  log := rfl
  metrics := rfl

end Service

/-! ### Submissions -/

namespace Submission

/-- A request comes to the same on both services: planning comes to the same batch, branch plans and
merge commits or to the same failure, and submitting ends with the same result and leaves the same
branches, records, events and logs.  The commits that are left over are all that the second service has
more in the end.  Its budget may be any larger one. -/
structure SubmitsAlike (policy : Policy) (budget : Nat) (change : ChangeId) (actor : Account)
    (s s' : Service) : Prop where
  planned : s'.world.planned policy budget change actor = s.world.planned policy budget change actor
  ended : (s'.run (submit policy budget change actor)).1 =
    (s.run (submit policy budget change actor)).1
  after : Service.Paired (World.Abreast s'.world) (s.run (submit policy budget change actor)).2
    (s'.run (submit policy budget change actor)).2
  planned_of_le : ∀ budget' r, budget ≤ budget' →
    s.world.planned policy budget change actor = some r →
    s'.world.planned policy budget' change actor = some r
  run_of_le : ∀ budget' r t, budget ≤ budget' →
    s.run (submit policy budget change actor) = (some r, t) →
    ∃ t', s'.run (submit policy budget' change actor) = (some r, t') ∧
      Service.Paired (World.Abreast s'.world) t t'

theorem submitsAlike_of_littered {s s' : Service} (h : Service.Paired World.Littered s s')
    (hmissing : ∀ q id, s.world.planned policy budget change actor ≠
      some (.error (.storage (.commitNotFound q id)))) :
    SubmitsAlike policy budget change actor s s' := by
  have hplanned : s'.world.planned policy budget change actor =
      s.world.planned policy budget change actor := planned_of_littered h.world hmissing
  obtain ⟨hended, hafter⟩ := h.runs_submit hmissing
  refine ⟨hplanned, hended, hafter, fun budget' r hle hr => ?_, fun budget' r t hle hrun => ?_⟩
  · have hrun : s'.world.run (withHistory budget (plan policy change actor)) = (some r, s'.world) := by
      rw [World.run_planning, hplanned, hr]
    exact congrArg Prod.fst ((outlasted_withHistory (elastic_plan policy change actor) hle).run hrun)
  · rw [hrun] at hended hafter
    have hrun' : s'.run (submit policy budget change actor) =
        (some r, (s'.run (submit policy budget change actor)).2) := Prod.ext hended rfl
    exact ⟨_, run_submit_of_le hle hrun', hafter⟩

/-- Commits that are left over do no harm.  When a service has all that another one has and further
commits besides, every request whose planning without them does not fail with a missing commit comes
to the same on both.

So it does when a request is made after another submission, whatever this has come to; in particular
when it is made again after a failure that can be retried.  The service as it is then and the one where
the submission has stored no merge commits do the same. -/
theorem leftovers_harmless :
    (∀ {s s' : Service} {policy : Policy} {budget : Nat} {change : ChangeId} {actor : Account},
      Service.Paired World.Littered s s' →
      (∀ q id, s.world.planned policy budget change actor ≠
        some (.error (.storage (.commitNotFound q id)))) →
      SubmitsAlike policy budget change actor s s') ∧
    ∀ {s after : Service} {policy₀ policy : Policy} {budget₀ budget : Nat}
      {change₀ change : ChangeId} {actor₀ actor : Account} {ended : Option (Except Failure Outcome)},
      s.Armed → s.run (submit policy₀ budget₀ change₀ actor₀) = (ended, after) →
      (∀ q id, (after.withoutCommitsSince s).world.planned policy budget change actor ≠
        some (.error (.storage (.commitNotFound q id)))) →
      SubmitsAlike policy budget change actor (after.withoutCommitsSince s) after := by
  refine ⟨submitsAlike_of_littered, ?_⟩
  intro s after policy₀ policy budget₀ budget change₀ change actor₀ actor ended harmed hrun hmissing
  exact submitsAlike_of_littered ((Service.keeps_of_run hrun).littered harmed) hmissing

/-- The merge commit of the siblings is there already, to begin with.  And the branch of the second
project is moved behind the back of a first submission, which fails and leaves the merge commit in the
first project.  When the request is made again, it succeeds, and it would do the same without this
commit. -/
theorem sample_leftovers_harmless :
    let w := Sample.siblings.world
    let s := Service.start w 8
    let littered := s.withWorld (w.withCommit "p" Sample.merge)
    let disturbed : Service :=
      { s with backend := { s.backend with interference := some ⟨Sample.branch "q", Sample.z⟩ } }
    let first := disturbed.run (submit Sample.policy w.reach 2 Sample.actor)
    let bare := first.2.withoutCommitsSince disturbed
    Service.Paired World.Littered s littered ∧
      (∀ q id, s.world.planned Sample.policy w.reach 2 Sample.actor ≠
        some (.error (.storage (.commitNotFound q id)))) ∧
      SubmitsAlike Sample.policy w.reach 2 Sample.actor s littered ∧
      disturbed.Armed ∧
      first.1 = some (.error
        (.concurrentModification (Sample.branch "q") (some Sample.root) (some Sample.z))) ∧
      (first.2.world.commit? "p" Sample.mergeId).isSome ∧
      bare.world.commit? "p" Sample.mergeId = none ∧
      (∀ q id, bare.world.planned Sample.policy w.reach 2 Sample.actor ≠
        some (.error (.storage (.commitNotFound q id)))) ∧
      SubmitsAlike Sample.policy w.reach 2 Sample.actor bare first.2 ∧
      (first.2.run (submit Sample.policy w.reach 2 Sample.actor)).1 =
        some (.ok ⟨Table.empty.insert (Sample.branch "p") Sample.mergeId, [1, 2, 3]⟩) := by
  intro w s littered disturbed first bare
  have hproject : w.HasProject "p" := by
    unfold World.HasProject
    decide +kernel
  have hlittered : Service.Paired World.Littered s littered :=
    Service.paired_withWorld (fun _ hi => by cases hi) (littered_withCommit hproject Sample.merge)
  have hmissing : ∀ q id, s.world.planned Sample.policy w.reach 2 Sample.actor ≠
      some (.error (.storage (.commitNotFound q id))) := by
    intro q id hlost
    have hplanned : s.world.planned Sample.policy w.reach 2 Sample.actor =
        some (.ok Sample.siblings.plan) := Sample.siblings.planned
    rw [hlost] at hplanned
    cases hplanned
  have harmed : disturbed.Armed := by
    intro i hi
    cases hi
    decide +kernel
  have hrun : first = (first.1, first.2) :=
    Prod.mk.eta.symm
  -- What the first submission comes to is evaluated once.
  have hruns : first.1 = some (.error
        (.concurrentModification (Sample.branch "q") (some Sample.root) (some Sample.z))) ∧
      (first.2.world.commit? "p" Sample.mergeId).isSome ∧
      bare.world.commit? "p" Sample.mergeId = none ∧
      (bare.world.planned Sample.policy w.reach 2 Sample.actor).map Except.isOk = some true ∧
      (first.2.run (submit Sample.policy w.reach 2 Sample.actor)).1 =
        some (.ok ⟨Table.empty.insert (Sample.branch "p") Sample.mergeId, [1, 2, 3]⟩) := by
    decide +kernel
  obtain ⟨hfirst, hleft, hbare, hagain, hsecond⟩ := hruns
  have hmissing' : ∀ q id, bare.world.planned Sample.policy w.reach 2 Sample.actor ≠
      some (.error (.storage (.commitNotFound q id))) := by
    intro q id hlost
    rw [hlost] at hagain
    cases hagain
  exact ⟨hlittered, hmissing, leftovers_harmless.1 hlittered hmissing, harmed, hfirst, hleft, hbare,
    hmissing', leftovers_harmless.2 harmed hrun hmissing', hsecond⟩

end Submission
end Landing
