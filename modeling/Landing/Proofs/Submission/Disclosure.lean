import Landing.Proofs.Store.Faults
import Landing.Proofs.Submission.Bundles
import Landing.Proofs.Submission.LeastClosure
import Landing.Proofs.Submission.Mention
import Landing.Proofs.Submission.Report

/-!
# No answer names a hidden change

What planning comes to names only changes that the account sees, apart from the
requested one (`World.namesOnly_of_plan`, `World.sees_of_plan`).  It remains to follow
the names to the end of a request.  Applying a plan marks the changes of its batch, and
a failure on the way names one of these (`Plan.namesOnly_of_apply`).  The commits of an
archive are stored already or drafted by the plan (`World.known_of_packing`).  So
`Submission.answers_name_seen` holds of every service, whatever faults and interferences
were arranged.

Where something that joins the requested change is hidden, planning ends before there is
a batch (`World.ends_plan_of_hidden`).
-/

namespace Landing

open World Study Submission

/-! ### What the stores name -/

/-- An interference that fails names no change. -/
theorem Backend.named?_of_interfere {w : World} {i : Interference} {e : StoreError}
    (he : interfere w i = .error e) : e.named? = none := by
  unfold interfere at he
  cases hproject : w.project? i.branch.project with
  | error e' =>
    have htip : w.branchTip i.branch = .error e' := by
      rw [branchTip, hproject]
      rfl
    rw [htip] at he
    cases he
    exact named?_of_project? hproject
  | ok p =>
    have htip : w.branchTip i.branch = .ok (p.refs.get? i.branch.name) := by
      rw [branchTip, hproject]
      rfl
    have hswap : w.compareAndSwap i.branch (p.refs.get? i.branch.name) (some i.tip) =
        .error e := by
      rw [htip] at he
      exact he
    exact named?_of_compareAndSwap hswap

/-- An error of a service names no change but the one whose record was to be written. -/
theorem Service.namesOwn_answer (s : Service) (c : StoreCall) : c.NamesOwn (s.answer c).1 := by
  have hdisturbed : ∀ b : Backend, c.NamesOwn (b.answerDisturbed c).1 := by
    intro b
    unfold Backend.answerDisturbed
    split
    · exact b.world.namesOwn_answer c
    · dsimp only
      split
      · next e hfailed =>
        intro e' he' id hid
        cases he'
        rw [Backend.named?_of_interfere hfailed] at hid
        cases hid
      · next w _ => exact w.namesOwn_answer c
  show c.NamesOwn (s.backend.answer c).1
  unfold Backend.answer
  split
  · intro e he id hid
    cases he
    cases hid
  · exact hdisturbed _

/-- A failed call is passed on. -/
theorem StoreCall.NamesOwn.namesOnly {P : ChangeId → Prop} {c : StoreCall} {e : StoreError}
    (he : c.NamesOwn (.error e)) (hP : ∀ id ∈ c.marked?, P id) : (Failure.storage e).NamesOnly P :=
  fun id hid => hP id (he e rfl id hid)

/-! ### Applying a plan -/

/-- A step that was taken names the change that it has marked, and a step that fails names no other
change than the one that it was to mark. -/
theorem Step.named_of_take {P : ChangeId → Prop} {s : Step} {r : Except Failure TakenStep}
    (hs : ∀ id tip submitter, s = .mark id tip submitter → P id)
    (htakes : s.take.MayCome StoreCall.NamesOwn r) :
    (∀ taken, r = .ok taken → ∀ id ∈ taken.named?, P id) ∧
      ∀ f, r = .error f → f.NamesOnly P := by
  cases s with
  | swap branch old new =>
    obtain ⟨answer, hanswer, hend⟩ := htakes
    cases answer with
    | ok _ =>
      cases hend
      refine ⟨fun taken htaken id hid => ?_, fun f hf => by cases hf⟩
      cases htaken
      cases hid
    | error e =>
      cases hend
      refine ⟨fun taken htaken => (by cases htaken), fun f hf => ?_⟩
      cases hf
      have hstorage : (Failure.storage e).NamesOnly P :=
        hanswer.namesOnly fun id hid => by cases hid
      cases e with
      | refConflict => trivial
      | _ => exact hstorage
  | mark change tip submitter =>
    obtain ⟨answer, hanswer, hend⟩ := htakes
    cases answer with
    | ok _ =>
      cases hend
      refine ⟨fun taken htaken id hid => ?_, fun f hf => by cases hf⟩
      cases htaken
      cases hid
      exact hs change tip submitter rfl
    | error e =>
      cases hend
      refine ⟨fun taken htaken => (by cases htaken), fun f hf => ?_⟩
      cases hf
      refine hanswer.namesOnly fun id hid => ?_
      cases hid
      exact hs change tip submitter rfl

namespace Transaction

variable {P : ChangeId → Prop}

/-- The steps that were taken name changes that were to be marked, and so does the failure of a
step. -/
theorem named_of_perform {steps : List Step} {log log' : List TakenStep} {failure? : Option Failure}
    (hsteps : ∀ id tip submitter, .mark id tip submitter ∈ steps → P id)
    (hlog : ∀ taken ∈ log, ∀ id ∈ taken.named?, P id)
    (hperforms : (perform steps log).MayCome StoreCall.NamesOwn (log', failure?)) :
    (∀ taken ∈ log', ∀ id ∈ taken.named?, P id) ∧ ∀ f ∈ failure?, f.NamesOnly P := by
  induction steps generalizing log with
  | nil =>
    cases hperforms
    exact ⟨hlog, fun f hf => by cases hf⟩
  | cons step steps ih =>
    have hstep : ∀ id tip submitter, step = .mark id tip submitter → P id := by
      rintro id tip submitter rfl
      exact hsteps id tip submitter List.mem_cons_self
    obtain ⟨r, htake, hrest⟩ := Program.mayCome_bind.1 hperforms
    cases r with
    | error f =>
      cases hrest
      refine ⟨hlog, fun f' hf' => ?_⟩
      cases hf'
      exact (Step.named_of_take hstep htake).2 f rfl
    | ok taken =>
      refine ih (fun id tip submitter hmem =>
        hsteps id tip submitter (List.mem_cons_of_mem _ hmem)) (fun t ht => ?_) hrest
      rcases List.mem_append.1 ht with hold | hnew
      · exact hlog t hold
      · rw [List.mem_singleton.1 hnew]
        exact (Step.named_of_take hstep htake).1 taken rfl

/-- Where undoing stops, the step that could not be undone is named. -/
theorem namesOnly_of_unwind {log : List TakenStep} {f : Failure}
    (hlog : ∀ taken ∈ log, ∀ id ∈ taken.named?, P id)
    (hfails : (unwind log).MayCome StoreCall.NamesOwn (.error f)) : f.NamesOnly P := by
  induction log with
  | nil => cases hfails
  | cons taken log ih =>
    obtain ⟨r, hundo, hrest⟩ := Program.mayCome_bind.1 hfails
    cases r with
    | ok _ => exact ih (fun t ht => hlog t (List.mem_cons_of_mem _ ht)) hrest
    | error e =>
      cases hrest
      have htaken := hlog taken List.mem_cons_self
      refine ⟨⟨taken, rfl, htaken⟩, fun id hid => ?_⟩
      cases taken with
      | refSwap branch old new =>
        obtain ⟨_, hanswer, rfl⟩ := hundo
        cases hanswer e rfl id hid
      | markMerged change =>
        obtain ⟨_, hanswer, rfl⟩ := hundo
        exact htaken id (hanswer e rfl id hid)

end Transaction

namespace Plan

/-- Storing merge commits names no change. -/
theorem namesOnly_of_storeAll {P : ChangeId → Prop} {l : List (ProjectName × Draft)} {f : Failure}
    (hfails : (storeAll l).MayCome StoreCall.NamesOwn (.error f)) : f.NamesOnly P := by
  induction l with
  | nil => cases hfails
  | cons e l ih =>
    obtain ⟨r, hr, hrest⟩ := hfails
    cases r with
    | ok _ => exact ih hrest
    | error e =>
      cases hrest
      exact hr.namesOnly fun id hid => by cases hid

/-- Applying a plan names changes that the plan marks. -/
theorem namesOnly_of_apply {p : Plan} {f : Failure}
    (hfails : p.apply.MayCome StoreCall.NamesOwn (.error f)) :
    f.NamesOnly fun id => ∃ bp ∈ p.branches, id ∈ bp.changes := by
  obtain ⟨r, hstore, hrest⟩ := Program.mayCome_bind.1 hfails
  cases r with
  | error f' =>
    cases hrest
    exact namesOnly_of_storeAll hstore
  | ok _ =>
    obtain ⟨⟨log, failure?⟩, hperform, hrest⟩ := Program.mayCome_bind.1 hrest
    obtain ⟨hlog, hcause⟩ := Transaction.named_of_perform
      (P := fun id => ∃ bp ∈ p.branches, id ∈ bp.changes)
      (fun id tip submitter hmark => by
        obtain ⟨⟨bp, hbp, _, hid⟩, _⟩ := mark_mem_steps.1 hmark
        exact ⟨bp, hbp, hid⟩) (fun taken htaken => by cases htaken) hperform
    cases failure? with
    | none => cases hrest
    | some cause =>
      obtain ⟨_, _, hrest⟩ := Program.mayCome_bind.1 hrest
      obtain ⟨r, hrollback, hend⟩ := Program.mayCome_bind.1 hrest
      cases r with
      | ok _ =>
        cases hend
        exact hcause f rfl
      | error f' =>
        cases hend
        obtain ⟨r, hunwind, hend⟩ := Program.mayCome_bind.1 hrollback
        cases r with
        | ok _ => cases hend
        | error f'' =>
          cases hend
          exact Transaction.namesOnly_of_unwind
            (fun taken htaken => hlog taken (List.mem_reverse.1 htaken)) hunwind

/-- What is applied is the plan. -/
theorem eq_markApplied_of_apply {A : (c : StoreCall) → Except StoreError c.Reply → Prop} {p : Plan}
    {applied : List TakenStep × Plan} (hcomes : p.apply.MayCome A (.ok applied)) :
    applied.2 = p.markApplied := by
  obtain ⟨r, _, hrest⟩ := Program.mayCome_bind.1 hcomes
  cases r with
  | error f => cases hrest
  | ok _ =>
    obtain ⟨⟨log, failure?⟩, _, hrest⟩ := Program.mayCome_bind.1 hrest
    cases failure? with
    | none =>
      cases hrest
      rfl
    | some cause =>
      obtain ⟨_, _, hrest⟩ := Program.mayCome_bind.1 hrest
      obtain ⟨r, _, hend⟩ := Program.mayCome_bind.1 hrest
      cases r <;> cases hend

end Plan

/-! ### Archives -/

/-- An archive that cannot be built names no change. -/
theorem Archive.namesOnly_of_build {P : ChangeId → Prop} {format : ArchiveFormat}
    {packed : List Bundle} {f : Failure} (hfails : build format packed = .error f) :
    f.NamesOnly P := by
  have hentries : ∀ packed : List Bundle, entriesOf packed = .error f → f.NamesOnly P := by
    intro packed
    induction packed with
    | nil => exact fun hentries => by cases hentries
    | cons b rest ih =>
      intro hentries
      rw [entriesOf] at hentries
      split at hentries
      · cases hentries
        trivial
      · cases hrest : entriesOf rest with
        | error f' =>
          rw [hrest] at hentries
          cases hentries
          exact ih hrest
        | ok entries =>
          rw [hrest] at hentries
          cases hentries
  unfold build at hfails
  cases hpacked : entriesOf packed with
  | error f' =>
    rw [hpacked] at hfails
    cases hfails
    exact hentries packed hpacked
  | ok entries =>
    rw [hpacked] at hfails
    cases hfails

namespace World

variable {w : World} {ds : ProjectName → List Draft} {h h' : History} {p : Plan}
variable {policy : Policy} {actor : Account} {change : ChangeId}

/-- What a bundle holds is stored or drafted. -/
theorem known_of_bundle (hf : h.Faithful w ds) {project : ProjectName} {b : Bundle}
    (hy : w.Yields (bundle p project) h b h') :
    h'.Faithful w ds ∧ b.project = project ∧
      ∀ c ∈ b.commits, ∃ id, w.Known (ds project) project id c := by
  simp only [bundle, yields_bind, yields_read, yields_pure] at hy
  obtain ⟨reachable, h₁, hreachable, ids, h₂, hids, commits, h₃, hcommits, rfl, rfl⟩ := hy
  have hf₂ := faithful_of_parentsFirst (faithful_of_unacceptedAncestry hf hreachable) hids
  obtain ⟨hf₃, hknown⟩ := yields_mapM (I := fun h => h.Faithful w ds)
    (R := fun id c => w.Known (ds project) project id c)
    (fun id _ h c h' hI hc => yields_commit hI (yields_read.1 hc)) hf₂ hcommits
  refine ⟨hf₃, rfl, fun c hc => ?_⟩
  obtain ⟨id, _, hid⟩ := exists_left_of_forall₂ hknown hc
  exact ⟨id, hid⟩

/-- The bundles of a plan hold what is stored or drafted by the plan. -/
theorem known_of_packing (hf : h.Faithful w p.draftsFor) {packed : List Bundle}
    (hy : w.Yields (p.affectedProjects.mapM (bundle p)) h packed h') :
    ∀ b ∈ packed, ∀ c ∈ b.commits, ∃ id, w.Known (p.draftsFor b.project) b.project id c := by
  obtain ⟨_, hall⟩ := yields_mapM (I := fun h => h.Faithful w p.draftsFor)
    (R := fun project (b : Bundle) => b.project = project ∧
      ∀ c ∈ b.commits, ∃ id, w.Known (p.draftsFor project) project id c)
    (fun project _ h b h' hI hb => known_of_bundle hI hb) hf hy
  intro b hb
  obtain ⟨project, _, rfl, hknown⟩ := exists_left_of_forall₂ hall hb
  exact hknown

/-! ### Hidden members -/

/-- The failure names the requested change as not visible, or a call has failed. -/
def Refuses (w : World) (change : ChangeId) (f : Failure) : Prop :=
  f = .notVisible change ∨ f.PassedOn w.Answers

/-- An open change that is requested is found, unless it is hidden. -/
theorem ends_requestedChange {requested : Change} (hget : w.changes.get? change = some requested)
    (hplain : requested.isOpen = true ∨ w.isVisible actor.id requested = false) :
    w.Ends (requestedChange change actor) h
      (fun a h' => a = requested ∧ h' = h ∧ requested.isOpen = true) (w.Refuses change) := by
  have hfound : w.Ends (Planning.ask (.get change)) h
      (fun o h' => o = some requested ∧ h' = h) (w.Refuses change) := by
    refine ends_planning_ask (c := .get change) (fun o ho => ?_) fun e he => ?_
    · exact ⟨(Except.ok.inj ho).symm.trans hget, rfl⟩
    · cases he
  have hasked : w.Ends (Planning.ask (.isVisible actor.id requested)) h
      (fun seen h' => w.isVisible actor.id requested = seen ∧ h' = h) (w.Refuses change) := by
    refine ends_planning_ask (c := .isVisible actor.id requested) (fun seen hseen => ?_)
      fun e he => ?_
    · exact ⟨Except.ok.inj hseen, rfl⟩
    · cases he
  refine hfound.bind fun o h₁ ho => ?_
  obtain ⟨rfl, rfl⟩ := ho
  refine hasked.bind fun seen h₂ hseen => ?_
  obtain ⟨hseen, rfl⟩ := hseen
  split
  · next htrue =>
    have hopen : requested.isOpen = true :=
      hplain.resolve_right fun hfalse => by simp [hfalse, htrue] at hseen
    rw [if_pos hopen]
    exact ends_pure ⟨rfl, rfl, hopen⟩
  · exact ends_throw (.inl rfl)

/-- Where something that joins the requested change is hidden, planning comes to an end without a
plan: it names the requested change, or a call has failed. -/
theorem ends_plan_of_hidden (hkeyed : w.Keyed) {requested c : Change} {budget : Nat}
    (hget : w.changes.get? change = some requested)
    (hplain : requested.isOpen = true ∨ w.isVisible actor.id requested = false)
    (hjoins : w.Joins policy.wholeTopic requested c) (hhidden : w.isVisible actor.id c = false)
    (hbudget : w.reach ≤ budget) :
    w.Ends (plan policy change actor) (.start budget) (fun _ _ => False) (w.Refuses change) := by
  have hid := hkeyed change requested hget
  refine (ends_requestedChange hget hplain).bind fun a h ha => ?_
  obtain ⟨rfl, rfl, hopen⟩ := ha
  have hrecord : w.OpenRecord a := ⟨hid ▸ hget, hopen⟩
  obtain ⟨r, h₁, hresult, hleast⟩ := Closure.ends_compute hkeyed hrecord policy.wholeTopic
    actor.id (History.faithful_start w budget) hbudget
  cases r with
  | ok members =>
    -- Everything that joins would be visible.
    cases hleast with
    | listed _ _ hvisible =>
      have hseen := hvisible c hjoins
      rw [hhidden] at hseen
      cases hseen
  | error f =>
    refine Ends.bind (m := fun _ _ => False) ⟨.error f, h₁, hresult, ?_⟩ fun _ _ hfalse =>
      hfalse.elim
    have hfails : FailsWith w.Answers (Closure.compute policy.wholeTopic actor.id a)
        (.start budget) f := ⟨h₁, Program.mayCome_of_result (fun _ => rfl) hresult⟩
    rw [← hid]
    exact (Closure.isInquiry_compute (E := (· = .notVisible a.id)) rfl).of_failsWith hfails

end World

/-! ### Planning in a service -/

namespace Service

variable {α : Type} {s : Service} {x : Planning α} {budget : Nat} {f : Failure}

/-- The failure passes the error of a store call on: one with which the world answers a question, or
one that an arranged fault gives. -/
def CallFailed (s : Service) (f : Failure) : Prop :=
  f.PassedOn s.world.Answers ∨ ∃ fault ∈ s.backend.faults, f = .storage (.backend fault.detail)

theorem CallFailed.namesOnly {P : ChangeId → Prop} (hf : s.CallFailed f) : f.NamesOnly P := by
  rcases hf with hpassed | ⟨fault, _, rfl⟩
  · exact hpassed.namesOnly
  · intro id hid
    cases hid

/-- A planning that succeeds does so in the world. -/
theorem result_of_run (hx : Planning.IsInquiry x) {a : α}
    (hrun : (s.run (withHistory budget x)).1 = some (.ok a)) :
    ∃ h, Program.result s.world (x (.start budget)) = some (.ok a, h) := by
  rcases (s.run_withHistory hx budget).2 with ⟨fault, _, hstruck⟩ | hresult
  · rw [hstruck] at hrun
    cases hrun
  · rw [hresult] at hrun
    obtain ⟨⟨r, h⟩, hworld, rfl⟩ := Option.map_eq_some_iff.1 hrun
    exact ⟨h, hworld⟩

/-- A planning that fails does so in the world, or because of a fault. -/
theorem failsWith_of_run (hx : Planning.IsInquiry x)
    (hrun : (s.run (withHistory budget x)).1 = some (.error f)) :
    s.CallFailed f ∨ FailsWith s.world.Answers x (.start budget) f := by
  rcases (s.run_withHistory hx budget).2 with ⟨fault, hfault, hstruck⟩ | hresult
  · rw [hstruck] at hrun
    cases hrun
    exact .inl (.inr ⟨fault, hfault, rfl⟩)
  · rw [hresult] at hrun
    obtain ⟨⟨r, h⟩, hworld, rfl⟩ := Option.map_eq_some_iff.1 hrun
    exact .inr ⟨h, Program.mayCome_of_result (fun _ => rfl) hworld⟩

/-- A planning that cannot succeed in the world ends with a failure as there, or because of a
fault. -/
theorem exists_failure_of_ends (hx : Planning.IsInquiry x) {bad : Failure → Prop}
    (hends : s.world.Ends x (.start budget) (fun _ _ => False) bad) :
    ∃ f, (s.run (withHistory budget x)).1 = some (.error f) ∧ (bad f ∨ s.CallFailed f) := by
  obtain ⟨r, h, hworld, hr⟩ := hends
  rcases (s.run_withHistory hx budget).2 with ⟨fault, hfault, hstruck⟩ | hresult
  · exact ⟨_, hstruck, .inr (.inr ⟨fault, hfault, rfl⟩)⟩
  · rw [hworld] at hresult
    cases r with
    | ok a => exact hr.elim
    | error f => exact ⟨f, hresult, .inl hr⟩

/-- What a program comes to depends on the backend alone. -/
theorem run_congr {s t : Service} (hsame : s.backend = t.backend) (p : Program α) :
    (s.run p).1 = (t.run p).1 := by
  induction p generalizing s t with
  | done a => rfl
  | exhausted => rfl
  | signal g next ih =>
    refine ih (s := s.note g) (t := t.note g) ?_
    rw [backend_note, backend_note, hsame]
  | call c next ih =>
    have hanswer : (s.answer c).1 = (t.answer c).1 := by
      show (s.backend.answer c).1 = (t.backend.answer c).1
      rw [hsame]
    have hbackend : (s.answer c).2.backend = (t.answer c).2.backend := by
      show (s.backend.answer c).2 = (t.backend.answer c).2
      rw [hsame]
    show ((s.answer c).2.run (next (s.answer c).1)).1 = ((t.answer c).2.run (next (t.answer c).1)).1
    rw [hanswer]
    exact ih _ hbackend

/-- A signal beforehand makes no difference to what a program comes to. -/
theorem run_tell_map {β : Type} (s : Service) (g : Signal) (p : Program α) (f : α → β) :
    (s.run (Program.tell g >>= fun _ => p >>= fun a => pure (f a))).1 = (s.run p).1.map f := by
  rw [run_tell_bind, run_bind, ← run_congr (backend_note s g) p]
  cases (s.note g).run p with
  | mk r s' => cases r <;> rfl

end Service

/-! ### Requests -/

namespace Submission

variable {s : Service} {policy : Policy} {budget : Nat} {change : ChangeId} {actor : Account}

/-- Without a plan a submission fails as planning does. -/
theorem run_submit_of_failure {f : Failure}
    (hplanned : (s.run (withHistory budget (plan policy change actor))).1 = some (.error f)) :
    (s.run (submit policy budget change actor)).1 = some (.error f) := by
  rw [← Service.run_congr (Service.backend_note s (.started change actor.id false))] at hplanned
  rw [submit, Service.run_tell_bind, Service.run_bind, planAndApply, Service.run_bind]
  cases hrun : (s.note (.started change actor.id false)).run
      (withHistory budget (plan policy change actor)) with
  | mk r s₁ =>
    rw [hrun] at hplanned
    cases hplanned
    rfl

/-- A submission ends as planning does, or it has a plan: then it fails as applying the plan may, or
it gives the tips and the changes of the plan. -/
theorem cases_of_run_submit {r : Except Failure Outcome}
    (hrun : (s.run (submit policy budget change actor)).1 = some r) :
    (∃ f, (s.run (withHistory budget (plan policy change actor))).1 = some (.error f) ∧
      r = .error f) ∨
    ∃ p, (s.run (withHistory budget (plan policy change actor))).1 = some (.ok p) ∧
      ((∃ f, r = .error f ∧ p.apply.MayCome StoreCall.NamesOwn (.error f)) ∨
        r = .ok ⟨p.tips, p.batch.changes.map (·.id)⟩) := by
  rw [← Service.run_congr (Service.backend_note s (.started change actor.id false))]
  rw [submit, Service.run_tell_bind, planAndApply, bind_assoc, Service.run_bind] at hrun
  cases hplanned : (s.note (.started change actor.id false)).run
      (withHistory budget (plan policy change actor)) with
  | mk planned s₁ =>
    rw [hplanned] at hrun
    cases planned with
    | none => cases hrun
    | some planned =>
      cases planned with
      | error f =>
        cases hrun
        exact .inl ⟨f, rfl, rfl⟩
      | ok p =>
        refine .inr ⟨p, rfl, ?_⟩
        -- What follows the planning is a program that the service answers.
        have hrest := Program.mayCome_of_run Service.namesOwn_answer hrun
        obtain ⟨applied, happlied, hend⟩ := Program.mayCome_bind.1 hrest
        obtain ⟨r', happly, hmade⟩ := Program.mayCome_bind.1 happlied
        cases r' with
        | error f =>
          cases hmade
          cases hend
          exact .inl ⟨f, rfl, happly⟩
        | ok log =>
          cases hmade
          obtain ⟨_, _, hend⟩ := Program.mayCome_bind.1 hend
          obtain ⟨_, _, hend⟩ := Program.mayCome_bind.1 hend
          cases hend
          rw [Plan.eq_markApplied_of_apply happly, Plan.tips_markApplied]
          exact .inr rfl

end Submission

/-! ### Whom answers name -/

namespace Submission

variable {s : Service} {policy : Policy} {budget : Nat} {change : ChangeId} {actor : Account}

/-- The answer comes from a plan made in the world, as `made` says, and the plan speaks of changes that
the account sees.  Or it is a failure, and apart from the requested change it names only such
changes. -/
def Modest {α : Type} (w : World) (policy : Policy) (budget : Nat) (change : ChangeId) (actor : Account)
    (made : Plan → α → Prop) : Except Failure α → Prop
  | .ok a => ∃ p, w.planned policy budget change actor = some (.ok p) ∧ p.Seen w actor.id ∧ made p a
  | .error f => f.NamesOnly (w.MayName actor.id change)

/-- The request is refused with the one answer that names the requested change as not visible, or
with the error of a store call. -/
def Refused {α : Type} (s : Service) (change : ChangeId) (r : Option (Except Failure α)) : Prop :=
  ∃ f, r = some (.error f) ∧ (f = .notVisible change ∨ s.CallFailed f)

/-- What planning comes to in the world, and whom it speaks of. -/
theorem seen_of_result {w : World} (hkeyed : w.Keyed) {p : Plan} {h : History}
    (hresult : Program.result w (plan policy change actor (.start budget)) = some (.ok p, h)) :
    w.planned policy budget change actor = some (.ok p) ∧ p.Seen w actor.id := by
  refine ⟨?_, sees_of_plan hkeyed (Program.mayCome_of_result (fun _ => rfl) hresult)⟩
  rw [World.planned, World.run_withHistory isInquiry_plan, hresult]
  rfl

/-- A failure of planning is modest. -/
theorem namesOnly_of_run {f : Failure} (hkeyed : s.world.Keyed)
    (hrun : (s.run (withHistory budget (plan policy change actor))).1 = some (.error f)) :
    f.NamesOnly (s.world.MayName actor.id change) := by
  rcases Service.failsWith_of_run isInquiry_plan hrun with hcall | hfails
  · exact hcall.namesOnly
  · exact namesOnly_of_plan hkeyed hfails

theorem modest_preview (hkeyed : s.world.Keyed) {r : Except Failure (Table Branch CommitId)}
    (hrun : (s.run (preview policy budget change actor)).1 = some r) :
    Modest s.world policy budget change actor (fun p tips => tips = p.tips) r := by
  rw [preview, Service.run_tell_map] at hrun
  obtain ⟨r', hplanned, rfl⟩ := Option.map_eq_some_iff.1 hrun
  cases r' with
  | error f => exact namesOnly_of_run hkeyed hplanned
  | ok p =>
    obtain ⟨h, hresult⟩ := Service.result_of_run isInquiry_plan hplanned
    obtain ⟨hmade, hseen⟩ := seen_of_result hkeyed hresult
    exact ⟨p, hmade, hseen, rfl⟩

theorem modest_previewArchive (hkeyed : s.world.Keyed) {format : ArchiveFormat}
    {r : Except Failure Archive}
    (hrun : (s.run (previewArchive policy budget change actor format)).1 = some r) :
    Modest s.world policy budget change actor (fun p archive => ∃ packed,
      Archive.build format packed = .ok archive ∧ ∀ b ∈ packed, ∀ c ∈ b.commits,
        ∃ id, s.world.Known (p.draftsFor b.project) b.project id c) r := by
  rw [previewArchive, Service.run_tell_map] at hrun
  obtain ⟨r', hbundles, rfl⟩ := Option.map_eq_some_iff.1 hrun
  cases r' with
  | error f =>
    rcases Service.failsWith_of_run isInquiry_bundles hbundles with hcall | hfails
    · exact hcall.namesOnly
    · rcases failsWith_bind.1 hfails with hplanning | ⟨p, h, _, hpacking⟩
      · exact namesOnly_of_plan hkeyed hplanning
      · exact (isInquiry_mapM fun _ _ => isInquiry_bundle).namesOnly hpacking
  | ok packed =>
    show Modest _ _ _ _ _ _ (Archive.build format packed)
    cases hbuild : Archive.build format packed with
    | error f => exact Archive.namesOnly_of_build hbuild
    | ok archive =>
      obtain ⟨h, hresult⟩ := Service.result_of_run isInquiry_bundles hbundles
      obtain ⟨p, h₁, hplan, _⟩ := Study.result_bind_ok hresult
      obtain ⟨hmade, hseen⟩ := seen_of_result hkeyed hplan
      have hpacked : (s.world.run (withHistory budget (bundles policy change actor))).1 =
          some (.ok packed) := by
        rw [World.run_withHistory isInquiry_bundles, hresult]
        rfl
      obtain ⟨h₂, h₃, hf, hpacking⟩ := packing_of_bundles hkeyed hmade hpacked
      exact ⟨p, hmade, hseen, packed, hbuild, known_of_packing hf hpacking⟩

theorem modest_submit (hkeyed : s.world.Keyed) {r : Except Failure Outcome}
    (hrun : (s.run (submit policy budget change actor)).1 = some r) :
    Modest s.world policy budget change actor
      (fun p outcome => outcome = ⟨p.tips, p.batch.changes.map (·.id)⟩) r := by
  rcases cases_of_run_submit hrun with ⟨f, hplanned, rfl⟩ | ⟨p, hplanned, hend⟩
  · exact namesOnly_of_run hkeyed hplanned
  · obtain ⟨h, hresult⟩ := Service.result_of_run isInquiry_plan hplanned
    obtain ⟨hmade, hseen⟩ := seen_of_result hkeyed hresult
    rcases hend with ⟨f, rfl, hfails⟩ | rfl
    · -- The changes that are marked are those of the batch.
      refine (Plan.namesOnly_of_apply hfails).mono fun id hid => ?_
      have hids := (World.of_planned hkeyed hmade).toFramed.map_id_changes
      have hmem : id ∈ p.batch.changes.map (·.id) := by
        rw [hids]
        exact List.mem_flatMap.2 hid
      obtain ⟨c, hc, rfl⟩ := List.mem_map.1 hmem
      exact .inr ⟨c, rfl, hseen.changes c hc⟩
    · exact ⟨p, hmade, hseen, rfl⟩

/-- **No answer names a hidden change.**  Whatever a preview, a preview archive or a submission
answers, it names no change but the requested one and those that the account sees: a failure names no
others, the tips and the changes of an outcome are those of a plan that speaks of no others, and the
commits of an archive are stored already or drafted by such a plan.  If something that must go in
with the requested change is hidden, the answer is that the requested change is not visible, unless a
store call has failed. -/
theorem answers_name_seen (hkeyed : s.world.Keyed) (policy : Policy) (budget : Nat)
    (change : ChangeId) (actor : Account) :
    (∀ r, (s.run (preview policy budget change actor)).1 = some r →
      Modest s.world policy budget change actor (fun p tips => tips = p.tips) r) ∧
    (∀ format r, (s.run (previewArchive policy budget change actor format)).1 = some r →
      Modest s.world policy budget change actor (fun p archive => ∃ packed,
        Archive.build format packed = .ok archive ∧ ∀ b ∈ packed, ∀ c ∈ b.commits,
          ∃ id, s.world.Known (p.draftsFor b.project) b.project id c) r) ∧
    (∀ r, (s.run (submit policy budget change actor)).1 = some r →
      Modest s.world policy budget change actor
        (fun p outcome => outcome = ⟨p.tips, p.batch.changes.map (·.id)⟩) r) ∧
    ∀ requested c, s.world.changes.get? change = some requested →
      (requested.isOpen = true ∨ s.world.isVisible actor.id requested = false) →
      s.world.Joins policy.wholeTopic requested c → s.world.isVisible actor.id c = false →
      s.world.reach ≤ budget →
        Refused s change (s.run (preview policy budget change actor)).1 ∧
        (∀ format, Refused s change (s.run (previewArchive policy budget change actor format)).1) ∧
        Refused s change (s.run (submit policy budget change actor)).1 := by
  refine ⟨fun r => modest_preview hkeyed, fun format r => modest_previewArchive hkeyed,
    fun r => modest_submit hkeyed, fun requested c hget hplain hjoins hhidden hbudget => ?_⟩
  have hends := ends_plan_of_hidden hkeyed hget hplain hjoins hhidden hbudget
  have hrefused : ∀ {α : Type} {r : Option (Except Failure α)},
      (∃ f, r = some (.error f) ∧ (s.world.Refuses change f ∨ s.CallFailed f)) →
        Refused s change r := by
    rintro α r ⟨f, hr, (hnamed | hpassed) | hcall⟩
    · exact ⟨f, hr, .inl hnamed⟩
    · exact ⟨f, hr, .inr (.inl hpassed)⟩
    · exact ⟨f, hr, .inr hcall⟩
  obtain ⟨f, hplanned, hf⟩ := Service.exists_failure_of_ends isInquiry_plan hends
  have hbundles : s.world.Ends (bundles policy change actor) (.start budget) (fun _ _ => False)
      (s.world.Refuses change) :=
    hends.bind fun _ _ hfalse => hfalse.elim
  obtain ⟨f', hpacked, hf'⟩ := Service.exists_failure_of_ends isInquiry_bundles hbundles
  refine ⟨hrefused ⟨f, ?_, hf⟩, fun format => hrefused ⟨f', ?_, hf'⟩,
    hrefused ⟨f, run_submit_of_failure hplanned, hf⟩⟩
  · rw [preview, Service.run_tell_map, hplanned]
    rfl
  · rw [previewArchive, Service.run_tell_map, hpacked]
    rfl

/-- The siblings are submitted, and the outcome speaks of changes that are seen.  Where the branch of
the mate in the second project is hidden, the mate may not be named, and the submission is refused. -/
theorem sample_answers_name_seen :
    let s := Sample.siblings
    let w := s.world.hideBranch (Sample.branch "q") []
    let requested := Sample.change 2 "p" Sample.y
    let mate := Sample.change 3 "q" Sample.z
    s.world.Keyed ∧ w.Keyed ∧ w.changes.get? 2 = some requested ∧ requested.isOpen = true ∧
      w.Joins s.policy.wholeTopic requested mate ∧ w.isVisible s.actor.id mate = false ∧
      ¬ w.MayName s.actor.id 2 3 ∧
      (∃ outcome, ∃ p : Plan, (s.service.run (submit s.policy s.world.reach s.change s.actor)).1 =
        some (.ok outcome) ∧ outcome = ⟨p.tips, p.batch.changes.map (·.id)⟩ ∧
          p.Seen s.world s.actor.id) ∧
      Refused (Service.start w 8) 2 ((Service.start w 8).run (submit s.policy w.reach 2 s.actor)).1 := by
  intro s w requested mate
  have hget : w.changes.get? 2 = some requested := by decide +kernel
  have hjoins : w.Joins s.policy.wholeTopic requested mate :=
    .mate rfl .self ⟨by decide +kernel, by decide +kernel, "t", rfl, rfl⟩
  have hhidden : w.isVisible s.actor.id mate = false := by decide +kernel
  have hunnamed : ¬ w.MayName s.actor.id 2 3 :=
    World.not_mayName_of_hidden (c := mate) (by decide +kernel) hhidden (by decide)
  obtain ⟨outcome, after, hrun, _⟩ := s.exists_run_submit
  have hended := congrArg Prod.fst hrun
  obtain ⟨p, _, hseen, hmade⟩ := (answers_name_seen (s := s.service) s.keyed s.policy s.world.reach
    s.change s.actor).2.2.1 _ hended
  have hrefused := (answers_name_seen (s := Service.start w 8) s.keyed s.policy w.reach 2
    s.actor).2.2.2 requested mate hget (.inl rfl) hjoins hhidden (Nat.le_refl _)
  exact ⟨s.keyed, s.keyed, hget, rfl, hjoins, hhidden, hunnamed,
    ⟨outcome, p, hended, hmade, hseen⟩, hrefused.2.2⟩

end Submission
end Landing
