import Landing.Proofs.Submission.Atomicity
import Landing.Proofs.Submission.Budget
import Landing.Proofs.Submission.Conduct
import Landing.Proofs.Submission.Locality
import Landing.Proofs.Submission.Reliance
import Landing.Proofs.Submission.Report

/-!
# One branch at a time

When topics are left alone, a submission is a matter of one branch.

* It leaves alone whatever is not of this branch, however it ends
  (`World.Confined`).  All orders of a plan are for the branch of the requested
  change, and so are those that take something back.
* What it comes to is decided by one project (`World.Agree`).  Planning asks for
  nothing else, so a preview shows the same in two worlds that agree on the
  project.
-/

namespace Landing

open World Submission

/-! ### Orders for one branch -/

/-- The call asks for something, or it is an order for the branch: it stores a commit in the project,
moves the branch, or writes a record that is one of the branch in `w`. -/
def StoreCall.For (w : World) (dest : Branch) : StoreCall → Prop
  | insertCommit project _ => project = dest.project
  | compareAndSwap b _ _ => b = dest
  | markMerged k _ _ => ∃ c, w.changes.get? k = some c ∧ c.dest = dest
  | reopen k => ∃ c, w.changes.get? k = some c ∧ c.dest = dest
  | _ => True

/-- What has become of `w` differs from it on one branch: in where the branch points, in records of
changes for it, and by commits that were added in its project. -/
structure World.Confined (w : World) (dest : Branch) (v : World) : Prop where
  tips : ∀ b, b ≠ dest → v.tip? b = w.tip? b
  commits : ∀ q, q ≠ dest.project → ∀ id, v.commit? q id = w.commit? q id
  stored : w.StoredIn v
  records : ∀ k, v.changes.get? k = w.changes.get? k ∨
    ∃ c, w.changes.get? k = some c ∧ c.dest = dest
  settings : v.accounts = w.accounts ∧ v.hidden = w.hidden ∧ v.nextId = w.nextId

namespace World

variable {w v : World} {dest : Branch}

theorem Confined.refl (w : World) (dest : Branch) : w.Confined dest w :=
  ⟨fun _ _ => rfl, fun _ _ _ => rfl, .refl w, fun _ => .inl rfl, rfl, rfl, rfl⟩

/-- An order for the branch changes nothing else. -/
theorem Confined.answer (h : w.Confined dest v) {c : StoreCall} (hc : c.For w dest) :
    w.Confined dest (v.answer c).2 where
  tips b hb := by
    rcases v.tips_answer c with hsame | ⟨b', old, tip, rfl, hswap, heffect⟩
    · rw [hsame, h.tips b hb]
    · have hdest : b' = dest := hc
      rw [heffect, tip?_withTip hswap.project, hdest, if_neg hb, h.tips b hb]
  commits q hq id := by
    rcases v.commits_answer c with hsame | ⟨project, d, rfl, hproject, heffect⟩
    · rw [hsame, h.commits q hq]
    · have hdest : project = dest.project := hc
      rw [heffect, commit?_withCommit hproject, hdest, if_neg fun heq => hq heq.1, Option.or_none,
        h.commits q hq]
  stored := h.stored.trans (storedIn_answer v c)
  records k := by
    -- A record that is written is one of the branch.
    have hwrite : ∀ {number : ChangeId} {f : Change → Change},
        (∃ c, w.changes.get? number = some c ∧ c.dest = dest) →
        (v.withChange number f).changes.get? k = w.changes.get? k ∨
          ∃ c, w.changes.get? k = some c ∧ c.dest = dest := by
      intro number f hrecord
      rw [get?_changes_withChange]
      split
      · next hk => exact .inr (hk ▸ hrecord)
      · exact h.records k
    rcases v.changes_answer c with
      hsame | ⟨number, ⟨t, submitter, rfl, heffect⟩ | ⟨rfl, heffect⟩⟩
    · rw [hsame]
      exact h.records k
    · rw [heffect]
      exact hwrite hc
    · rw [heffect]
      exact hwrite hc
  settings := by
    obtain ⟨haccounts, hhidden, hnext⟩ := settings_answer v c
    exact ⟨haccounts.trans h.settings.1, hhidden.trans h.settings.2.1, hnext.trans h.settings.2.2⟩

end World

/-! ### Orders of a plan -/

namespace Plan

variable {p : Plan} {S : StoreCall → Prop}
variable {A : (c : StoreCall) → Except StoreError c.Reply → Prop}

/-- What is left of applying a plan once its merge commits are stored. -/
def transact (p : Plan) : Program (Except Failure (List TakenStep × Plan)) := do
  let (log, failure?) ← Transaction.perform p.steps []
  match failure? with
  | none => pure (.ok (log, p.markApplied))
  | some cause =>
    Program.tell (.rolledBack log.length cause)
    match ← Transaction.rollback log with
    | .ok _ => pure (.error cause)
    | .error failure => pure (.error failure)

theorem apply_eq (p : Plan) : p.apply = (storeAll p.inserts).bind fun r => match r with
    | .error f => .done (.error f)
    | .ok _ => p.transact := rfl

/-- The steps of a plan take no calls but those that take them and those that take them back. -/
theorem callsOnly_transact (hstep : ∀ s ∈ p.steps, S s.call ∧ S s.backCall) :
    p.transact.CallsOnly S A := by
  have hperform := Program.executes_perform p.steps []
  refine Program.CallsOnly.bind (p := Transaction.perform p.steps [])
    (hperform.callsOnly fun s hs => (hstep s hs).1) fun r hr => ?_
  rcases hperform.of_mayCome hr with rfl | ⟨finished, hfinished, f, rfl, _⟩
  · trivial
  · -- The steps that were taken are taken back.
    refine (executes_undoing finished f).callsOnly fun s hs => ?_
    exact (hstep s (hfinished.subset (List.mem_reverse.1 hs))).2

/-- Applying a plan takes no calls but those that store its merge commits, take its steps, and take
them back. -/
theorem callsOnly_apply (hstore : ∀ e ∈ p.inserts, S (storeCall e))
    (hstep : ∀ s ∈ p.steps, S s.call ∧ S s.backCall) : p.apply.CallsOnly S A := by
  rw [apply_eq]
  refine Program.CallsOnly.bind ((Program.executes_storeAll p.inserts).callsOnly hstore) fun r _ => ?_
  cases r with
  | error f => trivial
  | ok u => exact callsOnly_transact hstep

/-- When all changes of a plan are for one branch, so are all of its orders. -/
theorem Of.callsOnly_apply {w : World} (hplan : p.Of w) {dest : Branch}
    (hchanges : ∀ c ∈ p.batch.changes, c.dest = dest)
    (hsegments : ∀ s ∈ p.batch.segments, s.branch = dest) :
    p.apply.CallsOnly (StoreCall.For w dest) A := by
  have hbranch : ∀ bp ∈ p.branches, bp.branch = dest := by
    intro bp hbp
    obtain ⟨s, hs, hof⟩ := hplan.exists_segment hbp
    rw [hof.branch_eq, hsegments s hs]
  refine Plan.callsOnly_apply (fun e he => ?_) fun s hs => ?_
  · obtain ⟨bp, hbp, hproject, _⟩ := hplan.drafted e.1 e.2 (mem_inserts.1 he)
    show e.1 = dest.project
    rw [← hproject, hbranch bp hbp]
  · cases s with
    | swap b old new =>
      obtain ⟨bp, hbp, rfl, _⟩ := swap_mem_steps.1 hs
      have hdest := hbranch bp (mem_moving.1 hbp).1
      exact ⟨hdest, hdest⟩
    | mark k tip submitter =>
      obtain ⟨⟨bp, hbp, _, hk⟩, _⟩ := mark_mem_steps.1 hs
      obtain ⟨c, hc, rfl, _⟩ := (hplan.mem_changes_iff hbp).1 hk
      have hrecord : ∃ c', w.changes.get? c.id = some c' ∧ c'.dest = dest :=
        ⟨c, (hplan.openRecord c hc).recorded, hchanges c hc⟩
      exact ⟨hrecord, hrecord⟩

end Plan

/-! ### Runs against an adversary -/

namespace Trial

variable {α : Type} {S : StoreCall → Prop} {I : World → Prop} {adversary : Adversary} {t : Trial}
variable {w : World} {policy : Policy} {budget : Nat} {change : ChangeId} {actor : Account}

/-- What none of the calls of a program spoils the program does not spoil, even if calls are refused. -/
theorem comes_keeps {p : Program α} (hp : p.CallsOnly S fun _ _ => True)
    (hcall : ∀ v c, S c → I v → I (v.answer c).2) (harmed : t.armed = none) (ht : I t.world) :
    Comes adversary p t fun _ t' => I t'.world ∧ t'.armed = none := by
  induction p generalizing t with
  | done a => exact ⟨ht, harmed⟩
  | exhausted => exact ⟨ht, harmed⟩
  | signal g next ih => exact ih hp (t := t.note g) harmed ht
  | call c next ih =>
    obtain ⟨hc, hnext⟩ := hp
    obtain ⟨hnone, hcases⟩ := @answer_cases_of_unarmed adversary t harmed c
    have hkept : I (answer adversary t c).2.world := by
      rcases hcases with ⟨_, _, hsame⟩ | ⟨_, hworld⟩
      · rw [hsame]
        exact ht
      · rw [hworld]
        exact hcall t.world c hc ht
    exact ih (answer adversary t c).1 (hnext _ trivial) hnone hkept

/-- The world `v` is `w`, or it differs from it on the branch of the requested change only. -/
def Isolated (w : World) (change : ChangeId) (v : World) : Prop :=
  v = w ∨ ∃ requested, w.changes.get? change = some requested ∧ w.Confined requested.dest v

/-- Planning and applying. -/
theorem comes_planAndApply_isolated (hkeyed : w.Keyed) (htopic : policy.wholeTopic = false)
    (harmed : t.armed = none) (hworld : t.world = w) :
    Comes adversary (planAndApply policy budget change actor) t fun _ t' =>
      Isolated w change t'.world ∧ t'.armed = none := by
  -- While planning goes on, nothing changes.
  have hstill : ∀ t' : Trial, t'.view = t.view → t'.world = w ∧ t'.armed = none := fun t' ht' =>
    ⟨(congrArg Prod.fst ht').trans hworld, (congrArg (fun v => v.2.1) ht').trans harmed⟩
  refine Comes.bind comes_planning (fun r t₁ ht₁ => ?_) fun t₁ ht₁ =>
    ⟨.inl (hstill t₁ ht₁.1).1, (hstill t₁ ht₁.1).2⟩
  obtain ⟨hview, hend⟩ := ht₁
  obtain ⟨hworld₁, harmed₁⟩ := hstill t₁ hview
  cases r with
  | error f => exact ⟨.inl hworld₁, harmed₁⟩
  | ok p =>
    have hplanned : w.planned policy budget change actor = some (.ok p) := by
      rcases hend with ⟨f, heq, _⟩ | hplanned
      · cases heq
      · rw [← hworld]
        exact hplanned.symm
    obtain ⟨requested, hrequested, hchanges, hsegments⟩ := dest_of_planned htopic hplanned
    have hcalls := (World.of_planned hkeyed hplanned).callsOnly_apply (A := fun _ _ => True)
      hchanges hsegments
    have happly : Comes adversary p.apply t₁ fun _ t' =>
        w.Confined requested.dest t'.world ∧ t'.armed = none :=
      comes_keeps hcalls (fun v c hc hv => hv.answer hc) harmed₁ (hworld₁ ▸ .refl w _)
    refine Comes.bind happly (fun r t₂ ht₂ => ?_) fun t₂ ht₂ =>
      ⟨.inr ⟨requested, hrequested, ht₂.1⟩, ht₂.2⟩
    cases r with
    | _ => exact ⟨.inr ⟨requested, hrequested, ht₂.1⟩, ht₂.2⟩

/-- A submission that leaves topics alone changes nothing that is not of the branch of the requested
change. -/
theorem comes_submit_isolated (hkeyed : w.Keyed) (htopic : policy.wholeTopic = false)
    (adversary : Adversary) (budget : Nat) (change : ChangeId) (actor : Account) :
    Comes adversary (submit policy budget change actor) (start w none) fun _ t =>
      Isolated w change t.world := by
  have hparts : Comes adversary (planAndApply policy budget change actor)
      ((start w none).note (.started change actor.id false)) fun _ t' =>
        Isolated w change t'.world ∧ t'.armed = none :=
    comes_planAndApply_isolated hkeyed htopic rfl rfl
  refine Comes.bind (p := planAndApply policy budget change actor)
    (R := fun _ t => Isolated w change t.world) hparts (fun r t ht => ?_) fun t ht => ht.1
  cases r with
  | error f => exact ht.1
  | ok p =>
    -- Only signals are left.
    have hsignals : Program.CallsOnly (fun _ => False) (fun _ _ => True)
        ((publish p.events).bind fun _ =>
          .done (.ok ⟨p.tips, p.batch.changes.map (·.id)⟩ : Except Failure Outcome)) :=
      (silent_publish p.events _).callsOnly
    exact (comes_keeps (I := Isolated w change) hsignals (fun _ _ hc => hc.elim)
      (t := t.note (.applied p.tips.size p.batch.size p.fastForwardCount p.mergeCount))
      ht.2 ht.1).1

end Trial

/-! ### Worlds that agree on a project -/

namespace World

variable {w w' : World} {project : ProjectName} {change : ChangeId} {requested : Change}

/-- The worlds have the same commits and branches in the project, the same records of changes for it,
and the same rules about its hidden branches. -/
structure Agree (project : ProjectName) (w w' : World) : Prop where
  content : w'.projects.get? project = w.projects.get? project
  records : ∀ id c, c.dest.project = project →
    (w'.changes.get? id = some c ↔ w.changes.get? id = some c)
  rules : ∀ b, b.project = project → w'.hidden.get? b = w.hidden.get? b

/-- The same changes of the project are at a commit. -/
theorem Agree.changesAt (h : Agree project w w') (commit : CommitId) :
    w'.changesAt project commit = w.changesAt project commit := by
  unfold World.changesAt
  rw [← Table.values_filter, ← Table.values_filter]
  congr 1
  refine Table.ext_get? fun id => Option.ext fun c => ?_
  rw [Table.get?_filter_eq_some_iff, Table.get?_filter_eq_some_iff]
  refine and_congr_left fun hc => h.records id c ?_
  rw [Bool.and_eq_true, beq_iff_eq] at hc
  exact hc.1

/-- What is asked for a change of the project is answered alike. -/
theorem Agree.answer (h : Agree project w w') (hrequested : w.changes.get? change = some requested)
    (hproject : requested.dest.project = project) {c : StoreCall} (hc : c.About change project) :
    (w'.answer c).1 = (w.answer c).1 := by
  cases c with
  | commit q id =>
    have hq : q = project := hc
    show w'.readCommit q id = w.readCommit q id
    unfold readCommit project?
    rw [hq, h.content]
  | branches q =>
    have hq : q = project := hc
    show w'.branches q = w.branches q
    unfold branches project?
    rw [hq, h.content]
  | byCommit q id =>
    have hq : q = project := hc
    show Except.ok (w'.changesAt q id) = Except.ok (w.changesAt q id)
    rw [hq, h.changesAt]
  | isVisible actor c =>
    show Except.ok (w'.isVisible actor c) = Except.ok (w.isVisible actor c)
    unfold isVisible canRead
    rw [h.rules c.dest hc]
  | get id =>
    have hid : id = change := hc
    show Except.ok (w'.changes.get? id) = Except.ok (w.changes.get? id)
    rw [hid, hrequested, (h.records change requested hproject).2 hrequested]
  | _ => exact hc.elim

/-- Planning comes to the same in worlds that agree on the project of the requested change. -/
theorem Agree.planned {policy : Policy} (h : Agree requested.dest.project w w')
    (htopic : policy.wholeTopic = false) (hrequested : w.changes.get? change = some requested)
    (budget : Nat) (actor : Account) :
    w'.planned policy budget change actor = w.planned policy budget change actor := by
  have hshown : ∀ c : StoreCall, c.About change requested.dest.project →
      w.Shows (fun c => c.dest.project = requested.dest.project) c (w.answer c).1 := by
    intro c hc
    cases c with
    | get id =>
      have hid : id = change := hc
      show w.Shows _ (.get id) (.ok (w.changes.get? id))
      rw [hid, hrequested]
      rfl
    | byCommit q id =>
      have hq : q = requested.dest.project := hc
      intro c hmem
      obtain ⟨_, hkept⟩ := List.mem_filter.1 hmem
      rw [Bool.and_eq_true, beq_iff_eq] at hkept
      exact ⟨hkept.1.trans hq, hkept.1⟩
    | commit q id => rfl
    | branches q => rfl
    | isVisible actor c => trivial
    | _ => exact hc.elim
  rw [World.planned, World.planned, run_withHistory isInquiry_plan, run_withHistory isInquiry_plan,
    Program.result_congr (callsOnly_plan htopic _) hshown
      fun c hc => h.answer hrequested rfl hc]

end World

namespace Submission

variable {w w' : World} {policy : Policy} {budget : Nat} {change : ChangeId} {actor : Account}

/-- When topics are left alone, a submission against an adversary, however it ends, moves no branch but
that of the requested change, adds commits in the project of this branch only and removes none, and
writes no records but those of changes for this branch.  And what a preview shows is decided by what
belongs to the project: its commits and branches, the changes for them, and the rules about its hidden
branches.  It does not matter whether the budgets are the same, as long as both suffice. -/
theorem topic_off_isolated (hkeyed : w.Keyed) (htopic : policy.wholeTopic = false) :
    (∀ {adversary : Adversary} {ended : Option (Except Failure Outcome)} {t : Trial},
      (submit policy budget change actor).run (Trial.host adversary) (Trial.start w none) =
        (ended, t) →
      (∀ b, t.world.tip? b ≠ w.tip? b →
        ∃ requested, w.changes.get? change = some requested ∧ b = requested.dest) ∧
      (∀ q id c, w.commit? q id = some c → t.world.commit? q id = some c) ∧
      (∀ q id, t.world.commit? q id ≠ w.commit? q id →
        ∃ requested, w.changes.get? change = some requested ∧ q = requested.dest.project) ∧
      (∀ k, t.world.changes.get? k ≠ w.changes.get? k →
        ∃ requested c, w.changes.get? change = some requested ∧ w.changes.get? k = some c ∧
          c.dest = requested.dest)) ∧
    ∀ requested, w.changes.get? change = some requested →
      World.Agree requested.dest.project w w' →
      ∀ s s' : Service, s.backend = .calm w → s'.backend = .calm w' →
        (s'.run (preview policy budget change actor)).1 =
          (s.run (preview policy budget change actor)).1 ∧
        ∀ budget' shown shown', (s.run (preview policy budget change actor)).1 = some shown →
          (s'.run (preview policy budget' change actor)).1 = some shown' → shown' = shown := by
  constructor
  · intro adversary ended t hrun
    have hisolated := Trial.comes_submit_isolated hkeyed htopic adversary budget change actor
    unfold Trial.Comes at hisolated
    rw [hrun] at hisolated
    rcases hisolated with hsame | ⟨requested, hrequested, hconfined⟩
    · change t.world = w at hsame
      rw [hsame]
      exact ⟨fun b hb => absurd rfl hb, fun q id c hc => hc, fun q id hid => absurd rfl hid,
        fun k hk => absurd rfl hk⟩
    · refine ⟨fun b hb => ⟨requested, hrequested, ?_⟩, hconfined.stored,
        fun q id hid => ⟨requested, hrequested, ?_⟩, fun k hk => ?_⟩
      · by_contra hne
        exact hb (hconfined.tips b hne)
      · by_contra hne
        exact hid (hconfined.commits q hne id)
      · obtain ⟨c, hc, hdest⟩ := (hconfined.records k).resolve_left hk
        exact ⟨requested, c, hrequested, hc, hdest⟩
  · intro requested hrequested hagree s s' hs hs'
    have hsame : ∀ budget, (s'.run (preview policy budget change actor)).1 =
        (s.run (preview policy budget change actor)).1 := fun budget => by
      rw [(Service.run_calm hs _).1, (Service.run_calm hs' _).1, run_preview, run_preview,
        hagree.planned htopic hrequested]
    refine ⟨hsame budget, fun budget' shown shown' hshown hshown' => ?_⟩
    -- With the larger of the budgets both come to what they have come to.
    have hmore : (s.run (preview policy (max budget budget') change actor)).1 = some shown :=
      congrArg Prod.fst (run_preview_of_le (le_max_left budget budget') (Prod.ext hshown rfl))
    have hmore' : (s'.run (preview policy (max budget budget') change actor)).1 = some shown' :=
      congrArg Prod.fst (run_preview_of_le (le_max_right budget budget') (Prod.ext hshown' rfl))
    exact Option.some.inj (hmore'.symm.trans ((hsame _).trans hmore))

/-- The second of the siblings is submitted by itself.  It makes no difference to a preview that the
change with the same topic in the other project was deleted, and that nobody may read the branch that
it was for. -/
theorem sample_topic_off :
    let w := Sample.siblings.world
    let w' : World := { w with
      changes := w.changes.erase 3
      hidden := w.hidden.insert (Sample.branch "q") .empty }
    let run := (submit Policy.standard w.reach 2 Sample.actor).run (Trial.host (.ofFaults []))
      (Trial.start w none)
    let shown := (Service.start w 8).run (preview Policy.standard w.reach 2 Sample.actor)
    w.Keyed ∧ Policy.standard.wholeTopic = false ∧
      w.changes.get? 2 = some (Sample.change 2 "p" Sample.y) ∧ World.Agree "p" w w' ∧
      run.1 = some (.ok ⟨Table.empty.insert (Sample.branch "p") Sample.y, [2]⟩) ∧
      run.2.world.tip? (Sample.branch "q") = w.tip? (Sample.branch "q") ∧
      shown.1 = some (.ok (Table.empty.insert (Sample.branch "p") Sample.y)) ∧
      ((Service.start w' 8).run (preview Policy.standard w.reach 2 Sample.actor)).1 = shown.1 := by
  intro w w' run shown
  have hkeyed : w.Keyed := Sample.siblings.keyed
  have hrequested : w.changes.get? 2 = some (Sample.change 2 "p" Sample.y) := by decide +kernel
  have hagree : World.Agree "p" w w' := by
    have hother : w.changes.get? 3 = some (Sample.change 3 "q" Sample.z) := by decide +kernel
    refine ⟨rfl, fun id c hc => ?_, fun b hb => Table.get?_insert_of_ne _ _ ?_⟩
    · show (w.changes.erase 3).get? id = some c ↔ _
      rw [Table.get?_erase]
      split
      · next heq =>
        rw [Std.LawfulEqCmp.eq_of_compare heq, hother]
        constructor
        · exact nofun
        · intro hsome
          cases hsome
          exact absurd hc (by decide)
      · exact Iff.rfl
    · rintro rfl
      exact absurd hb (by decide)
  have hrun : run = (run.1, run.2) := (Prod.mk.eta (p := run)).symm
  obtain ⟨hsubmit, hpreview⟩ :=
    @topic_off_isolated w w' Policy.standard w.reach 2 Sample.actor hkeyed rfl
  obtain ⟨htips, _⟩ := hsubmit hrun
  refine ⟨hkeyed, rfl, hrequested, hagree, by decide +kernel, ?_, by decide +kernel,
    (hpreview _ hrequested hagree _ _ rfl rfl).1⟩
  by_contra hmoved
  obtain ⟨requested, hget, hbranch⟩ := htips (Sample.branch "q") hmoved
  rw [hrequested] at hget
  cases hget
  revert hbranch
  decide

end Submission
end Landing
