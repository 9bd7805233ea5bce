import Landing.Proofs.History.Ending
import Landing.Proofs.History.Generations
import Landing.Proofs.Submission.Submit
import Landing.Proofs.Submission.Validation

/-!
# What the check of dependencies says

The check of a batch comes to a definite end (`World.ends_check`): for every change it
takes the first parent of the current commit that is not met, and asks the change with
the lowest number that has a patch set at that parent what to say about it
(`World.verdict`).

What is said is true if that change is the right one to ask, and if the first of its
patch sets at the parent is the right one to look at.  `World.Misread` lists the four
ways in which it is not, and `World.verdict_truthful_iff` says that there are no others.
-/

namespace Landing

open World

/-! ### Patch sets -/

namespace PatchSet

variable {l : List PatchSet} {p q : PatchSet}

/-- The patch set with the highest number is one of those given, and none has a higher number. -/
theorem latest?_spec (hp : latest? l = some p) : p ∈ l ∧ ∀ q ∈ l, q.number ≤ p.number := by
  cases l with
  | nil => cases hp
  | cons a rest =>
    -- One after another, the latest so far is kept or replaced.
    have hfold : ∀ (rest : List PatchSet) (best : PatchSet), rest.foldl later best ∈ best :: rest ∧
        ∀ q ∈ best :: rest, q.number ≤ (rest.foldl later best).number := by
      intro rest
      induction rest with
      | nil => exact fun best => ⟨List.mem_singleton_self best, by simp⟩
      | cons b rest ih =>
        intro best
        obtain ⟨hmem, hmax⟩ := ih (later best b)
        have hlater : later best b ∈ [best, b] ∧ best.number ≤ (later best b).number ∧
            b.number ≤ (later best b).number := by
          unfold later
          split
          · next hle => exact ⟨by simp, hle, UInt32.le_refl _⟩
          · next hnot => exact ⟨by simp, UInt32.le_refl _, UInt32.le_of_lt (UInt32.not_le.1 hnot)⟩
        rw [List.foldl_cons]
        constructor
        · rcases List.mem_cons.1 hmem with heq | hrest
          · rw [heq]
            exact List.mem_append_left rest hlater.1
          · simp [hrest]
        · intro q hq
          have htop := hmax (later best b) List.mem_cons_self
          rcases List.mem_cons.1 hq with rfl | hq
          · exact UInt32.le_trans hlater.2.1 htop
          · rcases List.mem_cons.1 hq with rfl | hq
            · exact UInt32.le_trans hlater.2.2 htop
            · exact hmax q (List.mem_cons_of_mem _ hq)
    cases hp
    exact hfold rest a

end PatchSet

namespace Change

variable {c : Change} {x : CommitId}

theorem mem_of_patchSetAt? {p : PatchSet} (hp : c.patchSetAt? x = some p) :
    p ∈ c.patchSets ∧ p.commit = x :=
  ⟨List.mem_of_find?_eq_some hp, by simpa using List.find?_some hp⟩

theorem patchSetAt?_eq_none_iff : c.patchSetAt? x = none ↔ ∀ p ∈ c.patchSets, p.commit ≠ x := by
  simp [patchSetAt?]

/-- A change with a patch set has a current one. -/
theorem exists_currentPatchSet? {p : PatchSet} (hp : p ∈ c.patchSets) :
    ∃ latest, c.currentPatchSet? = some latest := by
  unfold currentPatchSet? PatchSet.latest?
  split
  · next hnil =>
    rw [hnil] at hp
    cases hp
  · exact ⟨_, rfl⟩

end Change

/-! ### The answer for one commit -/

/-- What the owner of the commit `dependsOn` has to say about it to somebody who sees the owner, or
does not. -/
def Change.verdict (owner : Change) (visible : Bool) (commit dependsOn : CommitId) : Obstacle :=
  if visible then
    match owner.patchSetAt? dependsOn, owner.currentPatchSet? with
    | some at_, some latest =>
      if at_.number = latest.number then .notSubmitted commit dependsOn owner.id
      else .outdatedPatchSet commit dependsOn owner.id at_.number latest.number
    | _, _ => .notSubmitted commit dependsOn owner.id
  else .notVisibleOrDeleted commit dependsOn

/-- Only whether the owner is seen is asked. -/
theorem Validation.classify_eq (actor : AccountId) (commit dependsOn : CommitId) (owner : Change) :
    classify actor commit dependsOn owner =
      (fun visible => owner.verdict visible commit dependsOn) <$>
        Planning.ask (.isVisible actor owner) := by
  rw [map_eq_pure_bind, classify]
  congr 1
  funext visible
  unfold Change.verdict
  cases visible with
  | false => rfl
  | true =>
    cases owner.patchSetAt? dependsOn with
    | none => rfl
    | some at_ =>
      cases owner.currentPatchSet? with
      | none => rfl
      | some latest => exact (apply_ite pure (at_.number = latest.number) _ _).symm

/-- The commit that an obstacle is about and the one that it depends on. -/
def Obstacle.dependency? : Obstacle → Option (CommitId × CommitId)
  | .notSubmitted commit dependsOn _ => some (commit, dependsOn)
  | .outdatedPatchSet commit dependsOn _ _ _ => some (commit, dependsOn)
  | .notVisibleOrDeleted commit dependsOn => some (commit, dependsOn)
  | .pathConflict _ => none
  | .fastForwardRequired => none

/-- The reply to a batch when obstacles were found for some of its changes. -/
def Batch.reply (b : Batch) (found : Change → Option Obstacle) : Except Failure Unit :=
  let problems := b.changes.filterMap fun c => (found c).map (Problem.mk c.id)
  if problems.isEmpty then .ok () else .error (.dependency ⟨b.size, problems⟩)

theorem Batch.eq_none_of_reply {b : Batch} {found : Change → Option Obstacle}
    (hreply : b.reply found = .ok ()) {c : Change} (hc : c ∈ b.changes) : found c = none := by
  unfold reply at hreply
  dsimp only at hreply
  split at hreply
  · next hempty =>
    rw [List.isEmpty_iff, List.filterMap_eq_nil_iff] at hempty
    exact Option.map_eq_none_iff.1 (hempty c hc)
  · cases hreply

namespace World

variable {w : World} {h : History} {actor : AccountId} {project : ProjectName}
variable {own x y : CommitId} {batchCommits : List CommitId} {owner : Change}

/-- The change that answers for a commit. -/
def owner? (w : World) (project : ProjectName) (x : CommitId) : Option Change :=
  Validation.lowest? (w.changesAt project x)

/-- What the check says about a dependency of the commit `own` that is not met. -/
def verdict (w : World) (actor : AccountId) (project : ProjectName) (own x : CommitId) :
    Obstacle :=
  match w.owner? project x with
  | none => .notVisibleOrDeleted own x
  | some owner => owner.verdict (w.isVisible actor owner) own x

/-- A change is at a commit if it is a record of the project with a patch set there. -/
theorem mem_changesAt : owner ∈ w.changesAt project x ↔
    (∃ id, w.changes.get? id = some owner) ∧ owner.dest.project = project ∧
      ∃ p ∈ owner.patchSets, p.commit = x := by
  unfold changesAt Change.patchSetAt?
  rw [List.mem_filter, Table.mem_values]
  simp

theorem mem_of_owner? (howner : w.owner? project x = some owner) :
    owner ∈ w.changesAt project x :=
  Validation.mem_of_lowest? howner

theorem owner?_eq_none_iff : w.owner? project x = none ↔ w.changesAt project x = [] := by
  unfold owner? Validation.lowest?
  split <;> simp_all

/-- The owner has a patch set at the commit, and so it has a current one. -/
theorem exists_patchSets_of_owner? (howner : w.owner? project x = some owner) :
    ∃ p latest, owner.patchSetAt? x = some p ∧ owner.currentPatchSet? = some latest := by
  obtain ⟨-, -, p, hp, hx⟩ := mem_changesAt.1 (mem_of_owner? howner)
  obtain ⟨latest, hlatest⟩ := Change.exists_currentPatchSet? hp
  cases hat : owner.patchSetAt? x with
  | none => exact absurd hx (Change.patchSetAt?_eq_none_iff.1 hat p hp)
  | some p' => exact ⟨p', latest, rfl, hlatest⟩

/-- Some change at the commit settles it exactly if a merged change has it as its current commit. -/
theorem any_settles_iff :
    (w.changesAt project x).any (Validation.settles x) = true ↔ w.MergedAt project x := by
  rw [List.any_eq_true]
  constructor
  · rintro ⟨c, hc, hsettles⟩
    obtain ⟨⟨id, hget⟩, hproject, -⟩ := mem_changesAt.1 hc
    simp only [Validation.settles, Bool.and_eq_true, beq_iff_eq] at hsettles
    exact ⟨id, c, hget, hproject, hsettles.1, hsettles.2⟩
  · rintro ⟨id, c, hget, hproject, hmerged, hcurrent⟩
    obtain ⟨p, hp, hx⟩ := Option.map_eq_some_iff.1 hcurrent
    refine ⟨c, mem_changesAt.2 ⟨⟨id, hget⟩, hproject, p, (PatchSet.latest?_spec hp).1, hx⟩, ?_⟩
    simp [Validation.settles, hmerged, hcurrent]

/-! ### The outcome of the check -/

/-- What has to be stored for the check of a batch to go through. -/
def Checkable (w : World) (b : Batch) : Prop :=
  ∀ c ∈ b.changes, ∀ own, c.currentCommit? = some own →
    (w.commit? c.dest.project own).isSome ∧ w.Stocked c.dest.project

open Classical in
/-- What stands in the way of a change: its first parent that is not met. -/
noncomputable def obstacle? (w : World) (actor : AccountId) (batchCommits : List CommitId)
    (c : Change) : Option Obstacle :=
  c.currentCommit?.bind fun own =>
    ((w.parentsOf [] c.dest.project own).find? fun x =>
      ¬ w.DependencyMet c.dest.project batchCommits x).map (w.verdict actor c.dest.project own)

theorem ends_classify : w.Ends (Validation.classify actor own x owner) h
    (fun o h' => h' = h ∧ o = owner.verdict (w.isVisible actor owner) own x) (fun _ => False) := by
  rw [Validation.classify_eq]
  refine Ends.map (ends_planning_ask (fun visible hvisible => ⟨rfl, ?_⟩) fun e he => ?_)
  · rw [Except.ok.inj hvisible]
  · cases he

/-- Whether a commit is accepted is found out, unless a commit is missing behind a branch. -/
theorem ends_read_isAccepted (ha : h.Ample w fun _ => []) :
    w.Ends (Planning.read (History.isAccepted project x)) h
      (fun b h' => h'.Ample w (fun _ => []) ∧ (b = true ↔ w.Accepted project x))
      (fun f => (∃ e, f = .storage e) ∧ ¬ w.Stocked project) := by
  refine Ends.read (((ends_isAccepted (settled_nil w project) ha.ready).and_yields fun b h' hy =>
    (yields_isAccepted ha.faithful hy).2 (settled_nil w project)).mono ?_ ?_)
  · exact fun b h' hb => ⟨hb.1.toAmple, hb.2.1⟩
  · exact fun e he => ⟨⟨e, rfl⟩, he⟩

/-- The changes at a commit are listed. -/
theorem ends_ask_byCommit : w.Ends (Planning.ask (.byCommit project x)) h
    (fun owners h' => h' = h ∧ owners = w.changesAt project x) (fun _ => False) := by
  refine ends_planning_ask (fun owners howners => ⟨rfl, ?_⟩) fun e he => ?_
  · exact (Except.ok.inj howners).symm
  · cases he

open Classical in
/-- Going through a queue finds the first commit that is not met and says what the owner has to say. -/
theorem ends_firstUnmet {seen queue : List CommitId} (ha : h.Ample w fun _ => [])
    (hseen : ∀ x ∈ seen, w.DependencyMet project batchCommits x) :
    w.Ends (Validation.firstUnmet actor project own batchCommits seen queue) h
      (fun o h' => h'.Ample w (fun _ => []) ∧
        o = (queue.find? fun x => ¬ w.DependencyMet project batchCommits x).map
          (w.verdict actor project own))
      (fun f => (∃ e, f = .storage e) ∧ ¬ w.Stocked project) := by
  induction queue generalizing seen h with
  | nil => exact ends_pure ⟨ha, rfl⟩
  | cons x queue ih =>
    have hmet : ∀ {h : History}, (h.Ample w fun _ => []) → w.DependencyMet project batchCommits x →
        w.Ends (Validation.firstUnmet actor project own batchCommits (x :: seen) queue) h
          (fun o h' => h'.Ample w (fun _ => []) ∧
            o = ((x :: queue).find? fun x => ¬ w.DependencyMet project batchCommits x).map
              (w.verdict actor project own))
          (fun f => (∃ e, f = .storage e) ∧ ¬ w.Stocked project) := by
      intro h ha hx
      rw [List.find?_cons_of_neg (by simpa using hx)]
      exact ih ha (List.forall_mem_cons.2 ⟨hx, hseen⟩)
    rw [Validation.firstUnmet]
    split
    · next hknown =>
      refine hmet ha ?_
      rw [Bool.or_eq_true, List.contains_iff_mem, List.contains_iff_mem] at hknown
      rcases hknown with hold | hbatch
      · exact hseen x hold
      · exact .inr (.inl hbatch)
    · next hnew =>
      refine (ends_read_isAccepted ha).bind fun b h₁ hb => ?_
      obtain ⟨ha₁, hiff⟩ := hb
      split
      · next htrue => exact hmet ha₁ (.inl (hiff.1 htrue))
      · next hfalse =>
        refine (ends_ask_byCommit.mono (fun _ _ hr => hr) fun _ => False.elim).bind
          fun owners h₂ howners => ?_
        obtain ⟨rfl, rfl⟩ := howners
        split
        · next hsettles => exact hmet ha₁ (.inr (.inr (any_settles_iff.1 hsettles)))
        · next hopen =>
          have hunmet : ¬ w.DependencyMet project batchCommits x := by
            rintro (hacc | hbatch | hmerged)
            · exact hfalse (hiff.2 hacc)
            · simp [hbatch] at hnew
            · exact hopen (any_settles_iff.2 hmerged)
          rw [List.find?_cons_of_pos (by simpa using hunmet), Option.map_some, verdict]
          cases howner : w.owner? project x with
          | none =>
            rw [show Validation.lowest? (w.changesAt project x) = none from howner]
            exact ends_pure ⟨ha₁, rfl⟩
          | some owner =>
            rw [show Validation.lowest? (w.changesAt project x) = some owner from howner]
            refine Ends.map (ends_classify.mono ?_ fun _ hfalse => hfalse.elim)
            rintro o h' ⟨rfl, rfl⟩
            exact ⟨ha₁, rfl⟩

/-- The obstacle that is found for a change. -/
theorem ends_obstacle (ha : h.Ample w fun _ => []) (c : Change) :
    w.Ends (Validation.obstacle actor batchCommits c) h
      (fun o h' => h'.Ample w (fun _ => []) ∧ o = w.obstacle? actor batchCommits c)
      (fun f => (∃ e, f = .storage e) ∧ ∃ own, c.currentCommit? = some own ∧
        ¬ ((w.commit? c.dest.project own).isSome ∧ w.Stocked c.dest.project)) := by
  unfold Validation.obstacle obstacle?
  split
  · next hnone =>
    rw [hnone]
    exact ends_pure ⟨ha, rfl⟩
  · next own hown =>
    rw [hown]
    have hparents : w.Ends (Planning.read (History.parents c.dest.project own)) h
        (fun ps h' => h'.Ample w (fun _ => []) ∧ ps = w.parentsOf [] c.dest.project own)
        (fun f => (∃ e, f = .storage e) ∧ ∃ own', some own = some own' ∧
          ¬ ((w.commit? c.dest.project own').isSome ∧ w.Stocked c.dest.project)) := by
      refine Ends.read ((Ready.ends_parents ha.ready).mono ?_ ?_)
      · exact fun ps h' hps => ⟨hps.1.toAmple, (hps.2.parentsOf_eq (definite_nil w _)).symm⟩
      · refine fun e he => ⟨⟨e, rfl⟩, own, rfl, fun hstored => ?_⟩
        obtain ⟨k, hk⟩ := Option.isSome_iff_exists.1 hstored.1
        exact he k (.inl hk)
    refine hparents.bind fun ps h₁ hps => ?_
    obtain ⟨ha₁, rfl⟩ := hps
    refine (ends_firstUnmet ha₁ (by simp)).mono (fun o h' ho => ho) ?_
    exact fun f hf => ⟨hf.1, own, rfl, fun hstored => hf.2 hstored.2⟩

/-- **The outcome of the check.**  From a history without drafts with a budget that exceeds the reach of
the world, the check of a batch reports what stands in the way of each change, unless a store call
has failed since something is missing. -/
theorem ends_check (hfresh : h.Fresh w) (hbudget : w.reach ≤ h.budget) (actor : AccountId)
    (b : Batch) : ∃ r h', Program.result w (Validation.check actor b h) = some (r, h') ∧
      (r = b.reply (w.obstacle? actor b.commits) ∨
        (∃ e, r = .error (.storage e)) ∧ ¬ w.Checkable b) := by
  have hfound : w.Ends (b.changes.mapM fun c => do
        pure ((← Validation.obstacle actor b.commits c).map fun o => Problem.mk c.id o)) h
      (fun found h' => h'.Ample w (fun _ => []) ∧ List.Forall₂
        (fun c p => p = (w.obstacle? actor b.commits c).map (Problem.mk c.id)) b.changes found)
      (fun f => (∃ e, f = .storage e) ∧ ¬ w.Checkable b) := by
    refine ends_mapM (fun c hc h ha => ?_) (History.ample_of_reach hfresh hbudget)
    refine Ends.bind ((ends_obstacle ha c).mono (fun _ _ ho => ho) ?_) fun o h' ho =>
      ends_pure ⟨ho.1, by rw [ho.2]⟩
    rintro f ⟨hstorage, own, hown, hmissing⟩
    exact ⟨hstorage, fun hcheckable => hmissing (hcheckable c hc own hown)⟩
  have hcheck : w.Ends (Validation.check actor b) h
      (fun u h' => (.ok u : Except Failure Unit) = b.reply (w.obstacle? actor b.commits))
      (fun f => .error f = b.reply (w.obstacle? actor b.commits) ∨
        (∃ e, f = .storage e) ∧ ¬ w.Checkable b) := by
    refine (hfound.mono (fun _ _ hall => hall) fun f hf => .inr hf).bind fun found h₁ hall => ?_
    have hproblems : found.filterMap id =
        b.changes.filterMap fun c => (w.obstacle? actor b.commits c).map (Problem.mk c.id) := by
      have hmap : b.changes.map (fun c => (w.obstacle? actor b.commits c).map (Problem.mk c.id)) =
          found.map id := map_eq_map_of_forall₂ (hall.2.imp fun _ _ hp => hp.symm)
      rw [← List.map_id found, ← hmap, List.filterMap_map]
      rfl
    dsimp only
    rw [hproblems]
    unfold Batch.reply
    split
    · next hempty => exact ends_pure (by rw [if_pos hempty])
    · next hsome => exact ends_throw (.inl (by rw [if_neg hsome]))
  obtain ⟨r, h', hresult, hr⟩ := hcheck
  refine ⟨r, h', hresult, ?_⟩
  cases r with
  | ok u => exact .inl hr
  | error f =>
    refine hr.imp_right ?_
    rintro ⟨⟨e, rfl⟩, hmissing⟩
    exact ⟨⟨e, rfl⟩, hmissing⟩

/-! ### When the check tells the truth -/

/-- What an obstacle says about the changes at the commit that it names is so. -/
def Truthful (w : World) (actor : AccountId) (b : Batch) (project : ProjectName) :
    Obstacle → Prop
  | .outdatedPatchSet _ y owner number latest => ∃ c, w.changes.get? owner = some c ∧
      w.isVisible actor c = true ∧ (∃ p ∈ c.patchSets, p.number = number ∧ p.commit = y) ∧
      (∃ p ∈ c.patchSets, p.number = latest) ∧ (∀ p ∈ c.patchSets, p.number ≤ latest) ∧
      c.currentCommit? ≠ some y
  | .notSubmitted _ y owner => ∃ c, w.changes.get? owner = some c ∧ w.isVisible actor c = true ∧
      c.currentCommit? = some y ∧ b.contains owner = false
  | .notVisibleOrDeleted _ y => ∀ id c, w.changes.get? id = some c → c.dest.project = project →
      (∃ p ∈ c.patchSets, p.commit = y) → w.isVisible actor c = false
  | .pathConflict _ => False
  | .fastForwardRequired => False

/-- The change and the patch set that the check looks at: the owner is seen, `p` is its first patch set
at the commit, and `latest` is its current one. -/
structure Judged (w : World) (actor : AccountId) (project : ProjectName) (y : CommitId)
    (owner : Change) (p latest : PatchSet) : Prop where
  owned : w.owner? project y = some owner
  seen : w.isVisible actor owner = true
  first : owner.patchSetAt? y = some p
  newest : owner.currentPatchSet? = some latest

/-- The check looks at the wrong change for the commit, or at the wrong patch set of it. -/
inductive Misread (w : World) (actor : AccountId) (b : Batch) (project : ProjectName)
    (y : CommitId) : Prop
  /-- The owner is hidden, but another change with a patch set at the commit is seen. -/
  | overlooked {owner c : Change} : w.owner? project y = some owner →
    w.isVisible actor owner = false → c ∈ w.changesAt project y → w.isVisible actor c = true →
    Misread w actor b project y
  /-- The owner is at the commit, where it had been before. -/
  | returned {owner : Change} {p latest : PatchSet} : w.Judged actor project y owner p latest →
    p.number ≠ latest.number → latest.commit = y → Misread w actor b project y
  /-- Two patch sets of the owner have the latest number, and the current one is elsewhere. -/
  | renumbered {owner : Change} {p latest : PatchSet} : w.Judged actor project y owner p latest →
    p.number = latest.number → latest.commit ≠ y → Misread w actor b project y
  /-- The owner is in the batch, as it was at another commit. -/
  | stale {owner : Change} {p latest : PatchSet} : w.Judged actor project y owner p latest →
    p.number = latest.number → b.contains owner.id = true → Misread w actor b project y

theorem dependency?_verdict : (w.verdict actor project own x).dependency? = some (own, x) := by
  unfold verdict Change.verdict
  repeat' split
  all_goals rfl

theorem verdict_of_hidden (howner : w.owner? project y = some owner)
    (hhidden : w.isVisible actor owner = false) :
    w.verdict actor project own y = .notVisibleOrDeleted own y := by
  simp [verdict, Change.verdict, howner, hhidden]

namespace Judged

variable {p latest p' latest' : PatchSet} {owner' : Change} {b : Batch}

theorem verdict_eq (h : w.Judged actor project y owner p latest) :
    w.verdict actor project own y =
      if p.number = latest.number then .notSubmitted own y owner.id
      else .outdatedPatchSet own y owner.id p.number latest.number := by
  simp [verdict, Change.verdict, h.owned, h.seen, h.first, h.newest]

theorem unique (h : w.Judged actor project y owner p latest)
    (h' : w.Judged actor project y owner' p' latest') :
    owner' = owner ∧ p' = p ∧ latest' = latest := by
  obtain rfl := Option.some.inj (h'.owned.symm.trans h.owned)
  exact ⟨rfl, Option.some.inj (h'.first.symm.trans h.first),
    Option.some.inj (h'.newest.symm.trans h.newest)⟩

/-- The owner is stored under its number. -/
theorem recorded (hkeyed : w.Keyed) (h : w.Judged actor project y owner p latest) :
    w.changes.get? owner.id = some owner := by
  obtain ⟨⟨id, hget⟩, -⟩ := mem_changesAt.1 (mem_of_owner? h.owned)
  rw [hkeyed id owner hget]
  exact hget

theorem currentCommit? (h : w.Judged actor project y owner p latest) :
    owner.currentCommit? = some latest.commit := by
  rw [Change.currentCommit?, h.newest]
  rfl

theorem truthful_notSubmitted_iff (hkeyed : w.Keyed)
    (h : w.Judged actor project y owner p latest) :
    w.Truthful actor b project (.notSubmitted own y owner.id) ↔
      latest.commit = y ∧ b.contains owner.id = false := by
  constructor
  · rintro ⟨c, hget, -, hcurrent, hout⟩
    obtain rfl := Option.some.inj (hget.symm.trans (h.recorded hkeyed))
    rw [h.currentCommit?] at hcurrent
    exact ⟨Option.some.inj hcurrent, hout⟩
  · rintro ⟨rfl, hout⟩
    exact ⟨owner, h.recorded hkeyed, h.seen, h.currentCommit?, hout⟩

theorem truthful_outdatedPatchSet_iff (hkeyed : w.Keyed)
    (h : w.Judged actor project y owner p latest) :
    w.Truthful actor b project (.outdatedPatchSet own y owner.id p.number latest.number) ↔
      latest.commit ≠ y := by
  constructor
  · rintro ⟨c, hget, -, -, -, -, hold⟩ rfl
    obtain rfl := Option.some.inj (hget.symm.trans (h.recorded hkeyed))
    exact hold h.currentCommit?
  · intro hold
    obtain ⟨hmem, hat⟩ := Change.mem_of_patchSetAt? h.first
    obtain ⟨hlast, hmax⟩ := PatchSet.latest?_spec h.newest
    refine ⟨owner, h.recorded hkeyed, h.seen, ⟨p, hmem, rfl, hat⟩, ⟨latest, hlast, rfl⟩, hmax, ?_⟩
    rw [h.currentCommit?]
    exact fun heq => hold (Option.some.inj heq)

/-- Where the owner is seen, only three things can go wrong. -/
theorem misread_iff (h : w.Judged actor project y owner p latest) :
    w.Misread actor b project y ↔ (p.number ≠ latest.number ∧ latest.commit = y) ∨
      p.number = latest.number ∧ (latest.commit ≠ y ∨ b.contains owner.id = true) := by
  constructor
  · rintro (⟨howner, hhidden, -, -⟩ | ⟨h', hnumber, hcommit⟩ | ⟨h', hnumber, hcommit⟩ |
      ⟨h', hnumber, hin⟩)
    · cases howner.symm.trans h.owned
      rw [h.seen] at hhidden
      cases hhidden
    · obtain ⟨rfl, rfl, rfl⟩ := h.unique h'
      exact .inl ⟨hnumber, hcommit⟩
    · obtain ⟨rfl, rfl, rfl⟩ := h.unique h'
      exact .inr ⟨hnumber, .inl hcommit⟩
    · obtain ⟨rfl, rfl, rfl⟩ := h.unique h'
      exact .inr ⟨hnumber, .inr hin⟩
  · rintro (⟨hnumber, hcommit⟩ | ⟨hnumber, hcommit | hin⟩)
    · exact .returned h hnumber hcommit
    · exact .renumbered h hnumber hcommit
    · exact .stale h hnumber hin

end Judged

/-- Where the owner is hidden or there is none, saying so is wrong only if another change is seen. -/
theorem truthful_notVisibleOrDeleted_iff {b : Batch}
    (hhidden : ∀ owner, w.owner? project y = some owner → w.isVisible actor owner = false) :
    w.Truthful actor b project (.notVisibleOrDeleted own y) ↔ ¬ w.Misread actor b project y := by
  constructor
  · rintro htrue (⟨-, -, hc, hseen⟩ | ⟨h, -, -⟩ | ⟨h, -, -⟩ | ⟨h, -, -⟩)
    · obtain ⟨⟨id, hget⟩, hproject, hat⟩ := mem_changesAt.1 hc
      rw [htrue id _ hget hproject hat] at hseen
      cases hseen
    all_goals
      have hseen := h.seen
      rw [hhidden _ h.owned] at hseen
      cases hseen
  · intro hright id c hget hproject hat
    have hc : c ∈ w.changesAt project y := mem_changesAt.2 ⟨⟨id, hget⟩, hproject, hat⟩
    cases howner : w.owner? project y with
    | none =>
      rw [owner?_eq_none_iff.1 howner] at hc
      cases hc
    | some owner =>
      by_contra hseen
      exact hright (.overlooked howner (hhidden owner howner) hc (by simpa using hseen))

/-- What is said about a commit is true unless the wrong change is looked at, or the wrong patch set
of it. -/
theorem truthful_verdict_iff (hkeyed : w.Keyed) (b : Batch) :
    w.Truthful actor b project (w.verdict actor project own y) ↔
      ¬ w.Misread actor b project y := by
  by_cases hseen : ∃ owner, w.owner? project y = some owner ∧ w.isVisible actor owner = true
  · obtain ⟨owner, howner, hvisible⟩ := hseen
    obtain ⟨p, latest, hp, hlatest⟩ := exists_patchSets_of_owner? howner
    have h : w.Judged actor project y owner p latest := ⟨howner, hvisible, hp, hlatest⟩
    rw [h.verdict_eq, h.misread_iff]
    by_cases hnumber : p.number = latest.number
    · rw [if_pos hnumber, h.truthful_notSubmitted_iff hkeyed]
      simp [hnumber]
    · rw [if_neg hnumber, h.truthful_outdatedPatchSet_iff hkeyed]
      simp [hnumber]
  · have hhidden : ∀ owner, w.owner? project y = some owner → w.isVisible actor owner = false :=
      fun owner howner => by simpa using fun hvisible => hseen ⟨owner, howner, hvisible⟩
    have hverdict : w.verdict actor project own y = .notVisibleOrDeleted own y := by
      cases howner : w.owner? project y with
      | none => simp [verdict, howner]
      | some owner => exact verdict_of_hidden howner (hhidden owner howner)
    rw [hverdict]
    exact truthful_notVisibleOrDeleted_iff hhidden

/-- A reported problem is the verdict on the first parent that is not met. -/
theorem exists_of_mem_problems {b : Batch} {report : Report}
    (hreply : b.reply (w.obstacle? actor b.commits) = .error (.dependency report)) :
    ∀ p ∈ report.problems, ∃ c ∈ b.changes, ∃ own y, p.change = c.id ∧
      c.currentCommit? = some own ∧ w.Parent [] c.dest.project own y ∧
      ¬ w.DependencyMet c.dest.project b.commits y ∧
      p.obstacle = w.verdict actor c.dest.project own y := by
  intro p hp
  unfold Batch.reply at hreply
  dsimp only at hreply
  split at hreply
  · cases hreply
  · cases hreply
    obtain ⟨c, hc, hfound⟩ := List.mem_filterMap.1 hp
    obtain ⟨o, ho, rfl⟩ := Option.map_eq_some_iff.1 hfound
    obtain ⟨own, hown, hobstacle⟩ := Option.bind_eq_some_iff.1 ho
    obtain ⟨y, hfirst, rfl⟩ := Option.map_eq_some_iff.1 hobstacle
    refine ⟨c, hc, own, y, rfl, hown, (mem_parentsOf (definite_nil w _)).1 ?_, ?_, rfl⟩
    · exact List.mem_of_find?_eq_some hfirst
    · simpa using List.find?_some hfirst

/-- **When reported problems are true.**  Every problem that the check of a batch reports is about an
unmet parent of the current commit of a change in the batch.  What it says about the changes at that
parent is true exactly if neither the wrong change is looked at nor the wrong patch set. -/
theorem reported_truthful_iff (hkeyed : w.Keyed) (hfresh : h.Fresh w) (hbudget : w.reach ≤ h.budget)
    {b : Batch} {report : Report} {h' : History}
    (hresult : Program.result w (Validation.check actor b h) =
      some (.error (.dependency report), h')) :
    ∀ p ∈ report.problems, ∃ c ∈ b.changes, ∃ own y, p.change = c.id ∧
      c.currentCommit? = some own ∧ p.obstacle.dependency? = some (own, y) ∧
      (w.Truthful actor b c.dest.project p.obstacle ↔ ¬ w.Misread actor b c.dest.project y) := by
  obtain ⟨r, h₁, hcheck, hr⟩ := ends_check hfresh hbudget actor b
  rw [hresult] at hcheck
  cases hcheck
  rcases hr with hreply | ⟨⟨e, he⟩, -⟩
  · intro p hp
    obtain ⟨c, hc, own, y, hid, hown, -, -, hverdict⟩ := exists_of_mem_problems hreply.symm p hp
    refine ⟨c, hc, own, y, hid, hown, ?_, ?_⟩
    · rw [hverdict, dependency?_verdict]
    · rw [hverdict]
      exact truthful_verdict_iff hkeyed b
  · cases he

/-- A change is built on a commit that no change of its project has, and the report says so. -/
theorem fork_reported_truthful :
    let w := Sample.fork.world
    let h := History.start w.reach
    let b : Batch := ⟨[⟨Sample.branch "p", [Sample.change 2 "p" Sample.upper], [2]⟩]⟩
    let report : Report := ⟨1, [⟨2, .notVisibleOrDeleted Sample.upper Sample.x⟩]⟩
    w.Keyed ∧ h.Fresh w ∧ w.reach ≤ h.budget ∧
      (∃ h', Program.result w (Validation.check 7 b h) = some (.error (.dependency report), h')) ∧
      ∀ p ∈ report.problems, ∃ c ∈ b.changes, ∃ own y, p.change = c.id ∧
        c.currentCommit? = some own ∧ p.obstacle.dependency? = some (own, y) ∧
        (w.Truthful 7 b c.dest.project p.obstacle ↔ ¬ w.Misread 7 b c.dest.project y) := by
  intro w h b report
  have hfresh : h.Fresh w := History.faithful_start w _
  have hreported : (Program.result w (Validation.check 7 b h)).map (·.1) =
      some (.error (.dependency report)) := by decide
  obtain ⟨⟨r, h'⟩, hresult, rfl⟩ := Option.map_eq_some_iff.1 hreported
  exact ⟨Sample.fork.keyed, hfresh, Nat.le_refl _, ⟨h', hresult⟩,
    reported_truthful_iff Sample.fork.keyed hfresh (Nat.le_refl _) hresult⟩

end World

namespace Sample

/-- A change that was moved from `x` to `y` and back. -/
def wavering : Change :=
  { change 1 "p" x with patchSets := [⟨1, x, 7⟩, ⟨2, y, 7⟩, ⟨3, x, 7⟩] }

/-- Another change is built on the commit to which the first one has come back. -/
def wavered : World :=
  { World.empty with
    projects := Table.ofList [
      ("p", project [second root "x" x, second root "y" y, second x "u" upper])]
    changes := Table.ofList [(1, wavering), (2, change 2 "p" upper)]
    nextId := 3 }

end Sample

namespace World

/-- The first change is reported as outdated at its current commit. -/
theorem current_reported_outdated :
    let w := Sample.wavered
    let b : Batch := ⟨[⟨Sample.branch "p", [Sample.change 2 "p" Sample.upper], [2]⟩]⟩
    let obstacle := Obstacle.outdatedPatchSet Sample.upper Sample.x 1 1 3
    w.Keyed ∧ w.Acyclic ∧ w.ContentAddressed ∧
      (∃ h', Program.result w (Validation.check 7 b (History.start w.reach)) =
        some (.error (.dependency ⟨1, [⟨2, obstacle⟩]⟩), h')) ∧
      Sample.wavering.currentCommit? = some Sample.x ∧ ¬ w.Truthful 7 b "p" obstacle := by
  intro w b obstacle
  have hreported : (Program.result w (Validation.check 7 b (History.start w.reach))).map (·.1) =
      some (.error (.dependency ⟨1, [⟨2, obstacle⟩]⟩)) := by decide
  obtain ⟨⟨r, h'⟩, hresult, rfl⟩ := Option.map_eq_some_iff.1 hreported
  refine ⟨by decide, acyclic_of_rank Sample.rank (by decide),
    contentAddressed_of_named Sample.named (by decide), ⟨h', hresult⟩, by decide, ?_⟩
  rintro ⟨c, hget, -, -, -, -, hold⟩
  have hrecord : w.changes.get? 1 = some Sample.wavering := by decide
  rw [hrecord] at hget
  cases hget
  exact hold (by decide)

end World
end Landing
