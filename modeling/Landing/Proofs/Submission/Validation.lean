import Landing.Proofs.Submission.Batch
import Landing.Submission.Validation

/-!
# What a passed check of dependencies means

When the check of a batch passes, every parent of every current commit in the
batch meets one of three conditions: a branch of the project has it, it is among
the current commits of the batch, or it is the current commit of a merged change
of the project (`World.yields_check`).

Only the parents are looked at, not what is behind them.  And the commits of the
batch are compared without regard to the project that they go into.
-/

namespace Landing

open World

namespace World

variable {w : World} {h h' : History} {project : ProjectName} {x : CommitId}

/-- The commit is the current one of a merged change of the project. -/
def MergedAt (w : World) (project : ProjectName) (x : CommitId) : Prop :=
  ∃ id c, w.changes.get? id = some c ∧ c.dest.project = project ∧ c.status = .merged ∧
    c.currentCommit? = some x

/-- A dependency on the commit is met, as far as the check can tell. -/
def DependencyMet (w : World) (project : ProjectName) (batchCommits : List CommitId)
    (x : CommitId) : Prop :=
  w.Accepted project x ∨ x ∈ batchCommits ∨ w.MergedAt project x

variable {P : Change → Prop}

/-- The commit is the current one of a merged change of the project as changes were shown. -/
def MergedShown (P : Change → Prop) (project : ProjectName) (x : CommitId) : Prop :=
  ∃ c, P c ∧ c.dest.project = project ∧ c.status = .merged ∧ c.currentCommit? = some x

/-- A dependency on the commit is met, as far as the check can tell from the changes it was shown. -/
def DependencyShown (w : World) (P : Change → Prop) (project : ProjectName)
    (batchCommits : List CommitId) (x : CommitId) : Prop :=
  w.Accepted project x ∨ x ∈ batchCommits ∨ MergedShown P project x

/-- Where shown changes are records, the check is right about them. -/
theorem DependencyShown.met (hrecorded : ∀ c, P c → w.changes.get? c.id = some c)
    {batchCommits : List CommitId} (h : w.DependencyShown P project batchCommits x) :
    w.DependencyMet project batchCommits x := by
  refine h.imp_right fun h => h.imp_right ?_
  rintro ⟨c, hc, hproject, hmerged, hcurrent⟩
  exact ⟨c.id, c, hrecorded c hc, hproject, hmerged, hcurrent⟩

theorem DependencyShown.mono {Q : Change → Prop} (hPQ : ∀ c, P c → Q c)
    {batchCommits : List CommitId} (h : w.DependencyShown P project batchCommits x) :
    w.DependencyShown Q project batchCommits x := by
  refine h.imp_right fun h => h.imp_right ?_
  rintro ⟨c, hc, hmerged⟩
  exact ⟨c, hPQ c hc, hmerged⟩

/-- When no dependency of a queue turns out to be unmet, all of them are met. -/
theorem yields_firstUnmet {actor : AccountId} {own : CommitId} {batchCommits : List CommitId}
    {seen queue : List CommitId} (hf : h.Fresh w)
    (hseen : ∀ x ∈ seen, w.DependencyShown P project batchCommits x)
    {o : Option Obstacle} (hy : Study.Yields (w.Shows P)
      (Validation.firstUnmet actor project own batchCommits seen queue) h o h') :
    h'.Fresh w ∧ (o = none → ∀ x ∈ queue, w.DependencyShown P project batchCommits x) := by
  induction queue generalizing seen h with
  | nil =>
    obtain ⟨rfl, rfl⟩ := yields_pure.1 hy
    exact ⟨hf, fun _ x hx => absurd hx (by simp)⟩
  | cons c queue ih =>
    -- Once `c` is known to be met, the rest of the queue decides.
    have hgo : ∀ {h}, h.Fresh w → w.DependencyShown P project batchCommits c → Study.Yields (w.Shows P)
          (Validation.firstUnmet actor project own batchCommits (c :: seen) queue) h o h' →
        h'.Fresh w ∧ (o = none → ∀ x ∈ c :: queue, w.DependencyShown P project batchCommits x) := by
      intro h hf hc hrest
      have hseen' : ∀ x ∈ c :: seen, w.DependencyShown P project batchCommits x := by
        intro x hx
        rcases List.mem_cons.1 hx with rfl | hx
        · exact hc
        · exact hseen x hx
      obtain ⟨hf', hall⟩ := ih hf hseen' hrest
      refine ⟨hf', fun hnone x hx => ?_⟩
      rcases List.mem_cons.1 hx with rfl | hx
      · exact hc
      · exact hall hnone x hx
    rw [Validation.firstUnmet] at hy
    split at hy
    · -- What was seen before is met, and so is what belongs to the batch.
      next hknown =>
      refine hgo hf ?_ hy
      rw [Bool.or_eq_true, List.contains_iff_mem, List.contains_iff_mem] at hknown
      rcases hknown with hold | hbatch
      · exact hseen c hold
      · exact .inr (.inl hbatch)
    · simp only [yields_bind, yields_lift] at hy
      obtain ⟨b, h₁, hb, hy⟩ := hy
      obtain ⟨hf₁, hexact⟩ := yields_isAccepted hf (yields_of_shows hb)
      split at hy
      · next htrue => exact hgo hf₁ (.inl ((hexact (settled_nil w _)).1.1 htrue)) hy
      · simp only [yields_bind, yields_planning_ask (c := .byCommit project c)] at hy
        obtain ⟨owners, _, ⟨hanswer, rfl⟩, hy⟩ := hy
        split at hy
        · next hsettles =>
          obtain ⟨owner, howner, hsettled⟩ := List.any_eq_true.1 hsettles
          obtain ⟨hshown, rfl⟩ := hanswer owner howner
          simp only [Validation.settles, Bool.and_eq_true, beq_iff_eq] at hsettled
          exact hgo hf₁ (.inr (.inr ⟨owner, hshown, rfl, hsettled⟩)) hy
        · -- From here on an obstacle is found, so it only matters that no draft is made.
          split at hy
          · obtain ⟨rfl, rfl⟩ := yields_pure.1 hy
            exact ⟨hf₁, fun hnone => by cases hnone⟩
          · next owner _ =>
            obtain ⟨obstacle, hclassify, rfl⟩ := yields_map.1 hy
            refine ⟨?_, fun hnone => by cases hnone⟩
            simp only [Validation.classify, yields_bind,
              yields_planning_ask (c := .isVisible actor owner)] at hclassify
            obtain ⟨visible, _, ⟨_, rfl⟩, hclassify⟩ := hclassify
            split at hclassify
            · split at hclassify
              · split at hclassify
                · exact (yields_pure.1 hclassify).2 ▸ hf₁
                · exact (yields_pure.1 hclassify).2 ▸ hf₁
              · exact (yields_pure.1 hclassify).2 ▸ hf₁
            · exact (yields_pure.1 hclassify).2 ▸ hf₁

/-- A passed check: every parent of every current commit in the batch is met. -/
theorem yields_check {actor : AccountId} {b : Batch} (hf : h.Fresh w) {u : Unit}
    (hy : Study.Yields (w.Shows P) (Validation.check actor b) h u h') :
    h'.Fresh w ∧ ∀ c ∈ b.changes, ∀ own, c.currentCommit? = some own →
      ∀ x, w.Parent [] c.dest.project own x → w.DependencyShown P c.dest.project b.commits x := by
  simp only [Validation.check, yields_bind] at hy
  obtain ⟨found, h₁, hfound, hend⟩ := hy
  obtain ⟨hf₁, hall⟩ := yields_mapM (I := fun h => h.Fresh w)
    (R := fun (c : Change) (p : Option Problem) => p = none →
      ∀ own, c.currentCommit? = some own → ∀ x, w.Parent [] c.dest.project own x →
        w.DependencyShown P c.dest.project b.commits x)
    (fun c _ h p h' hI hp => by
      simp only [Validation.obstacle, yields_bind, yields_pure] at hp
      obtain ⟨o, _, ho, rfl, rfl⟩ := hp
      split at ho
      · next hnone =>
        obtain ⟨rfl, rfl⟩ := yields_pure.1 ho
        refine ⟨hI, fun _ own hown => ?_⟩
        rw [hnone] at hown
        cases hown
      · next own hcurrent =>
        simp only [yields_bind, yields_lift] at ho
        obtain ⟨ps, h₁, hps, ho⟩ := ho
        obtain ⟨hI₁, hparents⟩ := yields_parents hI (yields_of_shows hps)
        obtain ⟨hI', hmet⟩ := yields_firstUnmet hI₁ (by simp) ho
        refine ⟨hI', fun hnone own' hown x hx => ?_⟩
        rw [hcurrent] at hown
        cases hown
        exact hmet (by simpa using hnone) x
          (mem_of_parentsAre (definite_nil w _) hparents hx)) hf hfound
  split at hend
  · next hempty =>
    obtain ⟨_, rfl⟩ := yields_pure.1 hend
    refine ⟨hf₁, fun c hc => ?_⟩
    obtain ⟨p, hp, hmet⟩ := exists_right_of_forall₂ hall hc
    exact hmet (List.filterMap_eq_nil_iff.1 (List.isEmpty_iff.1 hempty) p hp)
  · exact absurd hend yields_throw

end World

/-! ### Owners -/

/-- The change with the lowest number is one of those given. -/
theorem Validation.mem_of_lowest? {l : List Change} {c : Change}
    (hc : Validation.lowest? l = some c) : c ∈ l := by
  cases l with
  | nil => cases hc
  | cons a rest =>
    -- One after another, the best so far is kept or replaced.
    have hfold : ∀ (rest : List Change) (best : Change),
        rest.foldl (fun best o => if o.id < best.id then o else best) best ∈ best :: rest := by
      intro rest
      induction rest with
      | nil => exact fun best => List.mem_singleton_self best
      | cons o rest ih =>
        intro best
        rw [List.foldl_cons]
        rcases List.mem_cons.1 (ih (if o.id < best.id then o else best)) with heq | hmem
        · rw [heq]
          split
          · simp
          · simp
        · simp [hmem]
    cases hc
    exact hfold rest a

/-! ### Checking only asks -/

namespace Validation

open Study

variable {E : Failure → Prop} {actor : AccountId}

theorem isInquiry_classify {commit dependsOn : CommitId} {owner : Change} :
    Study.IsInquiry E (classify actor commit dependsOn owner) := by
  refine (Planning.isInquiry_ask (c := .isVisible actor owner) trivial).bind fun visible => ?_
  split
  · split
    · split
      · exact isInquiry_pure _
      · exact isInquiry_pure _
    · exact isInquiry_pure _
  · exact isInquiry_pure _

theorem isInquiry_firstUnmet {project : ProjectName} {own : CommitId}
    {batchCommits : List CommitId} (seen queue : List CommitId) :
    Study.IsInquiry E (firstUnmet actor project own batchCommits seen queue) := by
  induction queue generalizing seen with
  | nil => exact isInquiry_pure none
  | cons c queue ih =>
    rw [firstUnmet]
    split
    · exact ih _
    · refine (Planning.isInquiry_lift History.isInquiry_isAccepted).bind fun b => ?_
      split
      · exact ih _
      · refine (Planning.isInquiry_ask (c := .byCommit project c) trivial).bind fun owners => ?_
        split
        · exact ih _
        · split
          · exact isInquiry_pure _
          · exact isInquiry_classify.map _

theorem isInquiry_obstacle {batchCommits : List CommitId} {c : Change} :
    Study.IsInquiry E (obstacle actor batchCommits c) := by
  unfold obstacle
  split
  · exact isInquiry_pure none
  · refine (Planning.isInquiry_lift History.isInquiry_parents).bind fun ps => ?_
    exact isInquiry_firstUnmet [] ps

/-- The only failure of its own that checking has is a report. -/
theorem isInquiry_check {b : Batch} (hE : ∀ report, E (.dependency report)) :
    Study.IsInquiry E (check actor b) := by
  refine (isInquiry_mapM fun c _ => isInquiry_obstacle.bind fun o => isInquiry_pure _).bind
    fun found => ?_
  dsimp only
  split
  · exact isInquiry_pure _
  · exact isInquiry_throw (hE _)

end Validation
end Landing
