import Landing.Proofs.Store.Calm

/-!
# What others do to the stores

Others run programs over the stores, submissions among them, create projects,
upload commits, point branches, and add, change or delete change records
(`World.Passes`).  None of this removes a project or a commit, and commits stay
stored under the names of their contents (`World.outlives_of_passes`).
-/

namespace Landing

namespace World

variable {w w' : World} {project q : ProjectName} {ident : Signature}

/-- Something that others do to a world, from its beginning to its end. -/
inductive Passes (w : World) : World → Prop
  /-- A program over the stores, such as a submission. -/
  | runs {α : Type} (p : Program α) : Passes w (w.run p).2
  | creates (project : ProjectName) (ident : Signature) (hfresh : ¬ w.HasProject project) :
    Passes w (w.createProject project ident).2
  | uploads {project : ProjectName} {d : Draft} {r : Commit × World}
    (hput : w.putCommit project d = .ok r) : Passes w r.2
  | points {b : Branch} {tip : CommitId} {w' : World} (hset : w.setBranch b tip = .ok w') :
    Passes w w'
  /-- A new record, or one in place of another. -/
  | records (c : Change) : Passes w (w.insertChange c)
  /-- A new patch set, another branch, another topic, or another status. -/
  | edits {id : ChangeId} {f : Change → Change} {w' : World}
    (hupdate : w.updateChange id f = .ok w') : Passes w w'
  | deletes (id : ChangeId) : Passes w (w.deleteChange id)

/-- What is still so in a later world. -/
structure Outlives (w w' : World) : Prop where
  stored : w.StoredIn w'
  projects : ∀ q, w.HasProject q → w'.HasProject q
  addressed : w.ContentAddressed → w'.ContentAddressed

theorem Outlives.refl (w : World) : w.Outlives w := ⟨.refl w, fun _ h => h, fun h => h⟩

theorem Outlives.trans {w'' : World} (h : w.Outlives w') (h' : w'.Outlives w'') : w.Outlives w'' where
  stored := h.stored.trans h'.stored
  projects q hq := h'.projects q (h.projects q hq)
  addressed ha := h'.addressed (h.addressed ha)

/-- A world with the same projects. -/
theorem outlives_of_projects_eq (hsame : w'.projects = w.projects) : w.Outlives w' := by
  have hcommit : ∀ q id, w'.commit? q id = w.commit? q id := by
    intro q id
    rw [commit?, hsame]
    rfl
  refine ⟨fun q id c hc => ?_, fun q hq => ?_, fun ha q id c hc => ?_⟩
  · rw [hcommit]
    exact hc
  · rw [HasProject, hsame]
    exact hq
  · rw [hcommit] at hc
    exact ha q id c hc

theorem outlives_answer (w : World) (c : StoreCall) : w.Outlives (w.answer c).2 where
  stored := w.storedIn_answer c
  projects _ hq := (w.hasProject_answer c).2 hq
  addressed ha := ha.answer c

theorem commit?_setProject (w : World) (project : ProjectName) (p : Project) (q : ProjectName)
    (id : CommitId) : (w.setProject project p).commit? q id =
      if q = project then p.commits.get? id else w.commit? q id := by
  rw [commit?, get?_setProject]
  split <;> rfl

theorem tip?_setProject (w : World) (project : ProjectName) (p : Project) (b : Branch) :
    (w.setProject project p).tip? b =
      if b.project = project then p.refs.get? b.name else w.tip? b := by
  rw [tip?, get?_setProject]
  split <;> rfl

/-- A new project stands in place of any project of its name. -/
theorem createProject_eq (w : World) (project : ProjectName) (ident : Signature) :
    (w.createProject project ident).2 = w.setProject project
      ⟨Table.empty.insert (rootDraft project ident).commit.id (rootDraft project ident).commit,
        Table.empty.insert firstBranch (rootDraft project ident).commit.id⟩ := rfl

/-- A new project holds its first commit only. -/
theorem commit?_createProject (w : World) (project : ProjectName) (ident : Signature)
    (q : ProjectName) (id : CommitId) : (w.createProject project ident).2.commit? q id =
      if q = project then
        if id = (rootDraft project ident).commit.id then some (rootDraft project ident).commit
        else none
      else w.commit? q id := by
  rw [createProject_eq, commit?_setProject, Table.get?_insert_empty]

/-- The one branch of a new project is at the first commit. -/
theorem tip?_createProject (w : World) (project : ProjectName) (ident : Signature) (b : Branch) :
    (w.createProject project ident).2.tip? b =
      if b.project = project then
        if b.name = firstBranch then some (rootDraft project ident).commit.id else none
      else w.tip? b := by
  rw [createProject_eq, tip?_setProject, Table.get?_insert_empty]

theorem commit?_createProject_cases {w : World} {project : ProjectName} {ident : Signature}
    {q : ProjectName} {id : CommitId} {c : Commit}
    (hc : (w.createProject project ident).2.commit? q id = some c) :
    q = project ∧ id = (rootDraft project ident).commit.id ∧ c = (rootDraft project ident).commit ∨
      w.commit? q id = some c := by
  rw [commit?_createProject] at hc
  split at hc
  · next hq =>
    split at hc
    · next hid => exact .inl ⟨hq, hid, (Option.some.inj hc).symm⟩
    · cases hc
  · exact .inr hc

theorem tip?_createProject_cases {w : World} {project : ProjectName} {ident : Signature} {b : Branch}
    {tip : CommitId} (htip : (w.createProject project ident).2.tip? b = some tip) :
    b.project = project ∧ b.name = firstBranch ∧ tip = (rootDraft project ident).commit.id ∨
      w.tip? b = some tip := by
  rw [tip?_createProject] at htip
  split at htip
  · next hproject =>
    split at htip
    · next hname => exact .inl ⟨hproject, hname, (Option.some.inj htip).symm⟩
    · cases htip
  · exact .inr htip

theorem hasProject_createProject {w : World} {project : ProjectName} (ident : Signature)
    {q : ProjectName} (hq : w.HasProject q) : (w.createProject project ident).2.HasProject q := by
  rw [createProject_eq, HasProject, get?_setProject]
  split
  · rfl
  · exact hq

theorem outlives_createProject (ident : Signature) (hfresh : ¬ w.HasProject project) :
    w.Outlives (w.createProject project ident).2 := by
  have hmissing : w.projects.get? project = none := by simpa [HasProject] using hfresh
  refine ⟨fun q id c hc => ?_, fun q hq => hasProject_createProject ident hq,
    fun ha q id c hc => ?_⟩
  · have hne : q ≠ project := by
      rintro rfl
      simp [commit?, hmissing] at hc
    rw [commit?_createProject, if_neg hne]
    exact hc
  · rcases commit?_createProject_cases hc with ⟨_, rfl, rfl⟩ | hold
    · rfl
    · exact ha q id c hold

theorem Passes.outlives (h : w.Passes w') : w.Outlives w' := by
  cases h with
  | runs p =>
    exact run_keeps (I := w.Outlives) (fun v c hv => hv.trans (outlives_answer v c)) (.refl w) p
  | creates project ident hfresh => exact outlives_createProject ident hfresh
  | @uploads project d r hput =>
    -- Uploading is what the call for it does.
    have hanswer : (w.answer (.insertCommit project d)).2 = r.2 := by
      simp [World.answer, settle, hput, Except.map]
    rw [← hanswer]
    exact outlives_answer w _
  | @points b tip w' hset =>
    obtain ⟨-, rfl⟩ := eq_withTip_of_setBranch hset
    refine ⟨fun q id c hc => ?_, fun _ hq => hasProject_withTip.2 hq, fun ha q id c hc => ?_⟩
    · rwa [commit?_withTip]
    · rw [commit?_withTip] at hc
      exact ha q id c hc
  | records c => exact outlives_of_projects_eq rfl
  | edits hupdate =>
    obtain ⟨-, rfl⟩ := eq_withChange_of_updateChange hupdate
    exact outlives_of_projects_eq rfl
  | deletes id => exact outlives_of_projects_eq rfl

theorem passes_withCommit {project : ProjectName} {d : Draft} (hproject : w.HasProject project) :
    w.Passes (w.withCommit project d) :=
  .uploads (putCommit_eq hproject)

theorem passes_withChange {k : ChangeId} {f : Change → Change} (hk : (w.changes.get? k).isSome) :
    w.Passes (w.withChange k f) := by
  rcases w.updateChange_cases k f with ⟨_, hnone⟩ | ⟨hupdate, _⟩
  · rw [hnone] at hk
    cases hk
  · exact .edits hupdate

/-- Whatever others do one after another. -/
theorem outlives_of_passes (h : Relation.ReflTransGen Passes w w') : w.Outlives w' := by
  induction h with
  | refl => exact .refl w
  | tail _ hpass ih => exact ih.trans hpass.outlives

end World
end Landing
