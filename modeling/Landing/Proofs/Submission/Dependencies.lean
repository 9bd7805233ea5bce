import Landing.Proofs.Submission.Verdict

/-!
# What a change depends on

The dependencies of a change are met on the way back from its current commit.  The
ways go on behind every commit but those that a branch has and those that go in with the
batch, so they go on behind the commits of merged changes (`World.Dependency`).  A report
ought to name, for every change with an unmet dependency, one of the nearest
(`World.Adequate`).

The check takes the parents of the current commit only.  So it misses the unmet
dependencies of a change whose parents are all met (`World.unmet_behind_merged`), and
`World.report_complete_iff` says that it misses nothing else.  All of them are behind a
merged change that no branch has (`World.Dependency.exists_merged`), so where branches
have all merged changes, reports are complete (`World.check_adequate_of_merged_accepted`).
-/

namespace Landing
namespace World

variable {w : World} {h : History} {project : ProjectName} {batchCommits : List CommitId}
variable {b : Batch} {c : Change} {n : Nat} {x : CommitId}

/-! ### Dependencies -/

/-- The commit is met on the way back from the parents of `own`, `n` parent links behind `own`.  The
ways end at accepted commits and at commits of the batch. -/
inductive Behind (w : World) (project : ProjectName) (batchCommits : List CommitId)
    (own : CommitId) : Nat → CommitId → Prop
  | parent {x : CommitId} : w.Parent [] project own x → Behind w project batchCommits own 1 x
  | step {n : Nat} {x y : CommitId} : Behind w project batchCommits own n x →
    ¬ w.Accepted project x → x ∉ batchCommits → w.Parent [] project x y →
    Behind w project batchCommits own (n + 1) y

theorem Behind.pos {own : CommitId} (h : w.Behind project batchCommits own n x) : 1 ≤ n := by
  cases h with
  | parent => exact Nat.le_refl 1
  | step => exact Nat.le_add_left 1 _

/-- The commit is a dependency of the change, `n` parent links behind its current commit. -/
def Dependency (w : World) (b : Batch) (c : Change) (n : Nat) (x : CommitId) : Prop :=
  ∃ own, c.currentCommit? = some own ∧ w.Behind c.dest.project b.commits own n x

/-- The nearest dependencies are the parents. -/
theorem dependency_one_iff :
    w.Dependency b c 1 x ↔
      ∃ own, c.currentCommit? = some own ∧ w.Parent [] c.dest.project own x := by
  constructor
  · rintro ⟨own, hown, hbehind⟩
    cases hbehind with
    | parent hparent => exact ⟨own, hown, hparent⟩
    | step hbehind => exact absurd hbehind.pos (by omega)
  · rintro ⟨own, hown, hparent⟩
    exact ⟨own, hown, .parent hparent⟩

/-- The commit is a dependency of the change that is not met. -/
def Unmet (w : World) (b : Batch) (c : Change) (n : Nat) (x : CommitId) : Prop :=
  w.Dependency b c n x ∧ ¬ w.DependencyMet c.dest.project b.commits x

/-- An unmet dependency of a change whose parents are met is behind a merged change whose commit no
branch has. -/
theorem Dependency.exists_merged (hx : w.Unmet b c n x) (hparents : ∀ y, ¬ w.Unmet b c 1 y) :
    ∃ m y, m < n ∧ w.Dependency b c m y ∧ w.MergedAt c.dest.project y ∧
      ¬ w.Accepted c.dest.project y := by
  obtain ⟨⟨own, hown, hbehind⟩, hunmet⟩ := hx
  induction hbehind with
  | parent hparent => exact absurd ⟨⟨own, hown, .parent hparent⟩, hunmet⟩ (hparents _)
  | @step n y z hbehind haccepted hout _ ih =>
    by_cases hmet : w.DependencyMet c.dest.project b.commits y
    · have hmerged : w.MergedAt c.dest.project y :=
        (hmet.resolve_left haccepted).resolve_left hout
      exact ⟨n, y, Nat.lt_succ_self n, ⟨own, hown, hbehind⟩, hmerged, haccepted⟩
    · obtain ⟨m, y', hm, hrest⟩ := ih hmet
      exact ⟨m, y', Nat.lt_succ_of_lt hm, hrest⟩

/-! ### Complete reports -/

/-- What ought to be said about a change: nothing if all its dependencies are met, and otherwise one of
the nearest unmet ones is named. -/
def Adequate (w : World) (b : Batch) (c : Change) : Option Obstacle → Prop
  | none => ∀ n x, ¬ w.Unmet b c n x
  | some o => ∃ n own x, c.currentCommit? = some own ∧ o.dependency? = some (own, x) ∧
      w.Unmet b c n x ∧ ∀ m y, w.Unmet b c m y → n ≤ m

/-- If any dependency of the change is not met, then one of the parents of its current commit is
not. -/
def Shallow (w : World) (b : Batch) (c : Change) : Prop :=
  (∃ n x, w.Unmet b c n x) → ∃ x, w.Unmet b c 1 x

/-- Where every merged change is on a branch, a look at the parents is enough. -/
theorem shallow_of_merged_accepted
    (hmerged : ∀ x, w.MergedAt c.dest.project x → w.Accepted c.dest.project x) :
    w.Shallow b c := by
  rintro ⟨n, x, hx⟩
  by_contra hnone
  obtain ⟨-, y, -, -, hy, hnot⟩ := Dependency.exists_merged hx fun y hy => hnone ⟨y, hy⟩
  exact hnot (hmerged y hy)

/-- What is found for a change is right about its parents. -/
theorem obstacle?_cases (w : World) (actor : AccountId) (b : Batch) (c : Change) :
    (w.obstacle? actor b.commits c = none ∧ ∀ x, ¬ w.Unmet b c 1 x) ∨
      ∃ o own x, w.obstacle? actor b.commits c = some o ∧ c.currentCommit? = some own ∧
        o.dependency? = some (own, x) ∧ w.Unmet b c 1 x := by
  cases hobstacle : w.obstacle? actor b.commits c with
  | none =>
    refine .inl ⟨rfl, fun x hx => ?_⟩
    obtain ⟨own, hown, hparent⟩ := dependency_one_iff.1 hx.1
    rw [obstacle?, hown, Option.bind_some, Option.map_eq_none_iff, List.find?_eq_none] at hobstacle
    have hmet := hobstacle x ((mem_parentsOf (definite_nil w _)).2 hparent)
    exact hmet (by simpa using hx.2)
  | some o =>
    obtain ⟨own, hown, hfound⟩ := Option.bind_eq_some_iff.1 hobstacle
    obtain ⟨x, hfirst, rfl⟩ := Option.map_eq_some_iff.1 hfound
    have hparent := (mem_parentsOf (definite_nil w _)).1 (List.mem_of_find?_eq_some hfirst)
    refine .inr ⟨_, own, x, rfl, hown, dependency?_verdict, ?_, ?_⟩
    · exact dependency_one_iff.2 ⟨own, hown, hparent⟩
    · simpa using List.find?_some hfirst

/-- What is found for a change is what ought to be said exactly if a look at the parents is enough. -/
theorem adequate_obstacle?_iff (actor : AccountId) :
    w.Adequate b c (w.obstacle? actor b.commits c) ↔ w.Shallow b c := by
  rcases obstacle?_cases w actor b c with ⟨hnone, hmet⟩ | ⟨o, own, x, hsome, hown, hnames, hx⟩
  · rw [hnone]
    constructor
    · rintro hall ⟨n, x, hx⟩
      exact absurd hx (hall n x)
    · intro hshallow n x hx
      obtain ⟨y, hy⟩ := hshallow ⟨n, x, hx⟩
      exact hmet y hy
  · rw [hsome]
    constructor
    · exact fun _ _ => ⟨x, hx⟩
    · intro _
      refine ⟨1, own, x, hown, hnames, hx, ?_⟩
      rintro m y ⟨⟨_, _, hbehind⟩, -⟩
      exact hbehind.pos

/-- **When a report is complete.**  The check of a batch ends with a report in the order of the batch, at
most one problem a change, or without complaint if there is nothing to report, unless a store call
has failed since something is missing.  What is reported of a change is an unmet parent of its current
commit.  What is said about a change is what ought to be said exactly if no unmet dependency of the
change is hidden behind parents that are met. -/
theorem report_complete_iff (hfresh : h.Fresh w) (hbudget : w.reach ≤ h.budget)
    (actor : AccountId) (b : Batch) :
    ∃ r h', Program.result w (Validation.check actor b h) = some (r, h') ∧
      ((∃ found : Change → Option Obstacle, r = b.reply found ∧ ∀ c ∈ b.changes,
        (∀ o, found c = some o → ∃ own x, c.currentCommit? = some own ∧
          o.dependency? = some (own, x) ∧ w.Unmet b c 1 x) ∧
        (w.Adequate b c (found c) ↔ w.Shallow b c)) ∨
      (∃ e, r = .error (.storage e)) ∧ ¬ w.Checkable b) := by
  obtain ⟨r, h', hresult, hr⟩ := ends_check hfresh hbudget actor b
  refine ⟨r, h', hresult, hr.imp_left fun hreply => ?_⟩
  refine ⟨w.obstacle? actor b.commits, hreply, fun c _ => ⟨fun o ho => ?_, adequate_obstacle?_iff actor⟩⟩
  rcases obstacle?_cases w actor b c with ⟨hnone, -⟩ | ⟨o', own, x, hsome, hrest⟩
  · rw [hnone] at ho
    cases ho
  · rw [hsome] at ho
    cases ho
    exact ⟨own, x, hrest⟩

/-- **Reports are complete where branches have what is merged.**  If every merged change of the project
of a change in the batch is on a branch, then what the check says about each change is what ought to be
said. -/
theorem check_adequate_of_merged_accepted (hfresh : h.Fresh w) (hbudget : w.reach ≤ h.budget)
    (actor : AccountId) (b : Batch)
    (hmerged : ∀ c ∈ b.changes, ∀ x, w.MergedAt c.dest.project x → w.Accepted c.dest.project x) :
    ∃ r h', Program.result w (Validation.check actor b h) = some (r, h') ∧
      ((∃ found : Change → Option Obstacle, r = b.reply found ∧
        ∀ c ∈ b.changes, w.Adequate b c (found c)) ∨
      (∃ e, r = .error (.storage e)) ∧ ¬ w.Checkable b) := by
  obtain ⟨r, h', hresult, hr⟩ := ends_check hfresh hbudget actor b
  refine ⟨r, h', hresult, hr.imp_left fun hreply => ⟨w.obstacle? actor b.commits, hreply, ?_⟩⟩
  exact fun c hc => (adequate_obstacle?_iff actor).2 (shallow_of_merged_accepted (hmerged c hc))

/-- There is nothing to report of the siblings, and no dependency of them is unmet.  A change that is
built on a commit of nobody's is reported for that commit, which is the nearest one. -/
theorem report_complete_samples :
    (let w := Sample.siblings.world
      let h := History.start w.reach
      let b := Sample.siblings.plan.batch
      h.Fresh w ∧ w.reach ≤ h.budget ∧
        (∃ h', Program.result w (Validation.check 7 b h) = some (.ok (), h')) ∧
        ∀ c ∈ b.changes, ∀ n x, ¬ w.Unmet b c n x) ∧
    (let w := Sample.fork.world
      let h := History.start w.reach
      let c := Sample.change 2 "p" Sample.upper
      let b : Batch := ⟨[⟨Sample.branch "p", [c], [2]⟩]⟩
      let o := Obstacle.notVisibleOrDeleted Sample.upper Sample.x
      h.Fresh w ∧ w.reach ≤ h.budget ∧
        (∃ h', Program.result w (Validation.check 7 b h) =
          some (.error (.dependency ⟨1, [⟨2, o⟩]⟩), h')) ∧
        w.Unmet b c 1 Sample.x ∧ w.Adequate b c (some o)) := by
  constructor
  · intro w h b
    have hfresh : h.Fresh w := History.faithful_start w _
    obtain ⟨r, h', hresult, hr⟩ := report_complete_iff hfresh (Nat.le_refl _) 7 b
    have hpassed : (Program.result w (Validation.check 7 b h)).map (·.1) = some (.ok ()) := by
      decide +kernel
    obtain rfl : r = .ok () := by
      rw [hresult] at hpassed
      exact Option.some.inj hpassed
    -- No change was merged yet, so nothing is hidden behind merged changes.
    have hunmerged : ∀ project x, ¬ w.MergedAt project x := by
      rintro project x ⟨id, c, hget, -, hstatus, -⟩
      have hopen : ∀ e ∈ w.changes.entries, e.2.status ≠ .merged := by decide +kernel
      exact hopen (id, c) ((Table.get?_eq_some_iff ..).1 hget) hstatus
    refine ⟨hfresh, Nat.le_refl _, ⟨h', hresult⟩, fun c hc => ?_⟩
    rcases hr with ⟨found, hreply, hfound⟩ | ⟨⟨e, he⟩, -⟩
    · have hadequate := (hfound c hc).2.2
        (shallow_of_merged_accepted fun x hx => absurd hx (hunmerged c.dest.project x))
      rw [Batch.eq_none_of_reply hreply.symm hc] at hadequate
      exact hadequate
    · cases he
  · intro w h c b o
    have hfresh : h.Fresh w := History.faithful_start w _
    obtain ⟨r, h', hresult, hr⟩ := report_complete_iff hfresh (Nat.le_refl _) 7 b
    have hrejected : (Program.result w (Validation.check 7 b h)).map (·.1) =
        some (.error (.dependency ⟨1, [⟨2, o⟩]⟩)) := by
      decide +kernel
    obtain rfl : r = .error (.dependency ⟨1, [⟨2, o⟩]⟩) := by
      rw [hresult] at hrejected
      exact Option.some.inj hrejected
    rcases hr with ⟨found, hreply, hfound⟩ | ⟨⟨e, he⟩, -⟩
    · obtain ⟨hnamed, hadequate⟩ := hfound c List.mem_cons_self
      have hfoundc : found c = some o := by
        cases hobstacle : found c with
        | none => simp [Batch.reply, Batch.changes, b, hobstacle] at hreply
        | some o' =>
          have hsame : 1 = b.size ∧ 2 = c.id ∧ o = o' := by
            simpa [Batch.reply, Batch.changes, b, hobstacle] using hreply
          rw [hsame.2.2]
      obtain ⟨own, x, -, hnames, hunmet⟩ := hnamed o hfoundc
      cases hnames
      rw [hfoundc] at hadequate
      exact ⟨hfresh, Nat.le_refl _, ⟨h', hresult⟩, hunmet, hadequate.2 fun _ => ⟨Sample.x, hunmet⟩⟩
    · cases he

end World

/-! ### A dependency behind a merged change -/

namespace Sample

/-- The name of a commit on top of `upper`. -/
def topmost : CommitId := ⟨0x2773ec2aba5fcab858c2b2545eb261dd579f1119663bbad9c97bd8956cce0f7d#256⟩

/-- The first change was merged at `upper`, and then its branch was put back to the first commit.  The
second change is built on it. -/
def rewound : World :=
  { World.empty with
    projects := Table.ofList [
      ("p", project [second root "x" x, second x "u" upper, second upper "v" topmost])]
    changes := Table.ofList [
      (1, (change 1 "p" upper).markMerged upper 7), (2, change 2 "p" topmost)]
    nextId := 3 }

/-- The second change by itself. -/
def topmostBatch : Batch := ⟨[⟨branch "p", [change 2 "p" topmost], [2]⟩]⟩

theorem rewound_contentAddressed : rewound.ContentAddressed := by
  have hnamed : ∀ c ∈ second upper "v" topmost :: commits, c.toDraft.id = c.id :=
    List.forall_mem_cons.2 ⟨by decide +kernel, named⟩
  exact World.contentAddressed_of_named hnamed (by decide)

end Sample

namespace World

/-- The check has no complaint, although the second change depends on a commit that is on no branch,
is not in the batch and belongs to no change. -/
theorem unmet_behind_merged :
    let w := Sample.rewound
    let b := Sample.topmostBatch
    let c := Sample.change 2 "p" Sample.topmost
    w.Acyclic ∧ w.ContentAddressed ∧ w.Keyed ∧
      (∃ h', Program.result w (Validation.check 7 b (History.start w.reach)) = some (.ok (), h')) ∧
      c ∈ b.changes ∧ w.Unmet b c 2 Sample.x := by
  intro w b c
  have hpassed : (Program.result w (Validation.check 7 b (History.start w.reach))).map (·.1) =
      some (.ok ()) := by decide
  obtain ⟨⟨r, h'⟩, hresult, rfl⟩ := Option.map_eq_some_iff.1 hpassed
  refine ⟨acyclic_of_rank (fun id => if id = Sample.topmost then 3 else Sample.rank id)
      (by decide), Sample.rewound_contentAddressed, by decide, ⟨h', hresult⟩,
    by decide, ?_⟩
  have htop : w.commit? "p" Sample.topmost =
      some (Sample.second Sample.upper "v" Sample.topmost) := by decide
  have hupper : w.commit? "p" Sample.upper = some (Sample.second Sample.x "u" Sample.upper) := by
    decide
  have hroot : w.commit? "p" Sample.root = some Sample.first := by decide
  have htips : w.branches "p" = .ok [(Sample.branch "p", Sample.root)] := by decide
  -- The only branch is at the first commit, which leads to nothing else.
  have haccepted : ∀ id, w.Accepted "p" id → id = Sample.root := by
    intro id haccepted
    obtain ⟨tip, htip, hleads⟩ := (accepted_iff htips).1 haccepted
    obtain rfl : tip = Sample.root := by simpa using htip
    exact hleads.eq_of_no_parents hroot rfl
  refine ⟨⟨Sample.topmost, by decide, ?_⟩, ?_⟩
  · refine .step (.parent ⟨_, known_nil.2 htop, by simp [Sample.second]⟩) (fun hacc => ?_)
      (by decide) ⟨_, known_nil.2 hupper, by simp [Sample.second]⟩
    exact absurd (haccepted _ hacc) (by decide)
  · rintro (hacc | hbatch | ⟨id, c', hget, -, -, hcurrent⟩)
    · exact absurd (haccepted _ hacc) (by decide)
    · exact absurd hbatch (by decide)
    · have hnone : ∀ e ∈ w.changes.entries, e.2.currentCommit? ≠ some Sample.x := by
        decide
      exact hnone (id, c') ((Table.get?_eq_some_iff ..).1 hget) hcurrent

end World
end Landing
