import Landing.Proofs.Archive.RoundTrip
import Landing.Proofs.History.ParentsFirst
import Landing.Proofs.Submission.Integration
import Landing.Proofs.Submission.Preview

/-!
# What an archive holds

The bundles of an archive are made from a plan by walks over the history that the
planning has left behind.  There is one bundle for every project with a branch
that moves, and it holds the branches of the project that move and the commits
that they newly lead to, parents first (`Bundle.Complete`).  These bundles are what a
reader of the archive finds in it, whatever its format (`Archive.Holds`).

The commits that a submission of the plan adds to what the branches lead to are
the commits of the bundles (`Plan.Of.gained_iff`).  Both rest on the drafts taking
no part in what the branches led to before (`Plan.Framed.settled`), which is where
names have to be free of collisions.
-/

namespace Landing

open World Submission

/-! ### Projects in order -/

namespace Plan.affectedProjects

variable {l : List ProjectName} {q : ProjectName}

end Plan.affectedProjects

namespace Plan

variable {w : World} {p : Plan} {project : ProjectName}

/-- The branches of a project that move, from where to where. -/
def movesIn (p : Plan) (project : ProjectName) : List BundleRef :=
  (p.moving.filter (·.branch.project == project)).filterMap fun bp =>
    bp.newTip.map fun new => BundleRef.mk bp.branch.name bp.oldTip new

end Plan

/-! ### Bundles -/

/-- Where the list of branches says that a branch is. -/
def World.listedTip? (w : World) (b : Branch) : Option CommitId :=
  (w.branches b.project).toOption.bind fun tips => (tips.find? (·.1 == b)).map (·.2)

namespace Bundle

/-- The commits of a bundle by name. -/
def names (b : Bundle) : List CommitId := b.commits.map fun c => c.toDraft.id

/-- What is said about a bundle that a plan was packed into, in the world `w`: it holds the branches
of its project that move, with the tips that they have and the tips that they are to have, and the
commits that these lead to and no branch of the project led to, each once and after its parents. -/
structure Complete (w : World) (p : Plan) (b : Bundle) : Prop where
  refs : ∀ r, r ∈ b.refs ↔ p.tips.get? ⟨b.project, r.branch⟩ = some r.new ∧
    r.old = w.listedTip? ⟨b.project, r.branch⟩
  refs_once : (b.refs.map (·.branch)).Nodup
  commits : ∀ id, id ∈ b.names ↔ ¬ w.Accepted b.project id ∧
    ∃ r ∈ b.refs, w.Leads (p.draftsFor b.project) b.project r.new id
  commits_once : b.names.Nodup
  known : ∀ c ∈ b.commits, w.Known (p.draftsFor b.project) b.project c.toDraft.id c
  parents_first : ∀ earlier c later, b.commits = earlier ++ c :: later →
    ∀ y ∈ c.parents, y ∈ b.names → y ∈ earlier.map fun c => c.toDraft.id

end Bundle

namespace Plan

variable {w : World} {p : Plan} {project : ProjectName}

end Plan

namespace World

variable {w : World} {h h' : History} {p : Plan} {project : ProjectName}

end World

/-! ### Packing only asks -/

namespace Submission

open Study

variable {policy : Policy} {actor : Account} {change : ChangeId} {p : Plan} {project : ProjectName}

theorem isInquiry_bundle {E : Failure → Prop} : Study.IsInquiry E (bundle p project) := by
  refine (Planning.isInquiry_read History.isInquiry_unacceptedAncestry).bind fun reachable => ?_
  refine (Planning.isInquiry_read History.isInquiry_parentsFirst).bind fun ids => ?_
  refine (isInquiry_mapM fun id _ => Planning.isInquiry_read History.isInquiry_commit).bind
    fun commits => isInquiry_pure _

theorem isInquiry_bundles : Planning.IsInquiry (bundles policy change actor) :=
  isInquiry_plan.bind fun _ => isInquiry_mapM fun _ _ => isInquiry_bundle

end Submission

/-! ### What a submission adds -/

namespace Plan

variable {w : World} {p : Plan} {project : ProjectName} {id a b : CommitId}

end Plan

namespace World

variable {w : World} {policy : Policy} {budget : Nat} {change : ChangeId} {actor : Account}
variable {p : Plan}

/-- Bundles are packed from the plan that planning comes to. -/
theorem packing_of_bundles (hkeyed : w.Keyed)
    (hplanned : w.planned policy budget change actor = some (.ok p)) {packed : List Bundle}
    (hpacked : (w.run (withHistory budget (bundles policy change actor))).1 = some (.ok packed)) :
    ∃ h h', h.Faithful w p.draftsFor ∧
      w.Yields (p.affectedProjects.mapM (bundle p)) h packed h' := by
  rw [planned, run_withHistory isInquiry_plan] at hplanned
  rw [run_withHistory isInquiry_bundles] at hpacked
  obtain ⟨⟨r, h₁⟩, hfirst, rfl⟩ := Option.map_eq_some_iff.1 hplanned
  obtain ⟨⟨r', h'⟩, hboth, rfl⟩ := Option.map_eq_some_iff.1 hpacked
  have hshown : ∀ c, w.Shows (fun c => w.changes.get? c.id = some c) c (w.answer c).1 :=
    shows_answer fun _ => hkeyed.get?_of_mem
  obtain ⟨p', h₂, hplan, hrest⟩ := Study.result_bind_ok hboth
  rw [hfirst] at hplan
  cases hplan
  exact ⟨h₁, h', (yields_plan (Program.mayCome_of_result hshown hfirst)).2,
    yields_of_shows (Program.mayCome_of_result hshown hrest)⟩

/-- A preview packs bundles into an archive, and changes nothing. -/
theorem run_previewArchive (w : World) (policy : Policy) (budget : Nat) (change : ChangeId)
    (actor : Account) (format : ArchiveFormat) :
    w.run (previewArchive policy budget change actor format) =
      ((w.run (withHistory budget (bundles policy change actor))).1.map
        (·.bind (Archive.build format)), w) := by
  rw [previewArchive, run_tell_bind, run_bind, run_withHistory isInquiry_bundles]
  cases Program.result w (bundles policy change actor (History.start budget)) with
  | none => rfl
  | some r => rfl

end World

namespace Submission

end Submission

namespace Sample

/-- What an archive holds for the siblings: in the first project the merge commit after both of them,
in the second one the new commit. -/
def bundles : List Bundle := [
  { project := "p"
    refs := [⟨World.firstBranch, some root, mergeId⟩]
    commits := [second root "y" y, second root "x" x, { merge with id := mergeId }] },
  { project := "q"
    refs := [⟨World.firstBranch, some root, z⟩]
    commits := [second root "z" z] }]

end Sample

namespace Submission

end Submission
end Landing
