import Landing.Proofs.Store.Passing
import Landing.Proofs.Submission.Plan

/-!
# Planning while the world changes

While a submission is planned, others go on, so its questions are answered in
different worlds (`World.Told`).  Commits stay, but branches move.  Since a
planning reads the branches of a project only once, it cannot tell that they have
moved: to the planning it looks as if the present commits stood beside the
branches as it saw them, each project's at its own time (`World.withRefs`).

So everything that is said about plans holds in that world
(`Submission.exists_made`), although it may never have been there.  The changes of a
plan are as the planning was shown them (`Exchange.Shows`).
-/

namespace Landing

/-- The change is shown in the exchange. -/
def Exchange.Shows (x : Exchange) (c : Change) : Prop :=
  match x with
  | ⟨.get _, .ok shown⟩ => shown = some c
  | ⟨.byCommit _ _, .ok shown⟩ => c ∈ shown
  | ⟨.openByTopic _, .ok shown⟩ => c ∈ shown
  | _ => False

namespace World

variable {w w' : World} {x : Exchange} {q : ProjectName} {id : CommitId}

/-- A change that a world shows is as it is recorded there. -/
theorem Keyed.get?_of_shows (hkeyed : w.Keyed) (hanswer : x.answer = (w.answer x.call).1) {c : Change}
    (hc : x.Shows c) : w.changes.get? c.id = some c := by
  obtain ⟨call, r⟩ := x
  change r = (w.answer call).1 at hanswer
  subst hanswer
  cases call with
  | get id =>
    have hget : w.changes.get? id = some c := hc
    rwa [hkeyed id c hget]
  | byCommit q id =>
    have hlisted : c ∈ w.changesAt q id := hc
    exact hkeyed.get?_of_mem (List.mem_filter.1 hlisted).1
  | openByTopic topic =>
    have hlisted : c ∈ w.openOnTopic topic := hc
    exact hkeyed.get?_of_mem (List.mem_filter.1 hlisted).1
  | _ => exact hc.elim

/-- What happens to the world moves no branch, takes nothing away, and closes no circle. -/
structure Quiet (w w' : World) : Prop where
  outlives : w.Outlives w'
  tips : ∀ b, w'.tip? b = w.tip? b
  acyclic : w.Acyclic → w'.Acyclic

/-- A call is answered as the world answers it. -/
theorem isOk_of_answer (hanswer : x.answer = (w.answer x.call).1) {c : StoreCall}
    (hcall : x.call = c) {reply : c.Reply} (hok : (w.answer c).1 = .ok reply) : x.IsOk := by
  obtain ⟨c', r⟩ := x
  cases hcall
  exact ⟨reply, hanswer.trans hok⟩

/-- The exchange was a refusal, or it took place in an earlier world. -/
def Told (w : World) (x : Exchange) : Prop :=
  x.IsOk → ∃ w₀ : World, x.answer = (w₀.answer x.call).1 ∧ (w₀.answer x.call).2.Outlives w

theorem Told.outlives (h : w.Told x) (hw : w.Outlives w') : w'.Told x := by
  intro hok
  obtain ⟨w₀, hanswer, hlater⟩ := h hok
  exact ⟨w₀, hanswer, hlater.trans hw⟩

/-- A commit that was stored then is stored now. -/
theorem Told.stored {d : Draft} (h : w.Told x) (hok : x.IsOk)
    (hcall : x.call = .insertCommit q d) : (w.commit? q d.id).isSome := by
  obtain ⟨w₀, hanswer, hlater⟩ := h hok
  obtain ⟨reply, hreply⟩ := hok
  rw [hcall] at hlater
  rcases w₀.answer_insertCommit q d with ⟨⟨e, hfail⟩, _⟩ | ⟨hdone, hproject⟩
  · rw [← hcall] at hfail
    rw [hanswer, hfail] at hreply
    cases hreply
  · rw [hdone] at hlater
    refine hlater.stored.isSome ?_
    rw [commit?_withCommit hproject]
    simp

theorem readCommit_of_commit? {c : Commit} (hc : w.commit? q id = some c) :
    w.readCommit q id = .ok c := by
  obtain ⟨p, hp, hc⟩ := Option.bind_eq_some_iff.1 hc
  unfold readCommit project?
  rw [hp]
  dsimp only
  rw [hc]

theorem hasProject_of_branches {tips : List (Branch × CommitId)}
    (htips : w.branches q = .ok tips) : w.HasProject q := by
  obtain ⟨p, hp, _⟩ := exists_project_of_branches htips
  rw [HasProject, hp]
  rfl

/-! ### Other refs -/

/-- The world with other refs in its projects. -/
def withRefs (w : World) (refs : ProjectName → Table String CommitId) : World :=
  { w with
    projects := ⟨w.projects.entries.map fun e => (e.1, { e.2 with refs := refs e.1 }), by
      simpa [List.pairwise_map] using w.projects.ascending⟩ }

theorem get?_withRefs (w : World) (refs : ProjectName → Table String CommitId) (q : ProjectName) :
    (w.withRefs refs).projects.get? q =
      (w.projects.get? q).map fun p => { p with refs := refs q } := by
  ext p
  rw [Table.get?_eq_some_iff, Option.map_eq_some_iff]
  constructor
  · intro hmem
    obtain ⟨e, he, heq⟩ := List.mem_map.1 hmem
    cases heq
    exact ⟨e.2, (Table.get?_eq_some_iff ..).2 he, rfl⟩
  · rintro ⟨p', hp', rfl⟩
    exact List.mem_map.2 ⟨(q, p'), (Table.get?_eq_some_iff ..).1 hp', rfl⟩

@[simp] theorem commit?_withRefs (refs : ProjectName → Table String CommitId) :
    (w.withRefs refs).commit? q id = w.commit? q id := by
  unfold commit?
  rw [get?_withRefs]
  cases w.projects.get? q <;> rfl

theorem branches_withRefs (refs : ProjectName → Table String CommitId) (hq : w.HasProject q) :
    (w.withRefs refs).branches q =
      .ok ((refs q).entries.map fun r => (Branch.named q r.1, r.2)) := by
  obtain ⟨p, hp⟩ := Option.isSome_iff_exists.1 hq
  unfold branches project?
  rw [get?_withRefs, hp]
  rfl

end World

namespace Submission

open World

variable {w : World} {policy : Policy} {budget : Nat} {change : ChangeId}
variable {actor : Account} {qs : List Exchange} {p : Plan}

/-- The branches that a planning was told about are those of a table of refs, project by project. -/
theorem exists_refs (hok : ∀ x ∈ qs, x.IsOk) (htold : ∀ x ∈ qs, w.Told x) {h' : History}
    (hread : ∀ project tips, ⟨.branches project, .ok tips⟩ ∈ qs →
      (h'.view project).tips = some tips) (q : ProjectName) :
    ∃ refs : Table String CommitId,
      (∀ tips, ⟨.branches q, .ok tips⟩ ∈ qs →
        tips = refs.entries.map fun r => (Branch.named q r.1, r.2)) ∧
      (refs.entries ≠ [] → ∃ tips, ⟨.branches q, .ok tips⟩ ∈ qs) := by
  by_cases hlisted : ∃ tips, ⟨.branches q, .ok tips⟩ ∈ qs
  · obtain ⟨tips, hmem⟩ := hlisted
    obtain ⟨w₀, hanswer, _⟩ := htold _ hmem (hok _ hmem)
    have hbranches : w₀.branches q = .ok tips := hanswer.symm
    obtain ⟨project, _, htips⟩ := exists_project_of_branches hbranches
    refine ⟨project.refs, fun tips' hmem' => ?_, fun _ => ⟨tips, hmem⟩⟩
    -- The list was read only once.
    have hsame : some tips' = some tips := (hread q tips' hmem').symm.trans (hread q tips hmem)
    rw [Option.some.inj hsame, htips]
  · refine ⟨.empty, fun tips hmem => absurd ⟨tips, hmem⟩ hlisted, fun hne => absurd rfl hne⟩

/-- What was answered earlier is the answer of the present world with its branches as they were told,
except that a change is as it was shown. -/
theorem shows_of_told {refs : ProjectName → Table String CommitId}
    (hrefs : ∀ q tips, ⟨.branches q, .ok tips⟩ ∈ qs →
      tips = (refs q).entries.map fun r => (Branch.named q r.1, r.2))
    {x : Exchange} (hx : x ∈ qs) (htold : w.Told x) (hok : x.IsOk) :
    (w.withRefs refs).Shows (fun c => ∃ x ∈ qs, x.Shows c) x.call x.answer := by
  obtain ⟨w₀, hanswer, hlater⟩ := htold hok
  obtain ⟨c, r⟩ := x
  change r = (w₀.answer c).1 at hanswer
  subst hanswer
  obtain ⟨reply, hreply⟩ := hok
  cases c with
  | commit q id =>
    -- The commit was stored then, so it is stored now.
    have hread : w₀.readCommit q id = .ok reply := hreply
    show (w.withRefs refs).readCommit q id = w₀.readCommit q id
    rw [hread]
    refine readCommit_of_commit? ?_
    rw [commit?_withRefs]
    exact hlater.stored q id reply (commit?_of_readCommit hread)
  | branches q =>
    have hbranches : w₀.branches q = .ok reply := hreply
    show (w.withRefs refs).branches q = w₀.branches q
    rw [hbranches, branches_withRefs refs (hlater.projects q (hasProject_of_branches hbranches)),
      ← hrefs q reply (hbranches ▸ hx)]
  | get id =>
    show (w.withRefs refs).Shows _ (.get id) (.ok (w₀.changes.get? id))
    cases hget : w₀.changes.get? id with
    | none => trivial
    | some c => exact ⟨_, hx, hget⟩
  | byCommit q id =>
    intro c hc
    obtain ⟨_, hproject⟩ := List.mem_filter.1 hc
    rw [Bool.and_eq_true, beq_iff_eq] at hproject
    exact ⟨⟨_, hx, hc⟩, hproject.1⟩
  | openByTopic topic =>
    intro c hc
    obtain ⟨_, hmate⟩ := List.mem_filter.1 hc
    rw [Bool.and_eq_true] at hmate
    exact ⟨⟨_, hx, hc⟩, hmate.1⟩
  | _ => trivial

/-- What a planning heard before it came to a plan. -/
theorem exists_hears_plan
    (hplanned : (withHistory budget (plan policy change actor)).Hears qs (.done (.ok p))) :
    ∃ h', (plan policy change actor (History.start budget)).Hears qs (.done (.ok p, h')) := by
  rcases Program.Hears.bind_cases (p := plan policy change actor (History.start budget))
    hplanned with ⟨rest, _, hdone, hbusy⟩ | ⟨qs, zs, ⟨r, h'⟩, rfl, hasks, hend⟩
  · exact absurd hdone.symm (Program.bind_ne_done hbusy)
  · obtain ⟨rfl, hdone⟩ := hend.of_done
    cases hdone
    rw [List.append_nil]
    exact ⟨h', hasks⟩

/-- A plan that was made while the world changed is a plan of a world with the same commits, where
the branches are as the planning was told. -/
theorem exists_made
    (hplanned : (withHistory budget (plan policy change actor)).Hears qs (.done (.ok p)))
    (htold : ∀ x ∈ qs, w.Told x) :
    ∃ v : World, (∀ q id, v.commit? q id = w.commit? q id) ∧
      p.Made v (fun c => ∃ x ∈ qs, x.Shows c) ∧
      ∀ q tips r, v.branches q = .ok tips → r ∈ tips → ⟨.branches q, .ok tips⟩ ∈ qs := by
  obtain ⟨h', hasks⟩ := exists_hears_plan hplanned
  have hok : ∀ x ∈ qs, x.IsOk := ((isInquiry_plan.inquires _).of_hears hasks).2.2 p h' rfl
  choose refs hrefs hlisted using exists_refs hok htold
    (isInquiry_plan.steady _ _ _ _ hasks).2
  refine ⟨w.withRefs refs, fun q id => commit?_withRefs refs, ?_, ?_⟩
  · exact (yields_plan (hasks.mayCome fun x hx => shows_of_told hrefs hx (htold x hx) (hok x hx))).1
  · intro q tips r htips hr
    -- Branches are listed for a project only if the planning was told so.
    have hproject : w.HasProject q := by
      have hthere := hasProject_of_branches htips
      rw [HasProject, get?_withRefs, Option.isSome_map] at hthere
      exact hthere
    rw [branches_withRefs refs hproject] at htips
    cases htips
    obtain ⟨tips, hmem⟩ := hlisted q fun hnil => by simp [hnil] at hr
    rw [← hrefs q tips hmem]
    exact hmem

end Submission
end Landing
