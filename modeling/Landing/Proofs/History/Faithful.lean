import Landing.Proofs.Ancestry
import Landing.Proofs.Program.Study

/-!
# Histories that tell the truth

A history is faithful to a world when everything that it remembers is so in the
world: the commits that it knows are stored or drafted, the tips are those of the
stores, and as long as the drafts of a project take no part in what its branches
lead to, the accepted commits are exactly those that some branch leads to.

Reading commits and tips keeps a history faithful, and what is read is true.
Drafting is the one step after which a history holds more, and
`World.yields_addDraft` says how much more.
-/

namespace Landing

variable {w : World} {ds : ProjectName → List Draft} {h h' : History}
variable {project : ProjectName} {id : CommitId}

/-- What is known about a project is so in the world. -/
structure ProjectView.Faithful (w : World) (project : ProjectName) (v : ProjectView) : Prop where
  known : ∀ id c, v.commits.get? id = some c → w.Known v.created project id c
  tips : ∀ tips, v.tips = some tips → w.branches project = .ok tips
  accepted : w.Settled v.created project → ∀ ids, v.accepted = some ids →
    ∀ id, (id ∈ ids ↔ w.Accepted project id) ∧ (id ∈ ids → (w.commit? project id).isSome)
  /-- Drafts are made for projects that exist. -/
  housed : v.created ≠ [] → (w.projects.get? project).isSome

/-- The history is faithful to `w`, and `ds` are its drafts. -/
structure History.Faithful (w : World) (ds : ProjectName → List Draft) (h : History) : Prop where
  view : ∀ project, (h.view project).Faithful w project
  drafts : ∀ project, (h.view project).created = ds project

namespace History

theorem faithful_start (w : World) (budget : Nat) : (start budget).Faithful w fun _ => [] where
  view project := by
    refine ⟨?_, ?_, ?_, ?_⟩
    · intro id c hc
      cases hc
    · intro tips htips
      cases htips
    · intro _ ids hids
      cases hids
    · intro hne
      exact absurd rfl hne
  drafts _ := rfl

/-- Replacing a view by a faithful one with the same drafts. -/
theorem Faithful.setView (hf : h.Faithful w ds) {v : ProjectView}
    (hv : v.Faithful w project) (hdrafts : v.created = ds project) :
    (h.setView project v).Faithful w ds where
  view q := by
    rw [view_setView]
    split
    · next hq =>
      rw [hq]
      exact hv
    · exact hf.view q
  drafts q := by
    rw [view_setView]
    split
    · next hq =>
      rw [hq]
      exact hdrafts
    · exact hf.drafts q

/-- Remembering what the store answered. -/
theorem Faithful.remember (hf : h.Faithful w ds) {c : Commit}
    (hc : w.commit? project id = some c) : (h.remember project id c).Faithful w ds := by
  have hv := hf.view project
  refine hf.setView ⟨fun id' c' hget => ?_, hv.tips, hv.accepted, hv.housed⟩ (hf.drafts project)
  rcases Table.get?_insert_cases hget with ⟨rfl, rfl⟩ | hold
  · exact .inl hc
  · exact hv.known id' c' hold

end History

namespace World

/-- A commit that the store gives is stored. -/
theorem commit?_of_readCommit {c : Commit} (hread : w.readCommit project id = .ok c) :
    w.commit? project id = some c := by
  unfold readCommit project? at hread
  unfold commit?
  cases hp : w.projects.get? project with
  | none => simp [hp] at hread
  | some p =>
    cases hget : p.commits.get? id with
    | none => simp [hp, hget] at hread
    | some c' =>
      simp only [hp, hget, Except.ok.injEq] at hread
      simp [hget, hread]

/-- A project with a known commit exists. -/
theorem Known.housed (hf : h.Faithful w ds) {c : Commit}
    (hc : w.Known (ds project) project id c) : (w.projects.get? project).isSome := by
  rcases hc with hstored | ⟨d, hd, _⟩
  · unfold commit? at hstored
    cases hp : w.projects.get? project with
    | none => simp [hp] at hstored
    | some p => rfl
  · refine (hf.view project).housed ?_
    rw [hf.drafts project]
    exact List.ne_nil_of_mem hd

/-- Reading a commit. -/
theorem yields_commit (hf : h.Faithful w ds) {c : Commit}
    (hy : w.Yields (History.commit project id) h c h') :
    h'.Faithful w ds ∧ w.Known (ds project) project id c := by
  simp only [History.commit, yields_bind, yields_get] at hy
  obtain ⟨_, _, ⟨rfl, rfl⟩, hy⟩ := hy
  split at hy
  · next c' hget =>
    obtain ⟨rfl, rfl⟩ := yields_pure.1 hy
    refine ⟨hf, ?_⟩
    rw [← hf.drafts project]
    exact (hf.view project).known id c hget
  · simp only [yields_bind, yields_ask (c := .commit project id), yields_modify,
      yields_pure] at hy
    obtain ⟨c', _, ⟨hread, rfl⟩, _, _, rfl, rfl, rfl⟩ := hy
    have hstored : w.commit? project id = some c := commit?_of_readCommit hread
    exact ⟨hf.remember hstored, .inl hstored⟩

/-- Reading the parents of a commit. -/
theorem yields_parents (hf : h.Faithful w ds) {ps : List CommitId}
    (hy : w.Yields (History.parents project id) h ps h') :
    h'.Faithful w ds ∧ ∃ c, w.Known (ds project) project id c ∧ c.parents = ps := by
  simp only [History.parents, yields_bind, yields_pure] at hy
  obtain ⟨c, _, hc, rfl, rfl⟩ := hy
  obtain ⟨hf', hknown⟩ := yields_commit hf hc
  exact ⟨hf', c, hknown, rfl⟩

/-- Listing the branches. -/
theorem yields_tips (hf : h.Faithful w ds) {tips : List (Branch × CommitId)}
    (hy : w.Yields (History.tips project) h tips h') :
    h'.Faithful w ds ∧ w.branches project = .ok tips := by
  simp only [History.tips, yields_bind, yields_get] at hy
  obtain ⟨_, _, ⟨rfl, rfl⟩, hy⟩ := hy
  have hv := hf.view project
  split at hy
  · next tips' hknown =>
    obtain ⟨rfl, rfl⟩ := yields_pure.1 hy
    exact ⟨hf, hv.tips tips hknown⟩
  · simp only [yields_bind, yields_ask (c := .branches project), yields_modify,
      yields_pure] at hy
    obtain ⟨tips', _, ⟨hread, rfl⟩, _, _, rfl, rfl, rfl⟩ := hy
    refine ⟨hf.setView ⟨hv.known, ?_, hv.accepted, hv.housed⟩ (hf.drafts project), hread⟩
    intro tips' htips
    cases htips
    exact hread

/-- Looking a branch up. -/
theorem yields_tip? (hf : h.Faithful w ds) {branch : Branch} {tip : Option CommitId}
    (hy : w.Yields (History.tip? branch) h tip h') :
    h'.Faithful w ds ∧ ∃ tips, w.branches branch.project = .ok tips ∧
      tip = (tips.find? (·.1 == branch)).map (·.2) := by
  simp only [History.tip?, yields_bind, yields_pure] at hy
  obtain ⟨tips, _, htips, rfl, rfl⟩ := hy
  obtain ⟨hf', hread⟩ := yields_tips hf htips
  exact ⟨hf', tips, hread, rfl⟩

/-- Drafting a commit.  A commit that is known under the name of the draft stays as it is, and
otherwise the draft is added. -/
theorem yields_addDraft (hf : h.Faithful w ds) (hhoused : (w.projects.get? project).isSome)
    {d : Draft} (hy : w.Yields (History.addDraft project d) h id h') :
    ∃ ds', h'.Faithful w ds' ∧ (∀ q, q ≠ project → ds' q = ds q) ∧
      (ds' project = ds project ++ [d] ∨
        ds' project = ds project ∧ ∃ c, w.Known (ds project) project d.id c) := by
  simp only [History.addDraft, yields_bind, yields_modify, yields_pure] at hy
  obtain ⟨_, _, rfl, rfl, rfl⟩ := hy
  have hv := hf.view project
  rw [History.draft]
  split
  · -- What is known under the name, stored or drafted, is left alone.
    next hcontains =>
    obtain ⟨c, hc⟩ := Option.isSome_iff_exists.1 hcontains
    refine ⟨ds, hf, fun _ _ => rfl, .inr ⟨rfl, c, ?_⟩⟩
    rw [← hf.drafts project]
    exact hv.known d.id c hc
  · refine ⟨fun q => if q = project then ds project ++ [d] else ds q, ⟨fun q => ?_, fun q => ?_⟩,
      fun q hq => by simp [hq], .inl (by simp)⟩
    · rw [History.view_setView]
      split
      · next hq =>
        subst hq
        refine ⟨fun id' c' hget => ?_, hv.tips, ?_, fun _ => hhoused⟩
        · rcases Table.get?_insert_cases hget with ⟨rfl, rfl⟩ | hold
          · exact .inr ⟨d, by simp, rfl, rfl⟩
          · exact (hv.known id' c' hold).mono (List.subset_append_left _ _)
        · -- The accepted commits were listed before the draft was made.
          exact fun hsettled => hv.accepted (hsettled.mono (List.subset_append_left _ _))
      · exact hf.view q
    · rw [History.view_setView]
      split
      · simp [hf.drafts project]
      · next hq => simp [hf.drafts q]

end World

/-! ### Reading a history only asks -/

namespace History

open Study

theorem isInquiry_commit : Reading.IsInquiry (commit project id) := by
  refine isInquiry_get.bind fun h => ?_
  split
  · exact isInquiry_pure _
  · refine (Reading.isInquiry_ask (c := .commit project id) trivial).bind fun c => ?_
    refine (isInquiry_modify (f := (·.remember project id c)) fun h => ?_).bind fun _ =>
      isInquiry_pure c
    exact keeps_setView rfl

theorem isInquiry_parents : Reading.IsInquiry (parents project id) :=
  isInquiry_commit.bind fun c => isInquiry_pure c.parents

/-- Tips that are remembered are not read. -/
theorem tips_of_known {h : History} {ts : List (Branch × CommitId)}
    (hts : (h.view project).tips = some ts) : tips project h = .done (.ok ts, h) := by
  rw [tips, Study.get_bind, hts]
  rfl

/-- Tips that are read are remembered. -/
theorem tips_of_unknown {h : History} (hts : (h.view project).tips = none) :
    tips project h = .call (.branches project) fun r => .done (r, r.toOption.elim h fun ts =>
      h.setView project { h.view project with tips := some ts }) := by
  rw [tips, Study.get_bind, hts]
  show Program.call _ _ = Program.call _ _
  congr 1
  funext r
  cases r with
  | ok ts => rfl
  | error e => rfl

/-- Reading the tips once more gives those that are remembered. -/
theorem isInquiry_tips : Reading.IsInquiry (tips project) := by
  constructor
  · intro h
    cases hknown : (h.view project).tips with
    | some ts =>
      rw [tips_of_known hknown]
      intro e he
      cases he
    | none =>
      rw [tips_of_unknown hknown]
      exact ⟨trivial, fun e => ⟨h, rfl⟩, fun a e he => by cases he⟩
  · intro h xs ts h' hheard
    cases hknown : (h.view project).tips with
    | some ts' =>
      rw [tips_of_known hknown] at hheard
      obtain ⟨rfl, hdone⟩ := hheard.of_done
      cases hdone
      exact ⟨.refl h, by simp⟩
    | none =>
      rw [tips_of_unknown hknown] at hheard
      cases hheard with
      | call hrest =>
        obtain ⟨rfl, hdone⟩ := hrest.of_done
        cases hdone
        refine ⟨fun q ts' hts' => ?_, fun q ts' hmem => ?_⟩
        · dsimp only [Except.toOption, Option.elim]
          rw [view_setView, if_neg]
          · exact hts'
          · rintro rfl
            rw [hknown] at hts'
            cases hts'
        · cases List.mem_singleton.1 hmem
          dsimp only [Except.toOption, Option.elim]
          rw [view_setView, if_pos rfl]

theorem isInquiry_tip? {branch : Branch} : Reading.IsInquiry (tip? branch) :=
  isInquiry_tips.bind fun _ => isInquiry_pure _

theorem isInquiry_addDraft {d : Draft} : Reading.IsInquiry (addDraft project d) := by
  refine (isInquiry_modify fun h => ?_).bind fun _ => isInquiry_pure d.id
  unfold draft
  dsimp only
  split
  · exact .refl h
  · exact keeps_setView rfl

end History

end Landing
