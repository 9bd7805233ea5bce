import Landing.Proofs.Ancestry

/-!
# What orders do to a world

An order either fails and leaves the world as it is, or it has one of three
effects: it adds a commit (`withCommit`), points a branch (`withTip`), or changes
a record (`withChange`).  A world is observed through its commits, its tips, its
change records and the existence of its projects, and every effect touches one of
these only.

The lemmas `answer_insertCommit`, `answer_compareAndSwap`, `answer_markMerged` and
`answer_reopen` say when an order succeeds; there is nothing else that a call can
do (`answer_cases`).
-/

namespace Landing
namespace World

variable {w w' : World} {project q : ProjectName} {d : Draft} {id : CommitId}
variable {b b' : Branch} {tip old : Option CommitId} {number k : ChangeId}

/-- The project exists. -/
def HasProject (w : World) (project : ProjectName) : Prop := (w.projects.get? project).isSome

/-! ### The effects -/

/-- The world with a draft stored; a commit that is stored under its name already stays. -/
def withCommit (w : World) (project : ProjectName) (d : Draft) : World :=
  match w.projects.get? project with
  | some p =>
    if p.commits.contains d.id then w
    else w.setProject project { p with commits := p.commits.insert d.id d.commit }
  | none => w

/-- The world with a branch pointed at a tip, or removed. -/
def withTip (w : World) (b : Branch) (tip : Option CommitId) : World :=
  match w.projects.get? b.project with
  | some p => w.setProject b.project (pointRef p b.name tip)
  | none => w

/-- The world with a change record changed. -/
def withChange (w : World) (number : ChangeId) (f : Change → Change) : World :=
  { w with changes := w.changes.modify number f }

theorem get?_setProject (w : World) (project q : ProjectName) (p : Project) :
    (w.setProject project p).projects.get? q =
      if q = project then some p else w.projects.get? q := by
  unfold setProject
  by_cases hq : q = project
  · subst hq
    simp
  · simp [Table.get?_insert_of_ne _ _ hq, hq]

/-! ### Storing a commit -/

@[simp] theorem tip?_withCommit : (w.withCommit project d).tip? b = w.tip? b := by
  unfold withCommit tip?
  split
  · next p hp =>
    split
    · rfl
    · rw [get?_setProject]
      split
      · next hb => rw [hb, hp]; rfl
      · rfl
  · rfl

@[simp] theorem changes_withCommit : (w.withCommit project d).changes = w.changes := by
  unfold withCommit
  split
  · split
    · rfl
    · rfl
  · rfl

@[simp] theorem hasProject_withCommit :
    (w.withCommit project d).HasProject q ↔ w.HasProject q := by
  unfold withCommit HasProject
  split
  · next p hp =>
    split
    · rfl
    · rw [get?_setProject]
      split
      · next hq => simp [hq, hp]
      · rfl
  · rfl

/-- Storing a draft in an existing project adds the commit unless its name is taken. -/
theorem commit?_withCommit (hproject : w.HasProject project) (q : ProjectName) (id : CommitId) :
    (w.withCommit project d).commit? q id =
      (w.commit? q id).or (if q = project ∧ id = d.id then some d.commit else none) := by
  obtain ⟨p, hp⟩ := Option.isSome_iff_exists.1 hproject
  have hstored : ∀ q, w.commit? q id = (w.projects.get? q).bind fun p => p.commits.get? id :=
    fun _ => rfl
  unfold withCommit
  rw [hp]
  dsimp only
  split
  · -- The name is taken, so the look-up finds what is there.
    next hcontains =>
    by_cases hsame : q = project ∧ id = d.id
    · obtain ⟨rfl, rfl⟩ := hsame
      obtain ⟨c, hc⟩ := Option.isSome_iff_exists.1 hcontains
      simp [commit?, hp, hc]
    · simp [hsame]
  · next hcontains =>
    rw [Table.contains, Bool.not_eq_true, Option.isSome_eq_false_iff, Option.isNone_iff_eq_none]
      at hcontains
    unfold commit?
    rw [get?_setProject]
    by_cases hq : q = project
    · subst hq
      by_cases hid : id = d.id
      · subst hid
        simp [hp, hcontains]
      · simp [hp, hid, Table.get?_insert_of_ne _ _ hid]
    · simp [hq]

/-- What is found after storing a draft was stored before, or it is the commit of the draft, whose name
was free. -/
theorem commit?_withCommit_cases (hproject : w.HasProject project) {q : ProjectName} {id : CommitId}
    {c : Commit} (hc : (w.withCommit project d).commit? q id = some c) :
    w.commit? q id = some c ∨
      w.commit? q id = none ∧ q = project ∧ id = d.id ∧ c = d.commit := by
  rw [commit?_withCommit hproject, Option.or_eq_some_iff] at hc
  refine hc.imp_right fun ⟨hnone, hnew⟩ => ?_
  split at hnew
  · next hsame => exact ⟨hnone, hsame.1, hsame.2, (Option.some.inj hnew).symm⟩
  · cases hnew

/-- Uploading a commit to an existing project stores it. -/
theorem putCommit_eq (hproject : w.HasProject project) :
    w.putCommit project d = .ok (d.commit, w.withCommit project d) := by
  obtain ⟨p, hp⟩ := Option.isSome_iff_exists.1 hproject
  have hid : d.commit.id = d.id := rfl
  unfold putCommit withCommit project?
  simp only [hp, hid]
  split
  · rfl
  · rfl

/-- A commit can be uploaded to an existing project only. -/
theorem eq_of_putCommit {r : Commit × World} (hput : w.putCommit project d = .ok r) :
    w.HasProject project ∧ r = (d.commit, w.withCommit project d) := by
  have hproject : w.HasProject project := by
    unfold HasProject
    cases hp : w.projects.get? project with
    | none => simp [putCommit, project?, hp] at hput
    | some p => rfl
  rw [putCommit_eq hproject] at hput
  exact ⟨hproject, (Except.ok.inj hput).symm⟩

/-- Storing a draft fails only where the project does not exist. -/
theorem answer_insertCommit (w : World) (project : ProjectName) (d : Draft) :
    (∃ e, w.answer (.insertCommit project d) = (.error e, w)) ∧ ¬ w.HasProject project ∨
      w.answer (.insertCommit project d) = (.ok d.id, w.withCommit project d) ∧
        w.HasProject project := by
  unfold HasProject
  cases hp : w.projects.get? project with
  | none =>
    left
    refine ⟨⟨.projectNotFound project, ?_⟩, by simp⟩
    simp only [answer, putCommit, project?, hp, Except.map, settle]
  | some p =>
    right
    refine ⟨?_, rfl⟩
    have hid : d.commit.id = d.id := rfl
    by_cases hcontains : p.commits.contains d.id = true
    · simp only [answer, putCommit, project?, hp, withCommit, hid, hcontains, if_true, Except.map,
        settle]
    · simp only [answer, putCommit, project?, hp, withCommit, hid, hcontains, Bool.false_eq_true,
        if_false, Except.map, settle]

/-! ### Pointing a branch -/

/-- Pointing a branch of an existing project. -/
theorem tip?_withTip (hproject : w.HasProject b.project) (b' : Branch) :
    (w.withTip b tip).tip? b' = if b' = b then tip else w.tip? b' := by
  obtain ⟨p, hp⟩ := Option.isSome_iff_exists.1 hproject
  unfold withTip tip?
  rw [hp]
  dsimp only
  rw [get?_setProject]
  by_cases hq : b'.project = b.project
  · rw [if_pos hq, hq, hp]
    by_cases hname : b'.name = b.name
    · have hb : b' = b := by
        cases b; cases b'
        simp_all
      subst hb
      cases tip with
      | none => simp [pointRef, Table.get?_erase, Std.ReflCmp.compare_self]
      | some t => simp [pointRef]
    · have hb : b' ≠ b := fun heq => hname (by rw [heq])
      have hne : compare b'.name b.name ≠ .eq := fun heq =>
        hname (Std.LawfulEqCmp.eq_of_compare heq)
      cases tip with
      | none => simp [pointRef, Table.get?_erase, hb, hne]
      | some t => simp [pointRef, Table.get?_insert, hb, hne]
  · have hb : b' ≠ b := fun heq => hq (by rw [heq])
    simp [hq, hb]

@[simp] theorem commit?_withTip : (w.withTip b tip).commit? q id = w.commit? q id := by
  unfold withTip commit?
  split
  · next p hp =>
    rw [get?_setProject]
    split
    · next hq =>
      rw [hq, hp]
      cases tip <;> rfl
    · rfl
  · rfl

@[simp] theorem changes_withTip : (w.withTip b tip).changes = w.changes := by
  unfold withTip
  split
  · rfl
  · rfl

@[simp] theorem hasProject_withTip : (w.withTip b tip).HasProject q ↔ w.HasProject q := by
  unfold withTip HasProject
  split
  · next p hp =>
    rw [get?_setProject]
    split
    · next hq => simp [hq, hp]
    · rfl
  · rfl

/-- What a branch has to be like for a swap to succeed. -/
structure Swappable (w : World) (b : Branch) (old tip : Option CommitId) : Prop where
  project : w.HasProject b.project
  expected : w.tip? b = old
  stored : ∀ t, tip = some t → (w.commit? b.project t).isSome

/-- A swap fails exactly where it should, and then changes nothing. -/
theorem answer_compareAndSwap (w : World) (b : Branch) (old tip : Option CommitId) :
    (∃ e, w.answer (.compareAndSwap b old tip) = (.error e, w)) ∧ ¬ w.Swappable b old tip ∨
      w.answer (.compareAndSwap b old tip) = (.ok (), w.withTip b tip) ∧
        w.Swappable b old tip := by
  cases hp : w.projects.get? b.project with
  | none =>
    left
    refine ⟨⟨.projectNotFound b.project, ?_⟩, fun hswap => ?_⟩
    · simp only [answer, compareAndSwap, project?, hp, Except.map, settle]
    · have hproject := hswap.project
      simp [HasProject, hp] at hproject
  | some p =>
    -- The swap compares the tip first and looks for the new commit then.
    have htip : w.tip? b = p.refs.get? b.name := by simp [tip?, hp]
    have hcommit : ∀ t, w.commit? b.project t = p.commits.get? t := by simp [commit?, hp]
    by_cases hexpected : p.refs.get? b.name = old
    · cases tip with
      | none =>
        right
        refine ⟨?_, ?_, htip.trans hexpected, fun t ht => by cases ht⟩
        · simp only [answer, compareAndSwap, project?, hp, withTip, hexpected, ne_eq,
            not_true_eq_false, if_false, Except.map, settle]
        · simp [HasProject, hp]
      | some t =>
        by_cases hstored : p.commits.contains t = true
        · right
          refine ⟨?_, ?_, htip.trans hexpected, fun t' ht => ?_⟩
          · simp only [answer, compareAndSwap, project?, hp, withTip, hexpected, ne_eq,
              not_true_eq_false, if_false, hstored, if_true, Except.map, settle]
          · simp [HasProject, hp]
          · cases ht
            rw [hcommit]
            exact hstored
        · left
          refine ⟨⟨.commitNotFound b.project t, ?_⟩, fun hswap => hstored ?_⟩
          · simp only [answer, compareAndSwap, project?, hp, hexpected, ne_eq,
              not_true_eq_false, if_false, hstored, Except.map, settle]
            rfl
          · have := hswap.stored t rfl
            rwa [hcommit] at this
    · left
      refine ⟨⟨.refConflict b old (p.refs.get? b.name), ?_⟩, fun hswap => hexpected ?_⟩
      · simp only [answer, compareAndSwap, project?, hp, ne_eq, hexpected, not_false_eq_true,
          if_true, Except.map, settle]
      · rw [← htip]
        exact hswap.expected

/-- A branch of an existing project only can be set. -/
theorem eq_withTip_of_setBranch {b : Branch} {tip : CommitId} (h : w.setBranch b tip = .ok w') :
    w.HasProject b.project ∧ w' = w.withTip b (some tip) := by
  unfold setBranch project? at h
  unfold HasProject withTip
  cases hp : w.projects.get? b.project with
  | none => simp [hp] at h
  | some p =>
    rw [hp] at h
    cases h
    exact ⟨rfl, rfl⟩

/-! ### Changing a record -/

@[simp] theorem tip?_withChange {f : Change → Change} :
    (w.withChange number f).tip? b = w.tip? b := rfl

@[simp] theorem commit?_withChange {f : Change → Change} :
    (w.withChange number f).commit? q id = w.commit? q id := rfl

/-- Changing a record changes no other. -/
theorem get?_changes_withChange {f : Change → Change} (k : ChangeId) :
    (w.withChange number f).changes.get? k =
      if k = number then (w.changes.get? number).map f else w.changes.get? k := by
  unfold withChange Table.modify
  dsimp only
  cases hget : w.changes.get? number with
  | none =>
    dsimp only
    split
    · next hk => rw [hk, hget]; rfl
    · rfl
  | some c =>
    dsimp only
    by_cases hk : k = number
    · subst hk
      simp
    · simp [hk, Table.get?_insert_of_ne _ _ hk]

/-- Changing a record fails exactly where there is none. -/
theorem updateChange_cases (w : World) (number : ChangeId) (f : Change → Change) :
    w.updateChange number f = .error (.changeNotFound number) ∧ w.changes.get? number = none ∨
      w.updateChange number f = .ok (w.withChange number f) ∧
        (w.changes.get? number).isSome := by
  unfold updateChange withChange Table.modify
  cases hget : w.changes.get? number with
  | none => exact .inl ⟨rfl, rfl⟩
  | some c => exact .inr ⟨rfl, rfl⟩

/-- A record that there is can be changed, and no other. -/
theorem eq_withChange_of_updateChange {f : Change → Change}
    (hupdate : w.updateChange number f = .ok w') :
    (w.changes.get? number).isSome ∧ w' = w.withChange number f := by
  rcases w.updateChange_cases number f with ⟨hfail, _⟩ | ⟨hok, hsome⟩
  · rw [hfail] at hupdate
    cases hupdate
  · rw [hok] at hupdate
    exact ⟨hsome, (Except.ok.inj hupdate).symm⟩

/-- Recording a merge fails exactly where there is no such change. -/
theorem answer_markMerged (w : World) (number : ChangeId) (t : CommitId) (submitter : AccountId) :
    (∃ e, w.answer (.markMerged number t submitter) = (.error e, w)) ∧
        w.changes.get? number = none ∨
      w.answer (.markMerged number t submitter) =
        (.ok (), w.withChange number (·.markMerged t submitter)) ∧
        (w.changes.get? number).isSome := by
  rcases updateChange_cases w number (·.markMerged t submitter) with ⟨hupdate, hnone⟩ | ⟨hupdate, h⟩
  · exact .inl ⟨⟨_, by simp only [answer, hupdate]; rfl⟩, hnone⟩
  · exact .inr ⟨by simp only [answer, hupdate]; rfl, h⟩

/-- Reopening fails exactly where there is no such change. -/
theorem answer_reopen (w : World) (number : ChangeId) :
    (∃ e, w.answer (.reopen number) = (.error e, w)) ∧ w.changes.get? number = none ∨
      w.answer (.reopen number) = (.ok (), w.withChange number Change.reopen) ∧
        (w.changes.get? number).isSome := by
  rcases updateChange_cases w number Change.reopen with ⟨hupdate, hnone⟩ | ⟨hupdate, h⟩
  · exact .inl ⟨⟨_, by simp only [answer, hupdate]; rfl⟩, hnone⟩
  · exact .inr ⟨by simp only [answer, hupdate]; rfl, h⟩

/-! ### What no call spoils -/

/-- A call leaves the world as it is, or it has one of the effects. -/
theorem answer_cases (w : World) (c : StoreCall) :
    (w.answer c).2 = w ∨
      (∃ project d, c = .insertCommit project d ∧ w.HasProject project ∧
        (w.answer c).2 = w.withCommit project d) ∨
      (∃ b old tip, c = .compareAndSwap b old tip ∧ w.Swappable b old tip ∧
        (w.answer c).2 = w.withTip b tip) ∨
      (∃ number t submitter, c = .markMerged number t submitter ∧
        (w.answer c).2 = w.withChange number (·.markMerged t submitter)) ∨
      ∃ number, c = .reopen number ∧ (w.answer c).2 = w.withChange number Change.reopen := by
  cases c with
  | insertCommit project d =>
    rcases w.answer_insertCommit project d with ⟨⟨e, hfail⟩, _⟩ | ⟨hok, hproject⟩
    · exact .inl (by rw [hfail])
    · exact .inr (.inl ⟨project, d, rfl, hproject, by rw [hok]⟩)
  | compareAndSwap b old tip =>
    rcases w.answer_compareAndSwap b old tip with ⟨⟨e, hfail⟩, _⟩ | ⟨hok, hswap⟩
    · exact .inl (by rw [hfail])
    · exact .inr (.inr (.inl ⟨b, old, tip, rfl, hswap, by rw [hok]⟩))
  | markMerged number t submitter =>
    rcases w.answer_markMerged number t submitter with ⟨⟨e, hfail⟩, _⟩ | ⟨hok, _⟩
    · exact .inl (by rw [hfail])
    · exact .inr (.inr (.inr (.inl ⟨number, t, submitter, rfl, by rw [hok]⟩)))
  | reopen number =>
    rcases w.answer_reopen number with ⟨⟨e, hfail⟩, _⟩ | ⟨hok, _⟩
    · exact .inl (by rw [hfail])
    · exact .inr (.inr (.inr (.inr ⟨number, rfl, by rw [hok]⟩)))
  | _ => exact .inl rfl

/-- A call leaves the records alone, or it records a merge, or it reopens a change. -/
theorem changes_answer (w : World) (c : StoreCall) :
    (w.answer c).2.changes = w.changes ∨
      ∃ number, (∃ t submitter, c = .markMerged number t submitter ∧
        (w.answer c).2 = w.withChange number (·.markMerged t submitter)) ∨
        c = .reopen number ∧ (w.answer c).2 = w.withChange number Change.reopen := by
  rcases w.answer_cases c with hsame | ⟨project, d, _, _, heffect⟩ | ⟨b, old, tip, _, _, heffect⟩ |
    ⟨number, t, submitter, hcall, heffect⟩ | ⟨number, hcall, heffect⟩
  · exact .inl (by rw [hsame])
  · exact .inl (by rw [heffect, changes_withCommit])
  · exact .inl (by rw [heffect, changes_withTip])
  · exact .inr ⟨number, .inl ⟨t, submitter, hcall, heffect⟩⟩
  · exact .inr ⟨number, .inr ⟨hcall, heffect⟩⟩

/-- After a call every record is one from before, or it was merged or reopened just now. -/
theorem get?_changes_answer {c : StoreCall} {change : Change}
    (hget : (w.answer c).2.changes.get? k = some change) :
    w.changes.get? k = some change ∨ ∃ before, w.changes.get? k = some before ∧
      ((∃ t submitter, c = .markMerged k t submitter ∧ change = before.markMerged t submitter) ∨
        c = .reopen k ∧ change = before.reopen) := by
  rcases w.changes_answer c with hsame | ⟨number, ⟨t, submitter, hcall, heffect⟩ | ⟨hcall, heffect⟩⟩
  · rw [hsame] at hget
    exact .inl hget
  · rw [heffect, get?_changes_withChange] at hget
    split at hget
    · next hk =>
      obtain ⟨before, hbefore, rfl⟩ := Option.map_eq_some_iff.1 hget
      exact .inr ⟨before, hk ▸ hbefore, .inl ⟨t, submitter, hk ▸ hcall, rfl⟩⟩
    · exact .inl hget
  · rw [heffect, get?_changes_withChange] at hget
    split at hget
    · next hk =>
      obtain ⟨before, hbefore, rfl⟩ := Option.map_eq_some_iff.1 hget
      exact .inr ⟨before, hk ▸ hbefore, .inr ⟨hk ▸ hcall, rfl⟩⟩
    · exact .inl hget

/-- A call leaves the commits alone, or it stores one. -/
theorem commits_answer (w : World) (c : StoreCall) :
    (∀ q id, (w.answer c).2.commit? q id = w.commit? q id) ∨
      ∃ project d, c = .insertCommit project d ∧ w.HasProject project ∧
        (w.answer c).2 = w.withCommit project d := by
  rcases w.answer_cases c with hsame | hstored | ⟨b, old, tip, _, _, heffect⟩ |
    ⟨number, t, submitter, _, heffect⟩ | ⟨number, _, heffect⟩
  · exact .inl fun q id => by rw [hsame]
  · exact .inr hstored
  · exact .inl fun q id => by rw [heffect, commit?_withTip]
  · exact .inl fun q id => by rw [heffect, commit?_withChange]
  · exact .inl fun q id => by rw [heffect, commit?_withChange]

/-- A call leaves the branches alone, or it moves one. -/
theorem tips_answer (w : World) (c : StoreCall) :
    (∀ b, (w.answer c).2.tip? b = w.tip? b) ∨
      ∃ b old tip, c = .compareAndSwap b old tip ∧ w.Swappable b old tip ∧
        (w.answer c).2 = w.withTip b tip := by
  rcases w.answer_cases c with hsame | ⟨project, d, _, _, heffect⟩ | hmoved |
    ⟨number, t, submitter, _, heffect⟩ | ⟨number, _, heffect⟩
  · exact .inl fun b => by rw [hsame]
  · exact .inl fun b => by rw [heffect, tip?_withCommit]
  · exact .inr hmoved
  · exact .inl fun b => by rw [heffect, tip?_withChange]
  · exact .inl fun b => by rw [heffect, tip?_withChange]

theorem storedIn_answer (w : World) (c : StoreCall) : w.StoredIn (w.answer c).2 := by
  intro q id k hk
  rcases w.commits_answer c with hsame | ⟨project, d, _, hproject, heffect⟩
  · rw [hsame]
    exact hk
  · rw [heffect, commit?_withCommit hproject, hk]
    rfl

theorem ContentAddressed.answer (haddressed : w.ContentAddressed) (c : StoreCall) :
    (w.answer c).2.ContentAddressed := by
  intro q id k hk
  rcases w.commits_answer c with hsame | ⟨project, d, _, hproject, heffect⟩
  · rw [hsame] at hk
    exact haddressed q id k hk
  · rw [heffect] at hk
    rcases commit?_withCommit_cases hproject hk with hold | ⟨_, _, rfl, rfl⟩
    · exact haddressed q id k hold
    · rfl

/-- No call creates or removes a project. -/
theorem hasProject_answer (w : World) (c : StoreCall) :
    (w.answer c).2.HasProject q ↔ w.HasProject q := by
  rcases w.answer_cases c with hsame | ⟨project, d, _, _, heffect⟩ | ⟨b, old, tip, _, _, heffect⟩ |
    ⟨number, t, submitter, _, heffect⟩ | ⟨number, _, heffect⟩
  · rw [hsame]
  · rw [heffect, hasProject_withCommit]
  · rw [heffect, hasProject_withTip]
  · rw [heffect]
    exact Iff.rfl
  · rw [heffect]
    exact Iff.rfl

/-- Changing a record without renumbering it keeps every record under its own number. -/
theorem Keyed.withChange (hkeyed : w.Keyed) {f : Change → Change} (hf : ∀ c, (f c).id = c.id)
    (number : ChangeId) : (w.withChange number f).Keyed := by
  intro id c hget
  rw [get?_changes_withChange] at hget
  split at hget
  · next hid =>
    obtain ⟨before, hbefore, rfl⟩ := Option.map_eq_some_iff.1 hget
    rw [hid]
    exact (hf before).trans (hkeyed number before hbefore)
  · exact hkeyed id c hget

theorem Keyed.answer (hkeyed : w.Keyed) (c : StoreCall) : (w.answer c).2.Keyed := by
  intro id change hget
  rcases get?_changes_answer hget with hold | ⟨before, hbefore, ⟨t, submitter, _, rfl⟩ | ⟨_, rfl⟩⟩
  · exact hkeyed id change hold
  · exact hkeyed id before hbefore
  · exact hkeyed id before hbefore

end World
end Landing
