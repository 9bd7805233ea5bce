import Landing.Proofs.Program.Scope
import Landing.Proofs.Store.Trial

/-!
# Stores with more commits

Two worlds that are alike have the same branches and the same records, and may hold
different commits (`World.Alike`).  When everything that is stored in the first one is
stored in the second one, too, the second one is the first one with commits left over
(`World.Littered`).  Two services are compared with their worlds (`Service.Paired`).

* A question is answered alike, unless the first service misses a commit
  (`Paired.answer_question`).  So a program that only asks, and that does not fail
  with a missing commit, does the same on both (`Paired.run_of_inquires`).
* Orders do not look into commits.  They are carried out alike as long as the first
  service has a commit under every name that a branch is to be pointed at
  (`StoreCall.Sure`, `Paired.answer`).  What a commit says does not matter for this.
  So it is enough to keep account of the names that are taken (`World.Abreast`), and no
  two contents of one name have to be kept apart.
-/

namespace Landing

namespace World

variable {l w w' v : World} {q : ProjectName} {b : Branch} {tip : Option CommitId}

/-- The worlds are the same, except for their commits. -/
structure Alike (w w' : World) : Prop where
  refs : ∀ q, (w'.projects.get? q).map (·.refs) = (w.projects.get? q).map (·.refs)
  changes : w'.changes = w.changes
  nextId : w'.nextId = w.nextId
  hidden : w'.hidden = w.hidden
  accounts : w'.accounts = w.accounts

/-- Every name of a commit in `w` is one in `w'`. -/
def NamedIn (w w' : World) : Prop :=
  ∀ q id, (w.commit? q id).isSome → (w'.commit? q id).isSome

theorem StoredIn.namedIn (h : w.StoredIn w') : w.NamedIn w' := fun _ _ hid => h.isSome hid

theorem Alike.refl (w : World) : w.Alike w := ⟨fun _ => rfl, rfl, rfl, rfl, rfl⟩

theorem Alike.symm (h : w.Alike w') : w'.Alike w :=
  ⟨fun q => (h.refs q).symm, h.changes.symm, h.nextId.symm, h.hidden.symm, h.accounts.symm⟩

theorem Alike.trans (h : w.Alike w') (h' : w'.Alike v) : w.Alike v :=
  ⟨fun q => (h'.refs q).trans (h.refs q), h'.changes.trans h.changes, h'.nextId.trans h.nextId,
    h'.hidden.trans h.hidden, h'.accounts.trans h.accounts⟩

/-- There is no such project in either world, or there is one in both, with the same branches. -/
theorem Alike.project (h : w.Alike w') (q : ProjectName) :
    w.projects.get? q = none ∧ w'.projects.get? q = none ∨
      ∃ p p', w.projects.get? q = some p ∧ w'.projects.get? q = some p' ∧ p'.refs = p.refs := by
  have hrefs := h.refs q
  cases hp : w.projects.get? q with
  | none =>
    rw [hp] at hrefs
    exact .inl ⟨rfl, Option.map_eq_none_iff.1 hrefs⟩
  | some p =>
    rw [hp] at hrefs
    obtain ⟨p', hp', hsame⟩ := Option.map_eq_some_iff.1 hrefs
    exact .inr ⟨p, p', rfl, hp', hsame⟩

theorem Alike.branchTip (h : w.Alike w') (b : Branch) : w'.branchTip b = w.branchTip b := by
  rcases h.project b.project with ⟨hp, hp'⟩ | ⟨p, p', hp, hp', hsame⟩
  · simp only [World.branchTip, project?, hp, hp']
  · simp only [World.branchTip, project?, hp, hp', Except.map, hsame]

/-- The second world has all that is stored in the first one, and it may have more commits. -/
structure Littered (w w' : World) : Prop extends Alike w w' where
  stored : w.StoredIn w'

/-! ### Questions -/

/-- A question is answered alike, unless a commit is missing. -/
theorem Littered.answer_question (h : w.Littered w') {c : StoreCall} (hc : c.IsQuestion) :
    (w'.answer c).1 = (w.answer c).1 ∨ ∃ q id, (w.answer c).1 = .error (.commitNotFound q id) := by
  cases c with
  | commit q id =>
    change w'.readCommit q id = w.readCommit q id ∨ ∃ q' id', w.readCommit q id = _
    rcases h.project q with ⟨hp, hp'⟩ | ⟨p, p', hp, hp', _⟩
    · exact .inl (by simp only [readCommit, project?, hp, hp'])
    · cases hget : p.commits.get? id with
      | none => exact .inr ⟨q, id, by simp only [readCommit, project?, hp, hget]⟩
      | some k =>
        have hk : w'.commit? q id = some k := h.stored q id k (by simp [commit?, hp, hget])
        have hget' : p'.commits.get? id = some k := by simpa [commit?, hp'] using hk
        exact .inl (by simp only [readCommit, project?, hp, hp', hget, hget'])
  | branches q =>
    left
    change w'.branches q = w.branches q
    rcases h.project q with ⟨hp, hp'⟩ | ⟨p, p', hp, hp', hsame⟩
    · simp only [branches, project?, hp, hp']
    · simp only [branches, project?, hp, hp', hsame, Except.map]
  | get id =>
    left
    change Except.ok (w'.changes.get? id) = Except.ok (w.changes.get? id)
    rw [h.changes]
  | byCommit q id =>
    left
    change Except.ok (w'.changesAt q id) = Except.ok (w.changesAt q id)
    rw [changesAt, h.changes]
    rfl
  | openByTopic topic =>
    left
    change Except.ok (w'.openOnTopic topic) = Except.ok (w.openOnTopic topic)
    rw [openOnTopic, h.changes]
    rfl
  | isVisible actor change =>
    left
    change Except.ok (w'.isVisible actor change) = Except.ok (w.isVisible actor change)
    simp only [isVisible, canRead, h.hidden]
  | _ => exact hc.elim

/-! ### Orders -/

/-- Storing a commit leaves all but the commits as they are. -/
theorem alike_withCommit (w : World) (q : ProjectName) (d : Draft) : w.Alike (w.withCommit q d) := by
  unfold withCommit
  split
  · next p hp =>
    split
    · exact .refl w
    · refine ⟨fun r => ?_, rfl, rfl, rfl, rfl⟩
      rw [get?_setProject]
      split
      · next hr => rw [hr, hp]; rfl
      · rfl
  · exact .refl w

theorem Alike.withTip (h : w.Alike w') (b : Branch) (tip : Option CommitId) :
    (w.withTip b tip).Alike (w'.withTip b tip) := by
  unfold World.withTip
  rcases h.project b.project with ⟨hp, hp'⟩ | ⟨p, p', hp, hp', hsame⟩
  · rw [hp, hp']
    exact h
  · rw [hp, hp']
    refine { h with refs := fun r => ?_ }
    rw [get?_setProject, get?_setProject]
    split
    · cases tip with
      | none => simp only [Option.map_some, pointRef, hsame]
      | some t => simp only [Option.map_some, pointRef, hsame]
    · exact h.refs r

theorem Alike.withChange (h : w.Alike w') (k : ChangeId) (f : Change → Change) :
    (w.withChange k f).Alike (w'.withChange k f) :=
  { h with changes := congrArg (Table.modify · k f) h.changes }

/-- Storing a commit leaves one over. -/
theorem littered_withCommit (hproject : w.HasProject q) (d : Draft) :
    w.Littered (w.withCommit q d) where
  toAlike := alike_withCommit w q d
  stored r id c hc := by
    rw [commit?_withCommit hproject, hc]
    rfl

/-- The worlds are alike, and the second one has commits under the names that are taken in the first
one, and under those that are taken in `l`. -/
structure Abreast (l w w' : World) : Prop extends Alike w w' where
  names : ∀ q id, (w'.commit? q id).isSome ↔ (w.commit? q id).isSome ∨ (l.commit? q id).isSome

theorem Abreast.namedIn (h : Abreast l w w') : w.NamedIn w' :=
  fun q id hid => (h.names q id).2 (.inl hid)

/-- What is left over is in the second world. -/
theorem Littered.abreast (h : w.Littered w') : Abreast w' w w' where
  toAlike := h.toAlike
  names _ _ := ⟨.inr, fun hid => hid.elim h.stored.isSome id⟩

theorem Abreast.withCommit (h : Abreast l w w') (hproject : w.HasProject q)
    (hproject' : w'.HasProject q) (d : Draft) :
    Abreast l (w.withCommit q d) (w'.withCommit q d) where
  toAlike := ((alike_withCommit w q d).symm.trans h.toAlike).trans (alike_withCommit w' q d)
  names r id := by
    rw [commit?_withCommit hproject', commit?_withCommit hproject, Option.isSome_or,
      Option.isSome_or, Bool.or_eq_true, Bool.or_eq_true, h.names, or_right_comm]

theorem Abreast.withTip (h : Abreast l w w') (b : Branch) (tip : Option CommitId) :
    Abreast l (w.withTip b tip) (w'.withTip b tip) where
  toAlike := h.toAlike.withTip b tip
  names q id := by
    rw [commit?_withTip, commit?_withTip]
    exact h.names q id

theorem Abreast.withChange (h : Abreast l w w') (k : ChangeId) (f : Change → Change) :
    Abreast l (w.withChange k f) (w'.withChange k f) where
  toAlike := h.toAlike.withChange k f
  names := h.names

/-- Two orders fail alike, or they lead to worlds that are abreast. -/
def EndAbreast (l : World) (x x' : Except StoreError World) : Prop :=
  (∃ e, x = .error e ∧ x' = .error e) ∨ ∃ v v', x = .ok v ∧ x' = .ok v' ∧ Abreast l v v'

/-- A swap succeeds when the branch is where it is expected and the new commit is there. -/
theorem compareAndSwap_eq {p : Project} {old : Option CommitId}
    (hp : w.projects.get? b.project = some p) (hexpected : p.refs.get? b.name = old)
    (hstored : ∀ t, tip = some t → (w.commit? b.project t).isSome) :
    w.compareAndSwap b old tip = .ok (w.withTip b tip) := by
  cases tip with
  | none =>
    simp only [compareAndSwap, project?, hp, withTip, hexpected, ne_eq, not_true_eq_false, if_false]
  | some t =>
    have hcontains : p.commits.contains t = true := by
      simpa [commit?, hp, Table.contains] using hstored t rfl
    simp only [compareAndSwap, project?, hp, withTip, hexpected, ne_eq, not_true_eq_false, if_false,
      hcontains, if_true]

/-- A branch is moved alike, if it is moved to a commit that is there. -/
theorem Abreast.compareAndSwap (h : Abreast l w w') {old : Option CommitId}
    (hstored : ∀ t, tip = some t → (w.commit? b.project t).isSome) :
    EndAbreast l (w.compareAndSwap b old tip) (w'.compareAndSwap b old tip) := by
  rcases h.project b.project with ⟨hp, hp'⟩ | ⟨p, p', hp, hp', hsame⟩
  · refine .inl ⟨.projectNotFound b.project, ?_, ?_⟩
    · simp only [World.compareAndSwap, project?, hp]
    · simp only [World.compareAndSwap, project?, hp']
  · by_cases hexpected : p.refs.get? b.name = old
    · refine .inr ⟨w.withTip b tip, w'.withTip b tip, compareAndSwap_eq hp hexpected hstored,
        compareAndSwap_eq hp' ?_ fun t ht => h.namedIn b.project t (hstored t ht), h.withTip b tip⟩
      rw [hsame, hexpected]
    · refine .inl ⟨.refConflict b old (p.refs.get? b.name), ?_, ?_⟩
      · simp only [World.compareAndSwap, project?, hp, ne_eq, hexpected, not_false_eq_true, if_true]
      · simp only [World.compareAndSwap, project?, hp', hsame, ne_eq, hexpected, not_false_eq_true,
          if_true]

/-- A record is changed alike. -/
theorem Abreast.updateChange (h : Abreast l w w') (k : ChangeId) (f : Change → Change) :
    EndAbreast l (w.updateChange k f) (w'.updateChange k f) := by
  rcases w.updateChange_cases k f with ⟨hfail, hnone⟩ | ⟨hok, hsome⟩
  · refine .inl ⟨.changeNotFound k, hfail, ?_⟩
    rw [← h.changes] at hnone
    simp only [World.updateChange, hnone]
  · refine .inr ⟨_, _, hok, ?_, h.withChange k f⟩
    rw [← h.changes] at hsome
    exact ((w'.updateChange_cases k f).resolve_left fun hfail => by simp [hfail.2] at hsome).1

end World

/-- The call is an order, and if it points a branch at a commit, there is one of that name in `w`. -/
def StoreCall.Sure (w : World) : StoreCall → Prop
  | insertCommit .. => True
  | compareAndSwap b _ tip => ∀ t, tip = some t → (w.commit? b.project t).isSome
  | markMerged .. => True
  | reopen .. => True
  | _ => False

theorem StoreCall.Sure.mono {w w' : World} (h : w.NamedIn w') {c : StoreCall} (hc : c.Sure w) :
    c.Sure w' := by
  cases c with
  | compareAndSwap b old tip => exact fun t ht => h b.project t (hc t ht)
  | insertCommit => trivial
  | markMerged => trivial
  | reopen => trivial
  | _ => exact hc.elim

namespace World

variable {l w w' : World}

/-- An order is carried out alike. -/
theorem Abreast.answer (h : Abreast l w w') {c : StoreCall} (hc : c.Sure w) :
    (w'.answer c).1 = (w.answer c).1 ∧ Abreast l (w.answer c).2 (w'.answer c).2 := by
  have hsettle : ∀ {x x' : Except StoreError World}, EndAbreast l x x' →
      (w'.settle (x'.map fun v => ((), v))).1 = (w.settle (x.map fun v => ((), v))).1 ∧
        Abreast l (w.settle (x.map fun v => ((), v))).2
          (w'.settle (x'.map fun v => ((), v))).2 := by
    rintro _ _ (⟨e, rfl, rfl⟩ | ⟨v, v', rfl, rfl, hv⟩)
    · exact ⟨rfl, h⟩
    · exact ⟨rfl, hv⟩
  cases c with
  | insertCommit q d =>
    rcases h.project q with ⟨hp, hp'⟩ | ⟨p, p', hp, hp', _⟩
    · simp only [World.answer, putCommit, project?, hp, hp', Except.map, settle]
      exact ⟨trivial, h⟩
    · have hproject : w.HasProject q := by rw [HasProject, hp]; rfl
      have hproject' : w'.HasProject q := by rw [HasProject, hp']; rfl
      obtain ⟨hok, _⟩ := (w.answer_insertCommit q d).resolve_left fun hfail => hfail.2 hproject
      obtain ⟨hok', _⟩ := (w'.answer_insertCommit q d).resolve_left fun hfail => hfail.2 hproject'
      rw [hok, hok']
      exact ⟨rfl, h.withCommit hproject hproject' d⟩
  | compareAndSwap b old tip => exact hsettle (h.compareAndSwap hc)
  | markMerged k tip submitter => exact hsettle (h.updateChange k _)
  | reopen k => exact hsettle (h.updateChange k _)
  | _ => exact hc.elim

/-- An interference takes place alike, if it points its branch at a commit that is there. -/
theorem Abreast.interfere (h : Abreast l w w') {i : Interference}
    (hstored : (w.commit? i.branch.project i.tip).isSome) :
    EndAbreast l (Backend.interfere w i) (Backend.interfere w' i) := by
  unfold Backend.interfere
  rw [h.branchTip]
  cases w.branchTip i.branch with
  | error e => exact .inl ⟨e, rfl, rfl⟩
  | ok current =>
    change EndAbreast l (w.compareAndSwap i.branch current (some i.tip))
      (w'.compareAndSwap i.branch current (some i.tip))
    refine h.compareAndSwap fun t ht => ?_
    cases ht
    exact hstored

/-- No commit is gone after an interference. -/
theorem storedIn_interfere {v : World} {i : Interference} (hmove : Backend.interfere w i = .ok v) :
    w.StoredIn v := by
  rcases Trial.interfere_cases w i with ⟨e, hfail⟩ | ⟨hmoved, _⟩
  · rw [hmove] at hfail
    cases hfail
  · rw [hmove] at hmoved
    cases hmoved
    intro q id c hc
    rw [commit?_withTip]
    exact hc

end World

/-! ### Services -/

namespace Service

variable {R : World → World → Prop} {s s' t : Service} {c : StoreCall} {l : World}

/-- An interference that is to come points its branch at a commit that is there. -/
def Armed (s : Service) : Prop :=
  ∀ i, s.backend.interference = some i → (s.world.commit? i.branch.project i.tip).isSome

/-- The services have the same trouble arranged and the same observers, and their worlds are as `R`
says.  An interference that is to come is possible in both. -/
structure Paired (R : World → World → Prop) (s s' : Service) : Prop where
  world : R s.world s'.world
  armed : s.Armed
  interference : s'.backend.interference = s.backend.interference
  faults : s'.backend.faults = s.backend.faults
  recorded : s'.recorded = s.recorded
  bus : s'.bus = s.bus
  log : s'.log = s.log
  metrics : s'.metrics = s.metrics

/-- Another world instead of that of a service. -/
theorem paired_withWorld {w : World} (harmed : s.Armed) (hworld : R s.world w) :
    Paired R s (s.withWorld w) :=
  ⟨hworld, harmed, rfl, rfl, rfl, rfl, rfl, rfl⟩

theorem world_note (s : Service) (g : Signal) : (s.note g).world = s.world :=
  congrArg Backend.world (backend_note s g)

/-- Observers take note alike. -/
theorem Paired.note (h : Paired R s s') (g : Signal) : Paired R (s.note g) (s'.note g) := by
  obtain ⟨backend, _, _, _, _⟩ := s
  obtain ⟨backend', recorded, bus, log, metrics⟩ := s'
  obtain ⟨hworld, harmed, hinterference, hfaults, rfl, rfl, rfl, rfl⟩ := h
  unfold Service.note deliver
  cases g.event? with
  | none => exact ⟨hworld, harmed, hinterference, hfaults, rfl, rfl, rfl, rfl⟩
  | some e => exact ⟨hworld, harmed, hinterference, hfaults, rfl, rfl, rfl, rfl⟩

/-- A call that swaps no branch is struck by a fault, or the world answers it. -/
theorem answer_cases (s : Service) (hc : Backend.swapped? c = none) :
    (∃ detail faults, Fault.strike c.name s.backend.faults = (some detail, faults) ∧
      s.answer c = (.error (.backend detail), { s with backend := { s.backend with faults } })) ∨
    ∃ faults, Fault.strike c.name s.backend.faults = (none, faults) ∧
      s.answer c = ((s.world.answer c).1,
        { s with backend := { s.backend with world := (s.world.answer c).2, faults } }) := by
  cases hstrike : Fault.strike c.name s.backend.faults with
  | mk struck faults =>
    cases struck with
    | some detail =>
      refine .inl ⟨detail, faults, rfl, ?_⟩
      simp only [answer, Backend.answer, hstrike]
    | none =>
      refine .inr ⟨faults, rfl, ?_⟩
      have hcalm : Backend.triggered? { s.backend with faults } c = none := by
        simp [Backend.triggered?, hc]
      simp only [answer, Backend.answer, hstrike, Backend.answerDisturbed, hcalm]
      rfl

/-- A question is answered alike, unless the first service misses a commit. -/
theorem Paired.answer_question (h : Paired World.Littered s s') (hc : c.IsQuestion) :
    Paired World.Littered (s.answer c).2 (s'.answer c).2 ∧ (s.answer c).2.world = s.world ∧
      ((∃ e, (s.answer c).1 = .error e ∧ (s'.answer c).1 = .error e) ∨
        ((s.answer c).1 = (s.world.answer c).1 ∧ (s'.answer c).1 = (s.world.answer c).1) ∨
        ∃ q id, (s.world.answer c).1 = .error (.commitNotFound q id)) := by
  have hswapped : Backend.swapped? c = none := by
    cases c with
    | compareAndSwap => exact hc.elim
    | _ => rfl
  -- Only the faults that are left may change.
  have hkept : ∀ faults, Paired World.Littered { s with backend := { s.backend with faults } }
      { s' with backend := { s'.backend with faults } } := fun faults =>
    { h with faults := rfl }
  rcases s.answer_cases hswapped with ⟨detail, faults, hstrike, hanswer⟩ | ⟨faults, hstrike, hanswer⟩
  · rcases s'.answer_cases hswapped with ⟨_, _, hstrike', hanswer'⟩ | ⟨_, hstrike', _⟩
    · rw [h.faults, hstrike] at hstrike'
      cases hstrike'
      rw [hanswer, hanswer']
      exact ⟨hkept faults, rfl, .inl ⟨_, rfl, rfl⟩⟩
    · rw [h.faults, hstrike] at hstrike'
      cases hstrike'
  · rcases s'.answer_cases hswapped with ⟨_, _, hstrike', _⟩ | ⟨_, hstrike', hanswer'⟩
    · rw [h.faults, hstrike] at hstrike'
      cases hstrike'
    · rw [h.faults, hstrike] at hstrike'
      cases hstrike'
      rw [hanswer, hanswer', s.world.answer_question hc, s'.world.answer_question hc]
      refine ⟨hkept faults, rfl, .inr ?_⟩
      rcases h.world.answer_question hc with hsame | hmissing
      · exact .inl ⟨rfl, hsame⟩
      · exact .inr hmissing

/-! ### What runs keep -/

/-- No commit is gone, and no interference is to come that was not to come before. -/
structure Keeps (s t : Service) : Prop where
  stored : s.world.StoredIn t.world
  interference : ∀ i, t.backend.interference = some i → s.backend.interference = some i

theorem Keeps.refl (s : Service) : s.Keeps s := ⟨.refl s.world, fun _ h => h⟩

theorem Keeps.trans {r : Service} (h : r.Keeps s) (h' : s.Keeps t) : r.Keeps t :=
  ⟨h.stored.trans h'.stored, fun i hi => h.interference i (h'.interference i hi)⟩

theorem Keeps.armed (h : s.Keeps t) (harmed : s.Armed) : t.Armed :=
  fun i hi => h.stored.isSome (harmed i (h.interference i hi))

theorem keeps_answer (s : Service) (c : StoreCall) : s.Keeps (s.answer c).2 := by
  obtain ⟨⟨w, interference, faults⟩, recorded, bus, log, metrics⟩ := s
  unfold answer Backend.answer
  dsimp only
  split
  · exact ⟨.refl w, fun _ h => h⟩
  · next rest _ =>
    unfold Backend.answerDisturbed
    split
    · exact ⟨w.storedIn_answer c, fun _ h => h⟩
    · next i _ =>
      -- The interference is used up, whether it fails or not.
      dsimp only
      cases hmove : Backend.interfere w i with
      | error e => exact ⟨.refl w, nofun⟩
      | ok v => exact ⟨(World.storedIn_interfere hmove).trans (v.storedIn_answer c), nofun⟩

theorem keeps_run {α : Type} (s : Service) (p : Program α) : s.Keeps (s.run p).2 := by
  induction p generalizing s with
  | done a => exact .refl s
  | exhausted => exact .refl s
  | signal g next ih =>
    have hnote : s.Keeps (s.note g) := by
      refine ⟨?_, ?_⟩
      · rw [world_note]
        exact .refl s.world
      · rw [backend_note]
        exact fun _ h => h
    exact hnote.trans (ih (s.note g))
  | call c next ih => exact (s.keeps_answer c).trans (ih (s.answer c).1 (s.answer c).2)

theorem keeps_of_run {α : Type} {p : Program α} {r : Option α} (hrun : s.run p = (r, t)) :
    s.Keeps t := by
  have hkept := s.keeps_run p
  rwa [hrun] at hkept

/-- An order is carried out alike. -/
theorem Paired.answer (h : Paired (World.Abreast l) s s') (hc : c.Sure s.world) :
    (s'.answer c).1 = (s.answer c).1 ∧ Paired (World.Abreast l) (s.answer c).2 (s'.answer c).2 := by
  suffices hrest : (s'.answer c).1 = (s.answer c).1 ∧
      ((s.answer c).2.Armed → Paired (World.Abreast l) (s.answer c).2 (s'.answer c).2) from
    ⟨hrest.1, hrest.2 ((s.keeps_answer c).armed h.armed)⟩
  obtain ⟨⟨w, _, _⟩, _, _, _, _⟩ := s
  obtain ⟨⟨w', interference, faults⟩, recorded, bus, log, metrics⟩ := s'
  obtain ⟨hworld, harmed, rfl, rfl, rfl, rfl, rfl, rfl⟩ := h
  change World.Abreast l w w' at hworld
  unfold Service.answer Backend.answer
  dsimp only
  split
  · exact ⟨rfl, fun hlater => ⟨hworld, hlater, rfl, rfl, rfl, rfl, rfl, rfl⟩⟩
  · next rest _ =>
    unfold Backend.answerDisturbed
    have htrigger : Backend.triggered? ⟨w', interference, rest⟩ c =
        Backend.triggered? ⟨w, interference, rest⟩ c := rfl
    rw [htrigger]
    split
    · obtain ⟨hsame, hafter⟩ := hworld.answer hc
      exact ⟨hsame, fun hlater => ⟨hafter, hlater, rfl, rfl, rfl, rfl, rfl, rfl⟩⟩
    · next i hi =>
      dsimp only
      have hset : interference = some i := (Option.filter_eq_some_iff.1 hi).1
      rcases hworld.interfere (harmed i hset) with ⟨e, hfail, hfail'⟩ | ⟨v, v', hmove, hmove', hv⟩
      · rw [hfail, hfail']
        exact ⟨rfl, fun hlater => ⟨hworld, hlater, rfl, rfl, rfl, rfl, rfl, rfl⟩⟩
      · rw [hmove, hmove']
        have hsure := StoreCall.Sure.mono (World.storedIn_interfere hmove).namedIn hc
        obtain ⟨hsame, hafter⟩ := hv.answer hsure
        exact ⟨hsame, fun hlater => ⟨hafter, hlater, rfl, rfl, rfl, rfl, rfl, rfl⟩⟩

/-! ### Runs side by side -/

variable {α β : Type} {p : Program α}

/-- The program comes to the same on both services, and leaves them abreast. -/
structure RunsAbreast (l : World) (s s' : Service) (p : Program α) : Prop where
  result : (s'.run p).1 = (s.run p).1
  after : Paired (World.Abreast l) (s.run p).2 (s'.run p).2

theorem Paired.runs_done (h : Paired (World.Abreast l) s s') (a : α) :
    RunsAbreast l s s' (.done a) :=
  ⟨rfl, h⟩

theorem run_call (s : Service) (c : StoreCall) (next : Except StoreError c.Reply → Program α) :
    s.run (.call c next) = (s.answer c).2.run (next (s.answer c).1) := rfl

theorem RunsAbreast.signal {g : Signal} (hp : RunsAbreast l (s.note g) (s'.note g) p) :
    RunsAbreast l s s' (.signal g p) :=
  ⟨hp.result, hp.after⟩

/-- What follows goes on from where both services have got to. -/
theorem RunsAbreast.bind {f : α → Program β} (hp : RunsAbreast l s s' p)
    (hf : ∀ a t t', s.run p = (some a, t) → Paired (World.Abreast l) t t' →
      RunsAbreast l t t' (f a)) : RunsAbreast l s s' (p.bind f) := by
  obtain ⟨hresult, hafter⟩ := hp
  have hrun : s.run (p.bind f) = _ := Program.run_bind host p f s
  have hrun' : s'.run (p.bind f) = _ := Program.run_bind host p f s'
  cases hends : s.run p with
  | mk r t =>
    cases hends' : s'.run p with
    | mk r' t' =>
      rw [hends, hends'] at hresult hafter
      cases hresult
      rw [show p.run host s = (r, t) from hends] at hrun
      rw [show p.run host s' = (r, t') from hends'] at hrun'
      cases r with
      | none => exact ⟨by rw [hrun, hrun'], by rw [hrun, hrun']; exact hafter⟩
      | some a =>
        obtain ⟨hresult, hend⟩ := hf a t t' hends hafter
        exact ⟨by rw [hrun, hrun']; exact hresult, by rw [hrun, hrun']; exact hend⟩

/-- A program that gives only sure orders does the same on services that are abreast. -/
theorem Paired.runs_of_sure (h : Paired (World.Abreast l) s s') {u : World}
    (hu : u.NamedIn s.world) (hp : p.CallsOnly (StoreCall.Sure u) fun _ _ => True) :
    RunsAbreast l s s' p := by
  induction p generalizing s s' with
  | done a => exact h.runs_done a
  | exhausted => exact ⟨rfl, h⟩
  | signal g next ih =>
    refine (ih (h.note g) ?_ hp).signal
    rw [world_note]
    exact hu
  | call c next ih =>
    obtain ⟨hc, hnext⟩ := hp
    obtain ⟨hanswer, hafter⟩ := h.answer (StoreCall.Sure.mono hu hc)
    have hkept : u.NamedIn (s.answer c).2.world := fun q id hid =>
      (s.keeps_answer c).stored.isSome (hu q id hid)
    obtain ⟨hresult, hend⟩ := ih (s.answer c).1 hafter hkept (hnext _ trivial)
    refine ⟨?_, ?_⟩
    all_goals rw [run_call, run_call, hanswer]
    · exact hresult
    · exact hend

/-- A program that only asks, and that does not fail with a missing commit in the world of the first
service, does the same on both. -/
theorem Paired.run_of_inquires {ε τ : Type} [Relay ε] {E : ε → Prop}
    {p : Program (Except ε α × τ)} (hp : p.Inquires E) (h : Paired World.Littered s s')
    (hmissing : ∀ q id x, p.result s.world ≠ some (.error (Relay.relay (.commitNotFound q id)), x)) :
    (s'.run p).1 = (s.run p).1 ∧ Paired World.Littered (s.run p).2 (s'.run p).2 := by
  induction p generalizing s s' with
  | done r => exact ⟨rfl, h⟩
  | exhausted => exact ⟨rfl, h⟩
  | signal g next ih =>
    refine ih hp.2 (h.note g) fun q id x => ?_
    rw [show (host.note s g).world = s.world from world_note s g]
    exact hmissing q id x
  | call c next ih =>
    obtain ⟨hafter, hworld, hanswer⟩ := h.answer_question hp.1
    have hresult : (Program.call c next).result s.world = (next (s.world.answer c).1).result s.world :=
      rfl
    rw [hresult] at hmissing
    rw [run_call, run_call]
    rcases hanswer with ⟨e, he, he'⟩ | ⟨hsame, hsame'⟩ | ⟨q, id, hlost⟩
    · -- A fault strikes, and both runs end with it.
      obtain ⟨x, hrelay⟩ := hp.2.1 e
      rw [he, he', hrelay]
      exact ⟨rfl, hafter⟩
    · rw [hsame, hsame']
      rcases hp.next (s.world.answer c).1 with hnext | ⟨e, x, _, hrelay⟩
      · exact ih _ hnext hafter (by rwa [hworld])
      · rw [hrelay]
        exact ⟨rfl, hafter⟩
    · obtain ⟨x, hrelay⟩ := hp.2.1 (.commitNotFound q id)
      rw [hlost, hrelay] at hmissing
      exact absurd rfl (hmissing q id x)

end Service
end Landing
