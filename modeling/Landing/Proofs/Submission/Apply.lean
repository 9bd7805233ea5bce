import Landing.Proofs.Store.Calm
import Landing.Proofs.Submission.Plan

/-!
# Applying a plan in the world it was made in

Every step of a plan has an effect on the world and a condition under which it is
possible.  Steps that move different branches do not stand in each other's way,
so a list of such steps is carried out as soon as each of them is possible in the
beginning (`World.run_perform`).

A plan that was made in a world meets these conditions in that world
(`Plan.Of.possible`), and so applying it cannot fail there
(`World.run_apply_of_canLand`).  What the world is like afterwards is `Plan.landed`.
-/

namespace Landing

open World

/-! ### Storing commits -/

namespace World

variable {w : World} {l : List (ProjectName × Draft)} {project : ProjectName} {id : CommitId}

/-- The world with drafts stored one after another. -/
def withCommits (w : World) (l : List (ProjectName × Draft)) : World :=
  l.foldl (fun w e => w.withCommit e.1 e.2) w

theorem tip?_withCommits (w : World) (l : List (ProjectName × Draft)) (b : Branch) :
    (w.withCommits l).tip? b = w.tip? b := by
  induction l generalizing w with
  | nil => rfl
  | cons e l ih =>
    show ((w.withCommit e.1 e.2).withCommits l).tip? b = _
    rw [ih, tip?_withCommit]

theorem changes_withCommits (w : World) (l : List (ProjectName × Draft)) :
    (w.withCommits l).changes = w.changes := by
  induction l generalizing w with
  | nil => rfl
  | cons e l ih =>
    show ((w.withCommit e.1 e.2).withCommits l).changes = _
    rw [ih, changes_withCommit]

theorem hasProject_withCommits (w : World) (l : List (ProjectName × Draft)) :
    (w.withCommits l).HasProject project ↔ w.HasProject project := by
  induction l generalizing w with
  | nil => exact Iff.rfl
  | cons e l ih =>
    show ((w.withCommit e.1 e.2).withCommits l).HasProject project ↔ _
    rw [ih, hasProject_withCommit]

/-- The projects of the drafts that are left exist after the first draft was stored. -/
theorem hasProject_rest {e : ProjectName × Draft} (hprojects : ∀ e' ∈ e :: l, w.HasProject e'.1) :
    ∀ e' ∈ l, (w.withCommit e.1 e.2).HasProject e'.1 := by
  intro e' he'
  rw [hasProject_withCommit]
  exact hprojects e' (List.mem_cons_of_mem e he')

/-- What is stored stays stored. -/
theorem commit?_withCommits_of_some (hprojects : ∀ e ∈ l, w.HasProject e.1) {c : Commit}
    (hc : w.commit? project id = some c) : (w.withCommits l).commit? project id = some c := by
  induction l generalizing w with
  | nil => exact hc
  | cons e l ih =>
    refine ih (w := w.withCommit e.1 e.2) (hasProject_rest hprojects) ?_
    rw [commit?_withCommit (hprojects e (by simp)), hc]
    rfl

/-- What is stored in the end was stored before or is one of the drafts. -/
theorem known_of_commit?_withCommits (hprojects : ∀ e ∈ l, w.HasProject e.1) {c : Commit}
    (hc : (w.withCommits l).commit? project id = some c) :
    w.commit? project id = some c ∨ ∃ d, (project, d) ∈ l ∧ d.id = id ∧ c = d.commit := by
  induction l generalizing w with
  | nil => exact .inl hc
  | cons e l ih =>
    have hrest := hasProject_rest hprojects
    rcases ih hrest hc with hfirst | ⟨d, hd, hid, rfl⟩
    · refine (commit?_withCommit_cases (hprojects e (by simp)) hfirst).imp_right ?_
      rintro ⟨_, rfl, rfl, rfl⟩
      exact ⟨e.2, List.mem_cons_self, rfl, rfl⟩
    · exact .inr ⟨d, by simp [hd], hid, rfl⟩

/-- Every draft is stored in the end, or another commit of its name is. -/
theorem isSome_commit?_withCommits (hprojects : ∀ e ∈ l, w.HasProject e.1) {d : Draft}
    (hd : (project, d) ∈ l) : ((w.withCommits l).commit? project d.id).isSome := by
  induction l generalizing w with
  | nil => cases hd
  | cons e l ih =>
    have hrest := hasProject_rest hprojects
    rcases List.mem_cons.1 hd with rfl | hd
    · have hstored : ((w.withCommit project d).commit? project d.id).isSome := by
        rw [commit?_withCommit (hprojects (project, d) (by simp))]
        simp
      obtain ⟨c, hc⟩ := Option.isSome_iff_exists.1 hstored
      rw [Option.isSome_iff_exists]
      exact ⟨c, commit?_withCommits_of_some hrest hc⟩
    · exact ih hrest hd

theorem storedIn_withCommits (hprojects : ∀ e ∈ l, w.HasProject e.1) :
    w.StoredIn (w.withCommits l) :=
  fun _ _ _ hc => commit?_withCommits_of_some hprojects hc

/-- Drafts are stored under their own names. -/
theorem ContentAddressed.withCommits (haddressed : w.ContentAddressed)
    (hprojects : ∀ e ∈ l, w.HasProject e.1) : (w.withCommits l).ContentAddressed := by
  intro q id c hc
  rcases known_of_commit?_withCommits hprojects hc with hold | ⟨d, _, hid, rfl⟩
  · exact haddressed q id c hold
  · exact hid

theorem storedDrafts_withCommits (hprojects : ∀ e ∈ l, w.HasProject e.1) :
    (w.withCommits l).storedDrafts ⊆ w.storedDrafts ∪ {d | ∃ q, (q, d) ∈ l} := by
  rintro d ⟨q, id, c, hc, rfl⟩
  rcases known_of_commit?_withCommits hprojects hc with hold | ⟨d, hd, _, rfl⟩
  · exact .inl ⟨q, id, c, hold, rfl⟩
  · exact .inr ⟨q, hd⟩

/-- Storing commits in projects that exist succeeds. -/
theorem run_storeAll (hprojects : ∀ e ∈ l, w.HasProject e.1) :
    w.run (Plan.storeAll l) = (some (.ok ()), w.withCommits l) := by
  induction l generalizing w with
  | nil => rfl
  | cons e l ih =>
    have hanswer : w.answer (.insertCommit e.1 e.2) = (.ok e.2.id, w.withCommit e.1 e.2) := by
      rcases w.answer_insertCommit e.1 e.2 with ⟨_, hmissing⟩ | ⟨hanswer, _⟩
      · exact absurd (hprojects e (by simp)) hmissing
      · exact hanswer
    show w.run (Program.ask (.insertCommit e.1 e.2) >>= _) = _
    rw [run_bind, run_ask, hanswer]
    exact ih (hasProject_rest hprojects)

end World

/-! ### Taking steps -/

namespace Step

/-- What the step does to the world. -/
def effect (w : World) : Step → World
  | swap b _ new => w.withTip b (some new)
  | mark c tip submitter => w.withChange c (·.markMerged tip submitter)

/-- The step can be taken. -/
def Possible (w : World) : Step → Prop
  | swap b old new => w.Swappable b old (some new)
  | mark c _ _ => (w.changes.get? c).isSome

/-- The step in the log. -/
def taken : Step → TakenStep
  | swap b old new => .refSwap b old new
  | mark c _ _ => .markMerged c

/-- The branch that the step moves. -/
def moves? : Step → Option Branch
  | swap b _ _ => some b
  | mark .. => none

/-- The steps do not move the same branch. -/
def Apart (s t : Step) : Prop := ∀ b, s.moves? = some b → t.moves? ≠ some b

variable {w : World} {s t : Step} {steps : List Step}

@[simp] theorem commit?_effect (w : World) (s : Step) (project : ProjectName) (id : CommitId) :
    (s.effect w).commit? project id = w.commit? project id := by
  cases s with
  | swap => exact commit?_withTip
  | mark => rfl

/-- Taking a step does not change what is possible apart from it. -/
theorem possible_effect_iff (hs : s.Possible w) (hapart : s.Apart t) :
    t.Possible (s.effect w) ↔ t.Possible w := by
  cases s with
  | swap b old new =>
    cases t with
    | swap b' old' new' =>
      have hne : b' ≠ b := fun heq => hapart b rfl (by rw [heq]; rfl)
      have htip : (w.withTip b (some new)).tip? b' = w.tip? b' := by
        rw [tip?_withTip hs.project, if_neg hne]
      constructor
      · exact fun ht => ⟨hasProject_withTip.1 ht.project, htip.symm.trans ht.expected,
          fun t' ht' => commit?_withTip ▸ ht.stored t' ht'⟩
      · exact fun ht => ⟨hasProject_withTip.2 ht.project, htip.trans ht.expected,
          fun t' ht' => commit?_withTip.symm ▸ ht.stored t' ht'⟩
    | mark c tip submitter =>
      show ((w.withTip b (some new)).changes.get? c).isSome ↔ (w.changes.get? c).isSome
      rw [changes_withTip]
  | mark c tip submitter =>
    cases t with
    | swap b' old' new' =>
      exact ⟨fun ht => ⟨ht.project, ht.expected, ht.stored⟩,
        fun ht => ⟨ht.project, ht.expected, ht.stored⟩⟩
    | mark c' tip' submitter' =>
      show ((w.withChange c _).changes.get? c').isSome ↔ (w.changes.get? c').isSome
      rw [get?_changes_withChange]
      split
      · next heq => rw [heq, Option.isSome_map]
      · exact Iff.rfl

/-- The steps that are left stay possible when the first one is taken. -/
theorem possible_rest (hpossible : ∀ t ∈ s :: steps, t.Possible w)
    (hapart : ∀ t ∈ steps, s.Apart t) : ∀ t ∈ steps, t.Possible (s.effect w) := by
  intro t ht
  have hs : s.Possible w := hpossible s List.mem_cons_self
  exact (possible_effect_iff hs (hapart t ht)).2 (hpossible t (List.mem_cons_of_mem s ht))

/-- Taking a step that is possible. -/
theorem run_take (hs : s.Possible w) : w.run s.take = (some (.ok s.taken), s.effect w) := by
  cases s with
  | swap b old new =>
    have hanswer : w.answer (.compareAndSwap b old (some new)) =
        (.ok (), w.withTip b (some new)) := by
      rcases w.answer_compareAndSwap b old (some new) with ⟨_, hnot⟩ | ⟨hanswer, _⟩
      · exact absurd hs hnot
      · exact hanswer
    show w.run (Program.ask (.compareAndSwap b old (some new)) >>= _) = _
    rw [run_bind, run_ask, hanswer]
    rfl
  | mark c tip submitter =>
    have hanswer : w.answer (.markMerged c tip submitter) =
        (.ok (), w.withChange c (·.markMerged tip submitter)) := by
      rcases w.answer_markMerged c tip submitter with ⟨_, hnone⟩ | ⟨hanswer, _⟩
      · have hsome : (w.changes.get? c).isSome := hs
        rw [hnone] at hsome
        cases hsome
      · exact hanswer
    show w.run (Program.ask (.markMerged c tip submitter) >>= _) = _
    rw [run_bind, run_ask, hanswer]
    rfl

/-- A step that is not possible fails and changes nothing. -/
theorem run_take_of_not_possible (hs : ¬ s.Possible w) :
    ∃ f, w.run s.take = (some (.error f), w) ∧ ∀ step cause, f ≠ .rollbackFailed step cause := by
  cases s with
  | swap b old new =>
    rcases w.answer_compareAndSwap b old (some new) with ⟨⟨e, hanswer⟩, _⟩ | ⟨_, hpossible⟩
    · refine ⟨swapFailure e, ?_, fun step cause => ?_⟩
      · show w.run (Program.ask (.compareAndSwap b old (some new)) >>= _) = _
        rw [run_bind, run_ask, hanswer]
        rfl
      · cases e with
        | _ => exact Failure.noConfusion
    · exact absurd hpossible hs
  | mark c tip submitter =>
    rcases w.answer_markMerged c tip submitter with ⟨⟨e, hanswer⟩, _⟩ | ⟨_, hsome⟩
    · refine ⟨.storage e, ?_, fun _ _ => Failure.noConfusion⟩
      show w.run (Program.ask (.markMerged c tip submitter) >>= _) = _
      rw [run_bind, run_ask, hanswer]
      rfl
    · exact absurd hsome hs

/-- What a list of steps does to the world. -/
def effects (w : World) (steps : List Step) : World := steps.foldl Step.effect w

@[simp] theorem commit?_effects (w : World) (steps : List Step) (project : ProjectName)
    (id : CommitId) : (effects w steps).commit? project id = w.commit? project id := by
  induction steps generalizing w with
  | nil => rfl
  | cons s steps ih =>
    show (effects (s.effect w) steps).commit? project id = _
    rw [ih, commit?_effect]

/-- Each step can be taken when its turn comes. -/
def InTurn (w : World) : List Step → Prop
  | [] => True
  | s :: steps => s.Possible w ∧ InTurn (s.effect w) steps

/-- Steps that are possible in the beginning and move different branches can be taken in turn. -/
theorem inTurn_of_apart (hpossible : ∀ t ∈ steps, t.Possible w) (hapart : steps.Pairwise Apart) :
    InTurn w steps := by
  induction steps generalizing w with
  | nil => trivial
  | cons s steps ih =>
    obtain ⟨hs, hrest⟩ := List.pairwise_cons.1 hapart
    exact ⟨hpossible s (by simp), ih (possible_rest hpossible hs) hrest⟩

/-- The turn of a last step comes after the effects of all others. -/
theorem inTurn_append_singleton :
    InTurn w (steps ++ [s]) ↔ InTurn w steps ∧ s.Possible (effects w steps) := by
  induction steps generalizing w with
  | nil => exact and_comm
  | cons t steps ih =>
    show t.Possible w ∧ InTurn (t.effect w) (steps ++ [s]) ↔ _
    rw [ih, ← and_assoc]
    rfl

/-- A branch that no step moves stays where it is. -/
theorem tip?_effects_of_not_moved {b : Branch} (hpossible : ∀ s ∈ steps, s.Possible w)
    (hapart : steps.Pairwise Apart) (hb : ∀ s ∈ steps, s.moves? ≠ some b) :
    (effects w steps).tip? b = w.tip? b := by
  induction steps generalizing w with
  | nil => rfl
  | cons s steps ih =>
    obtain ⟨hs, hrest⟩ := List.pairwise_cons.1 hapart
    show (effects (s.effect w) steps).tip? b = _
    rw [ih (possible_rest hpossible hs) hrest fun t ht => hb t (by simp [ht])]
    cases s with
    | swap b' old new =>
      have hswap : w.Swappable b' old (some new) := hpossible (swap b' old new) (by simp)
      have hne : b ≠ b' := fun heq => hb (swap b' old new) (by simp) (by rw [heq]; rfl)
      rw [Step.effect, tip?_withTip hswap.project, if_neg hne]
    | mark => rfl

/-- A branch that a step moves is there afterwards. -/
theorem tip?_effects_of_moved {b : Branch} {old : Option CommitId} {new : CommitId}
    (hpossible : ∀ s ∈ steps, s.Possible w) (hapart : steps.Pairwise Apart)
    (hb : swap b old new ∈ steps) : (effects w steps).tip? b = some new := by
  induction steps generalizing w with
  | nil => cases hb
  | cons s steps ih =>
    obtain ⟨hs, hrest⟩ := List.pairwise_cons.1 hapart
    have hpossible' := possible_rest hpossible hs
    show (effects (s.effect w) steps).tip? b = _
    rcases List.mem_cons.1 hb with rfl | hb
    · have hswap : w.Swappable b old (some new) := hpossible (swap b old new) (by simp)
      rw [tip?_effects_of_not_moved hpossible' hrest fun t ht => hs t ht b rfl]
      rw [Step.effect, tip?_withTip hswap.project, if_pos rfl]
    · exact ih hpossible' hrest hb

/-- A record that no step marks stays as it is. -/
theorem get?_changes_effects_of_not_marked {k : ChangeId}
    (hk : ∀ t submitter, mark k t submitter ∉ steps) :
    (effects w steps).changes.get? k = w.changes.get? k := by
  induction steps generalizing w with
  | nil => rfl
  | cons s steps ih =>
    show (effects (s.effect w) steps).changes.get? k = _
    rw [ih fun t submitter hmem => hk t submitter (by simp [hmem])]
    cases s with
    | swap b old new => rw [Step.effect, changes_withTip]
    | mark c t submitter =>
      have hne : k ≠ c := fun heq => hk t submitter (by simp [heq])
      rw [Step.effect, get?_changes_withChange, if_neg hne]

/-- A record that is marked with one tip is marked afterwards. -/
theorem get?_changes_effects_of_marked {k : ChangeId} {t : CommitId} {submitter : AccountId}
    (hmem : mark k t submitter ∈ steps)
    (hunique : ∀ t' submitter', mark k t' submitter' ∈ steps → t' = t ∧ submitter' = submitter) :
    (effects w steps).changes.get? k = (w.changes.get? k).map (·.markMerged t submitter) := by
  induction steps generalizing w with
  | nil => cases hmem
  | cons s steps ih =>
    -- The first step does nothing to the record, or just what the marking does.
    have hfirst : (s.effect w).changes.get? k = w.changes.get? k ∨
        (s.effect w).changes.get? k = (w.changes.get? k).map (·.markMerged t submitter) := by
      cases s with
      | swap b old new => exact .inl (by rw [Step.effect, changes_withTip])
      | mark c t' submitter' =>
        rw [Step.effect, get?_changes_withChange]
        split
        · next hk =>
          subst hk
          obtain ⟨rfl, rfl⟩ := hunique t' submitter' (by simp)
          exact .inr rfl
        · exact .inl rfl
    show (effects (s.effect w) steps).changes.get? k = _
    by_cases hlater : mark k t submitter ∈ steps
    · rw [ih hlater fun t' submitter' h => hunique t' submitter' (by simp [h])]
      rcases hfirst with heq | heq
      · rw [heq]
      · rw [heq, Option.map_map]
        rfl
    · have hs : s = mark k t submitter := by
        rcases List.mem_cons.1 hmem with heq | h
        · exact heq.symm
        · exact absurd h hlater
      rw [get?_changes_effects_of_not_marked fun t' submitter' h => ?_]
      · rw [hs, Step.effect, get?_changes_withChange, if_pos rfl]
      · obtain ⟨rfl, rfl⟩ := hunique t' submitter' (by simp [h])
        exact hlater h

end Step

/-- Steps that are possible in the beginning and move different branches are all taken. -/
theorem World.run_perform {w : World} {steps : List Step} (hpossible : ∀ s ∈ steps, s.Possible w)
    (hapart : steps.Pairwise Step.Apart) (log : List TakenStep) :
    w.run (Transaction.perform steps log) =
      (some (log ++ steps.map Step.taken, none), Step.effects w steps) := by
  induction steps generalizing w log with
  | nil => simp [Transaction.perform, Step.effects]
  | cons s steps ih =>
    obtain ⟨hs, hrest⟩ := List.pairwise_cons.1 hapart
    rw [Transaction.perform, run_bind_of (Step.run_take (hpossible s (by simp)))]
    show (s.effect w).run (Transaction.perform steps (log ++ [s.taken])) = _
    rw [ih (Step.possible_rest hpossible hs) hrest]
    simp [Step.effects]

/-- Either all steps are possible in the beginning, or they are taken up to the first one that is not,
which fails. -/
theorem World.run_perform_cases {w : World} {steps : List Step}
    (hapart : steps.Pairwise Step.Apart) (log : List TakenStep) :
    (∀ s ∈ steps, s.Possible w) ∨
      ∃ done s rest f, steps = done ++ s :: rest ∧ (∀ t ∈ done, t.Possible w) ∧
        w.run (Transaction.perform steps log) =
          (some (log ++ done.map Step.taken, some f), Step.effects w done) ∧
        ∀ step cause, f ≠ .rollbackFailed step cause := by
  induction steps generalizing w log with
  | nil => simp
  | cons s steps ih =>
    obtain ⟨hs, hrest⟩ := List.pairwise_cons.1 hapart
    by_cases hpossible : s.Possible w
    · have hrun : w.run (Transaction.perform (s :: steps) log) =
          (s.effect w).run (Transaction.perform steps (log ++ [s.taken])) := by
        rw [Transaction.perform, run_bind_of (Step.run_take hpossible)]
      have hback : ∀ t ∈ steps, t.Possible (s.effect w) → t.Possible w :=
        fun t ht => (Step.possible_effect_iff hpossible (hs t ht)).1
      rcases ih hrest (w := s.effect w) (log ++ [s.taken]) with hall | hstop
      · left
        intro t ht
        rcases List.mem_cons.1 ht with rfl | ht
        · exact hpossible
        · exact hback t ht (hall t ht)
      · right
        obtain ⟨done, t, rest, f, rfl, hdone, hstop, hforward⟩ := hstop
        refine ⟨s :: done, t, rest, f, rfl, fun t' ht' => ?_, ?_, hforward⟩
        · rcases List.mem_cons.1 ht' with rfl | ht'
          · exact hpossible
          · exact hback t' (by simp [ht']) (hdone t' ht')
        · rw [hrun, hstop]
          simp [Step.effects]
    · obtain ⟨f, hfail, hforward⟩ := Step.run_take_of_not_possible hpossible
      refine .inr ⟨[], s, steps, f, rfl, by simp, ?_, hforward⟩
      rw [Transaction.perform, run_bind_of hfail]
      simp [Step.effects]

/-- If all steps were taken, then all of them were possible in the beginning. -/
theorem World.possible_of_run_perform {w w' : World} {steps : List Step}
    (hapart : steps.Pairwise Step.Apart) {log log' : List TakenStep}
    (hrun : w.run (Transaction.perform steps log) = (some (log', none), w')) :
    ∀ s ∈ steps, s.Possible w := by
  rcases run_perform_cases hapart (w := w) log with hall | ⟨_, _, _, _, _, _, hstop, _⟩
  · exact hall
  · rw [hstop] at hrun
    cases hrun

/-! ### Applying a plan -/

/-- A branch moves if it has a new tip, which was not its tip before. -/
theorem BranchPlan.movesRef_iff {bp : BranchPlan} :
    bp.movesRef = true ↔ ∃ tip, bp.newTip = some tip ∧ bp.oldTip ≠ some tip := by
  unfold movesRef
  cases htip : bp.newTip with
  | none => simp
  | some tip =>
    rw [Option.isSome_some, Bool.true_and, bne_iff_ne]
    constructor
    · exact fun hne => ⟨tip, rfl, hne.symm⟩
    · rintro ⟨_, heq, hne⟩
      rw [heq]
      exact hne.symm

namespace Plan

variable {w : World} {p : Plan} {b : Branch} {bp : BranchPlan}

theorem swap_mem_steps {old : Option CommitId} {new : CommitId} :
    Step.swap b old new ∈ p.steps ↔
      ∃ bp ∈ p.moving, bp.branch = b ∧ bp.oldTip = old ∧ bp.newTip = some new := by
  unfold steps
  rw [List.mem_append]
  constructor
  · rintro (hswap | hmark)
    · obtain ⟨bp, hbp, hmap⟩ := List.mem_filterMap.1 hswap
      obtain ⟨tip, htip, heq⟩ := Option.map_eq_some_iff.1 hmap
      cases heq
      exact ⟨bp, hbp, rfl, rfl, htip⟩
    · obtain ⟨bp, _, hbp⟩ := List.mem_flatMap.1 hmark
      split at hbp
      · obtain ⟨c, _, heq⟩ := List.mem_map.1 hbp
        cases heq
      · cases hbp
  · rintro ⟨bp, hbp, rfl, rfl, htip⟩
    exact .inl (List.mem_filterMap.2 ⟨bp, hbp, by rw [htip]; rfl⟩)

theorem mark_mem_steps {c : ChangeId} {tip : CommitId} {submitter : AccountId} :
    Step.mark c tip submitter ∈ p.steps ↔
      (∃ bp ∈ p.branches, bp.newTip = some tip ∧ c ∈ bp.changes) ∧ submitter = p.actor.id := by
  unfold steps
  rw [List.mem_append]
  constructor
  · rintro (hswap | hmark)
    · obtain ⟨bp, _, hmap⟩ := List.mem_filterMap.1 hswap
      obtain ⟨_, _, heq⟩ := Option.map_eq_some_iff.1 hmap
      cases heq
    · obtain ⟨bp, hbp, hmark⟩ := List.mem_flatMap.1 hmark
      split at hmark
      · next t htip =>
        obtain ⟨c', hc', heq⟩ := List.mem_map.1 hmark
        cases heq
        exact ⟨⟨bp, hbp, htip, hc'⟩, rfl⟩
      · cases hmark
  · rintro ⟨⟨bp, hbp, htip, hc⟩, rfl⟩
    refine .inr (List.mem_flatMap.2 ⟨bp, hbp, ?_⟩)
    rw [htip]
    exact List.mem_map.2 ⟨c, hc, rfl⟩

theorem mem_moving : bp ∈ p.moving ↔ bp ∈ p.branches ∧ bp.movesRef = true := List.mem_filter

/-- The world after a plan was applied in `w`. -/
def landed (p : Plan) (w : World) : World := Step.effects (w.withCommits p.inserts) p.steps

/-- The order of the branch plans is that of the segments. -/
theorem Framed.map_branch_segments (hplan : p.Framed w) :
    p.batch.segments.map (·.branch) = p.branches.map (·.branch) :=
  map_eq_map_of_forall₂ (hplan.branches.imp fun _ _ hbp => hbp.branch_eq.symm)

/-- No branch has two plans. -/
theorem Framed.nodup_branches (hplan : p.Framed w) : (p.branches.map (·.branch)).Nodup := by
  obtain ⟨members, horder⟩ := hplan.ordered
  rw [← hplan.map_branch_segments]
  exact horder.nodup

/-- Every branch plan is the plan of a segment. -/
theorem Framed.exists_segment (hplan : p.Framed w) (hbp : bp ∈ p.branches) :
    ∃ s ∈ p.batch.segments, bp.PlanOf w s (p.draftsFor bp.branch.project) := by
  obtain ⟨s, hs, hof⟩ := exists_left_of_forall₂ hplan.branches hbp
  refine ⟨s, hs, ?_⟩
  rw [hof.branch_eq]
  exact hof

/-- The tip that planning saw is accepted. -/
theorem Framed.accepted_oldTip (hplan : p.Framed w) (hbp : bp ∈ p.branches) {x : CommitId}
    (hold : bp.oldTip = some x) : w.Accepted bp.branch.project x := by
  obtain ⟨s, _, hof⟩ := hplan.exists_segment hbp
  obtain ⟨tips, htips, hfound⟩ := hof.oldTip_eq
  rw [hold] at hfound
  obtain ⟨r, hr, rfl⟩ := Option.map_eq_some_iff.1 hfound.symm
  rw [hof.branch_eq, accepted_iff htips]
  exact ⟨r.2, List.mem_map_of_mem (List.mem_of_find?_eq_some hr), .refl⟩

/-- Where refs have full names, planning saw the tips of the branches. -/
theorem Framed.oldTip_eq (hplan : p.Framed w) (hrefs : w.RefsQualified) (hbp : bp ∈ p.branches) :
    bp.oldTip = w.tip? bp.branch := by
  obtain ⟨s, _, hof⟩ := hplan.exists_segment hbp
  obtain ⟨tips, htips, hold⟩ := hof.oldTip_eq
  rw [hold, hrefs.find?_branches htips, hof.branch_eq]

/-- Where a branch had heads to take, the accepted commits of its project turned out to be stored. -/
theorem Framed.acceptedStored (hplan : p.Framed w) (hbp : bp ∈ p.branches)
    (hheads : bp.newTip ≠ bp.oldTip ∨ bp.drafts ≠ []) : w.AcceptedStored bp.branch.project := by
  obtain ⟨s, hs, hof⟩ := hplan.exists_segment hbp
  obtain ⟨members, horder⟩ := hplan.ordered
  obtain ⟨t, ht, top, htop⟩ := hof.headed hheads
  have hmem : t ∈ s.changes := (List.mem_filter.1 ht).1
  have hstored := (hplan.whole t (List.mem_flatMap.2 ⟨s, hs, hmem⟩) top htop).2
  rwa [(horder.mem_of_segment hs hmem).2, ← hof.branch_eq] at hstored

/-- Everything behind the old tip of a branch is stored, if there were heads to take. -/
theorem Framed.whole_oldTip (hplan : p.Framed w) (hbp : bp ∈ p.branches)
    (hheads : bp.newTip ≠ bp.oldTip ∨ bp.drafts ≠ []) {x : CommitId} (hold : bp.oldTip = some x) :
    w.Whole bp.branch.project x :=
  (hplan.acceptedStored hbp hheads).whole (hplan.accepted_oldTip hbp hold)

/-- Everything behind a head of a branch is stored. -/
theorem Framed.whole_head (hplan : p.Framed w) {s : Segment} (hs : s ∈ p.batch.segments)
    {t : Change} (ht : t ∈ s.headChanges) {top : CommitId} (htop : t.currentCommit? = some top) :
    w.Whole s.branch.project top := by
  obtain ⟨members, horder⟩ := hplan.ordered
  have hmem : t ∈ s.changes := (List.mem_filter.1 ht).1
  have hwhole := (hplan.whole t (List.mem_flatMap.2 ⟨s, hs, hmem⟩) top htop).1
  rwa [(horder.mem_of_segment hs hmem).2] at hwhole

/-- A branch that moves does so because of a change for it. -/
theorem Framed.exists_change_of_moving (hplan : p.Framed w) (hbp : bp ∈ p.moving) :
    ∃ c ∈ p.batch.changes, c.dest = bp.branch := by
  obtain ⟨hbranch, hmoves⟩ := mem_moving.1 hbp
  obtain ⟨s, hs, hof⟩ := hplan.exists_segment hbranch
  obtain ⟨members, horder⟩ := hplan.ordered
  obtain ⟨tip, htip, hne⟩ := BranchPlan.movesRef_iff.1 hmoves
  obtain ⟨t, ht, top, htop⟩ := hof.headed (.inl (by rw [htip]; exact hne.symm))
  have hmem : t ∈ s.changes := (List.mem_filter.1 ht).1
  refine ⟨t, List.mem_flatMap.2 ⟨s, hs, hmem⟩, ?_⟩
  rw [hof.branch_eq]
  exact (horder.mem_of_segment hs hmem).2

theorem Framed.hasProject_inserts (hplan : p.Framed w) : ∀ e ∈ p.inserts, w.HasProject e.1 := by
  intro e he
  have hd : e.2 ∈ p.draftsFor e.1 := mem_inserts.1 he
  exact hplan.housed e.1 (List.ne_nil_of_mem hd)

/-- What is known while planning is stored once the commits of the plan are. -/
theorem Framed.isSome_of_known (hplan : p.Framed w) {project : ProjectName} {id : CommitId} {c : Commit}
    (hc : w.Known (p.draftsFor project) project id c) :
    ((w.withCommits p.inserts).commit? project id).isSome := by
  rcases hc with hstored | ⟨d, hd, rfl, _⟩
  · rw [commit?_withCommits_of_some hplan.hasProject_inserts hstored]
    rfl
  · exact isSome_commit?_withCommits hplan.hasProject_inserts (mem_inserts.2 hd)

/-- A merge commit of a branch is drafted, or what has its name is known already. -/
theorem Framed.exists_known (hplan : p.Framed w) (hbp : bp ∈ p.branches) {d : Draft}
    (hd : d ∈ bp.drafts) :
    ∃ c, w.Known (p.draftsFor bp.branch.project) bp.branch.project d.id c := by
  obtain ⟨s, _, hof⟩ := hplan.exists_segment hbp
  obtain ⟨c, hc⟩ := hof.known d hd
  rw [← hof.branch_eq] at hc
  exact ⟨c, hc⟩

/-- The new tip of a moving branch is stored before the branch moves. -/
theorem Framed.isSome_newTip (hplan : p.Framed w) (hbp : bp ∈ p.moving) {tip : CommitId}
    (htip : bp.newTip = some tip) :
    ((w.withCommits p.inserts).commit? bp.branch.project tip).isSome := by
  obtain ⟨hbranch, hmoves⟩ := mem_moving.1 hbp
  obtain ⟨s, hs, hof⟩ := hplan.exists_segment hbranch
  have hproject : bp.branch.project = s.branch.project := by rw [hof.branch_eq]
  rcases hof.tip_origin tip htip with hold | hhead | ⟨d, hd, rfl⟩
  · -- A branch that moves does not move to its old tip.
    obtain ⟨tip', htip', hne⟩ := BranchPlan.movesRef_iff.1 hmoves
    rw [htip] at htip'
    cases htip'
    exact absurd hold hne
  · obtain ⟨t, ht, htop⟩ := List.mem_filterMap.1 hhead
    have hwhole := hplan.whole_head hs ht htop
    rw [← hproject] at hwhole
    obtain ⟨stored, hstored⟩ := Option.isSome_iff_exists.1 hwhole.stored
    rw [commit?_withCommits_of_some hplan.hasProject_inserts hstored]
    rfl
  · obtain ⟨c, hc⟩ := hplan.exists_known hbranch hd
    exact hplan.isSome_of_known hc

/-- A change of the batch stands in the plan of its branch. -/
theorem Framed.mem_changes_iff (hplan : p.Framed w) (hbp : bp ∈ p.branches) {k : ChangeId} :
    k ∈ bp.changes ↔ ∃ c ∈ p.batch.changes, c.id = k ∧ c.dest = bp.branch := by
  obtain ⟨s, hs, hof⟩ := hplan.exists_segment hbp
  obtain ⟨members, horder⟩ := hplan.ordered
  rw [hof.changes_eq, List.mem_map]
  constructor
  · rintro ⟨c, hc, rfl⟩
    refine ⟨c, List.mem_flatMap.2 ⟨s, hs, hc⟩, rfl, ?_⟩
    rw [hof.branch_eq]
    exact (horder.mem_of_segment hs hc).2
  · rintro ⟨c, hc, rfl, hdest⟩
    obtain ⟨s', hs', hc', hdest'⟩ := horder.mem_segment hc
    have hsame : s' = s := by
      refine List.inj_on_of_nodup_map horder.nodup hs' hs ?_
      rw [← hdest', hdest, hof.branch_eq]
    exact ⟨c, hsame ▸ hc', rfl⟩

/-- A change stands in one plan of a branch. -/
theorem Framed.branchPlan_unique (hplan : p.Framed w) {bp' : BranchPlan} (hbp : bp ∈ p.branches)
    (hbp' : bp' ∈ p.branches) {k : ChangeId} (hk : k ∈ bp.changes) (hk' : k ∈ bp'.changes) :
    bp' = bp := by
  obtain ⟨c, hc, hid, hdest⟩ := (hplan.mem_changes_iff hbp).1 hk
  obtain ⟨c', hc', hid', hdest'⟩ := (hplan.mem_changes_iff hbp').1 hk'
  have hsame : c = c' := hplan.distinct c hc c' hc' (hid.trans hid'.symm)
  refine List.inj_on_of_nodup_map hplan.nodup_branches hbp' hbp ?_
  rw [← hdest', ← hsame, hdest]

/-- A change is marked once. -/
theorem Framed.mark_unique (hplan : p.Framed w) {k : ChangeId} {t t' : CommitId}
    {submitter submitter' : AccountId} (hmark : Step.mark k t submitter ∈ p.steps)
    (hmark' : Step.mark k t' submitter' ∈ p.steps) : t' = t ∧ submitter' = submitter := by
  obtain ⟨⟨bp, hbp, htip, hk⟩, rfl⟩ := mark_mem_steps.1 hmark
  obtain ⟨⟨bp', hbp', htip', hk'⟩, rfl⟩ := mark_mem_steps.1 hmark'
  rw [hplan.branchPlan_unique hbp hbp' hk hk', htip] at htip'
  exact ⟨Option.some.inj htip'.symm, rfl⟩

/-- After a plan was applied, wherever it was made, its changes are recorded as merged. -/
theorem Framed.get?_changes_landed (hplan : p.Framed w) {w' : World} (hbp : bp ∈ p.branches)
    {tip : CommitId} (htip : bp.newTip = some tip) {k : ChangeId} (hk : k ∈ bp.changes) :
    (p.landed w').changes.get? k = (w'.changes.get? k).map (·.markMerged tip p.actor.id) := by
  have hmark : Step.mark k tip p.actor.id ∈ p.steps :=
    mark_mem_steps.2 ⟨⟨bp, hbp, htip, hk⟩, rfl⟩
  rw [Plan.landed, Step.get?_changes_effects_of_marked hmark
    fun t' submitter' hmark' => hplan.mark_unique hmark hmark', changes_withCommits]

/-- Every step of a plan is possible once the commits of the plan are stored. -/
theorem Of.possible (hplan : p.Of w) (hrefs : w.RefsQualified) :
    ∀ s ∈ p.steps, s.Possible (w.withCommits p.inserts) := by
  intro s hs
  cases s with
  | swap b old new =>
    obtain ⟨bp, hbp, rfl, rfl, htip⟩ := swap_mem_steps.1 hs
    obtain ⟨seg, _, hof⟩ := hplan.exists_segment (mem_moving.1 hbp).1
    obtain ⟨tips, htips, _⟩ := hof.oldTip_eq
    refine ⟨?_, ?_, fun t ht => ?_⟩
    · -- The project exists, since planning has listed its branches.
      rw [hasProject_withCommits, hof.branch_eq]
      obtain ⟨project, hproject, _⟩ := exists_project_of_branches htips
      rw [HasProject, hproject]
      rfl
    · rw [tip?_withCommits, hplan.oldTip_eq hrefs (mem_moving.1 hbp).1]
    · cases ht
      exact hplan.isSome_newTip hbp htip
  | mark c tip submitter =>
    obtain ⟨⟨bp, hbp, _, hc⟩, _⟩ := mark_mem_steps.1 hs
    obtain ⟨seg, hseg, hof⟩ := hplan.exists_segment hbp
    rw [hof.changes_eq] at hc
    obtain ⟨change, hchange, rfl⟩ := List.mem_map.1 hc
    have hrecord := hplan.openRecord change (List.mem_flatMap.2 ⟨seg, hseg, hchange⟩)
    show ((w.withCommits p.inserts).changes.get? change.id).isSome
    rw [changes_withCommits, hrecord.recorded]
    rfl

/-- The steps of a plan do not stand in each other's way. -/
theorem Framed.apart (hplan : p.Framed w) : p.steps.Pairwise Step.Apart := by
  unfold steps
  refine List.pairwise_append.2 ⟨?_, ?_, fun s _ t ht b _ => ?_⟩
  · have hnodup : (p.moving.map (·.branch)).Nodup :=
      hplan.nodup_branches.sublist (List.filter_sublist.map _)
    rw [List.pairwise_filterMap]
    refine (List.pairwise_map.1 hnodup).imp fun {a a'} hne s hs t ht b hb hb' => ?_
    obtain ⟨tip, _, rfl⟩ := Option.map_eq_some_iff.1 hs
    obtain ⟨tip', _, rfl⟩ := Option.map_eq_some_iff.1 ht
    cases hb
    exact hne (Option.some.inj hb').symm
  · refine List.pairwise_of_forall_mem_list fun s hs t _ b hb => ?_
    obtain ⟨bp, _, hmark⟩ := List.mem_flatMap.1 hs
    split at hmark
    · obtain ⟨c, _, rfl⟩ := List.mem_map.1 hmark
      cases hb
    · cases hmark
  · obtain ⟨bp, _, hmark⟩ := List.mem_flatMap.1 ht
    split at hmark
    · obtain ⟨c, _, rfl⟩ := List.mem_map.1 hmark
      intro hnone
      cases hnone
    · cases hmark

end Plan

namespace World

variable {w w' : World} {p : Plan}

/-- Every step of the plan can be taken in `w`, once the commits of the plan are stored. -/
def CanLand (w : World) (p : Plan) : Prop := ∀ s ∈ p.steps, s.Possible (w.withCommits p.inserts)

/-- Applying a plan, wherever it was made, when its steps can be taken. -/
theorem run_apply_of_apart (hprojects : ∀ e ∈ p.inserts, w.HasProject e.1)
    (hapart : p.steps.Pairwise Step.Apart) (hland : w.CanLand p) :
    w.run p.apply = (some (.ok (p.steps.map Step.taken, p.markApplied)), p.landed w) := by
  rw [Plan.apply, run_bind_of (run_storeAll hprojects)]
  dsimp only
  rw [run_bind_of (run_perform hland hapart [])]
  rfl

/-- Applying a plan whose steps can be taken. -/
theorem run_apply_of_canLand (hplan : p.Of w) (hland : w.CanLand p) :
    w.run p.apply = (some (.ok (p.steps.map Step.taken, p.markApplied)), p.landed w) :=
  run_apply_of_apart hplan.hasProject_inserts hplan.apart hland

/-- If a plan was applied, then all its steps could be taken. -/
theorem canLand_of_run_apply (hplan : p.Of w) {r : List TakenStep × Plan}
    (hrun : w.run p.apply = (some (.ok r), w')) : w.CanLand p := by
  rw [Plan.apply, run_bind_of (run_storeAll hplan.hasProject_inserts)] at hrun
  dsimp only at hrun
  cases hperform : (w.withCommits p.inserts).run (Transaction.perform p.steps []) with
  | mk o w₁ =>
    cases o with
    | none =>
      rw [run_bind, hperform] at hrun
      cases hrun
    | some result =>
      obtain ⟨log, failure⟩ := result
      cases failure with
      | none => exact possible_of_run_perform hplan.apart hperform
      | some cause =>
        -- A failed step is followed by the rollback, which ends with a failure.
        rw [run_bind_of hperform] at hrun
        dsimp only at hrun
        rw [run_tell_bind, run_bind] at hrun
        split at hrun
        · next r' w₂ hrollback =>
          cases r' with
          | ok _ => cases hrun
          | error _ => cases hrun
        · cases hrun

/-- A branch that the plan moves is at its new tip afterwards. -/
theorem tip?_landed (hapart : p.steps.Pairwise Step.Apart) (hland : w.CanLand p) {bp : BranchPlan}
    (hbp : bp ∈ p.moving) {tip : CommitId} (htip : bp.newTip = some tip) :
    (p.landed w).tip? bp.branch = some tip :=
  Step.tip?_effects_of_moved hland hapart
    (Plan.swap_mem_steps.2 ⟨bp, hbp, rfl, rfl, htip⟩)

/-- A branch that the plan does not move stays. -/
theorem tip?_landed_of_not_moving (hapart : p.steps.Pairwise Step.Apart) (hland : w.CanLand p)
    {b : Branch} (hb : ∀ bp ∈ p.moving, bp.branch ≠ b) : (p.landed w).tip? b = w.tip? b := by
  rw [Plan.landed, Step.tip?_effects_of_not_moved hland hapart, tip?_withCommits]
  intro s hs hmoves
  cases s with
  | swap b' old new =>
    obtain ⟨bp, hbp, hbranch, _⟩ := Plan.swap_mem_steps.1 hs
    cases hmoves
    exact hb bp hbp hbranch
  | mark => cases hmoves

/-- A branch is where it was, or it is one that the plan moves. -/
theorem tip?_landed_cases (hapart : p.steps.Pairwise Step.Apart) (hland : w.CanLand p) {b : Branch}
    {tip : CommitId} (htip : (p.landed w).tip? b = some tip) :
    w.tip? b = some tip ∨ ∃ bp ∈ p.moving, bp.branch = b ∧ bp.newTip = some tip := by
  by_cases hmoving : ∃ bp ∈ p.moving, bp.branch = b
  · obtain ⟨bp, hbp, rfl⟩ := hmoving
    obtain ⟨new, hnew, _⟩ := BranchPlan.movesRef_iff.1 (Plan.mem_moving.1 hbp).2
    rw [tip?_landed hapart hland hbp hnew] at htip
    exact .inr ⟨bp, hbp, rfl, hnew.trans htip⟩
  · left
    rwa [tip?_landed_of_not_moving hapart hland fun bp hbp heq => hmoving ⟨bp, hbp, heq⟩] at htip

/-- Where a plan can be carried out, a branch that it moves is where planning saw it. -/
theorem tip?_of_canLand (hland : w.CanLand p) {bp : BranchPlan} (hbp : bp ∈ p.moving) :
    w.tip? bp.branch = bp.oldTip := by
  obtain ⟨new, hnew, _⟩ := BranchPlan.movesRef_iff.1 (Plan.mem_moving.1 hbp).2
  have hswap : (w.withCommits p.inserts).Swappable bp.branch bp.oldTip (some new) :=
    hland _ (Plan.swap_mem_steps.2 ⟨bp, hbp, rfl, rfl, hnew⟩)
  rw [← tip?_withCommits w p.inserts]
  exact hswap.expected

/-- A branch with a plan is at the new tip of the plan afterwards, whether it had to move or not. -/
theorem tip?_landed_of_newTip (hplan : p.Of w) (hrefs : w.RefsQualified) {bp : BranchPlan}
    (hbp : bp ∈ p.branches) {tip : CommitId} (htip : bp.newTip = some tip) :
    (p.landed w).tip? bp.branch = some tip := by
  have hland : w.CanLand p := hplan.possible hrefs
  by_cases hmoves : bp.oldTip = some tip
  · rw [tip?_landed_of_not_moving hplan.apart hland, ← hplan.oldTip_eq hrefs hbp, hmoves]
    intro bp' hbp' heq
    obtain ⟨hbranch, hmoving⟩ := Plan.mem_moving.1 hbp'
    have hsame : bp' = bp := List.inj_on_of_nodup_map hplan.nodup_branches hbranch hbp heq
    obtain ⟨tip', htip', hne⟩ := BranchPlan.movesRef_iff.1 hmoving
    rw [hsame, htip] at htip'
    cases htip'
    exact hne (hsame ▸ hmoves)
  · exact tip?_landed hplan.apart hland
      (Plan.mem_moving.2 ⟨hbp, BranchPlan.movesRef_iff.2 ⟨tip, htip, hmoves⟩⟩) htip

/-- Applying a plan stores its commits and no other. -/
theorem commit?_landed (w : World) (p : Plan) (project : ProjectName) (id : CommitId) :
    (p.landed w).commit? project id = (w.withCommits p.inserts).commit? project id :=
  Step.commit?_effects _ _ _ _

theorem storedIn_landed : (w.withCommits p.inserts).StoredIn (p.landed w) :=
  fun q id _ hc => (commit?_landed w p q id).trans hc

theorem landed_storedIn : (p.landed w).StoredIn (w.withCommits p.inserts) :=
  fun q id _ hc => (commit?_landed w p q id).symm.trans hc

end World
end Landing
