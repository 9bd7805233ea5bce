import Landing.Proofs.Store.Trial
import Landing.Submission.Apply

/-!
# Taking steps back

Between a world and what a failing submission has made of it so far there is the
log.  `Trial.Undoable` says so: undoing the log would bring every branch back
to where it was, or to where the interference has put it, and every record that
differs is marked as merged in the log.

Whatever the adversary does, every order keeps this invariant: a failed order and
an interference keep it for the same log, a step that was taken adds itself to
the log, and undoing the latest step removes it.  So it holds after the steps were
taken, as far as they were (`Trial.ends_perform`), and with the empty log after all
were undone (`Trial.ends_unwind`).  With the empty log it says that nothing has
happened.
-/

namespace Landing

/-! ### What undoing restores -/

namespace TakenStep

/-- The tip that undoing the step gives back to the branch. -/
def oldTip? (b : Branch) : TakenStep → Option (Option CommitId)
  | refSwap b' old _ => if b = b' then some old else none
  | markMerged _ => none

/-- The order that undoes the step. -/
def undoCall : TakenStep → StoreCall
  | refSwap b old new => .compareAndSwap b (some new) old
  | markMerged k => .reopen k

/-- The step is logged when this order succeeds. -/
def Logs : TakenStep → StoreCall → Prop
  | refSwap b old new, c => c = .compareAndSwap b old (some new)
  | markMerged k, c => ∃ tip submitter, c = .markMerged k tip submitter

end TakenStep

namespace World

variable {w w' : World} {log : List TakenStep} {b b' : Branch}

/-- Where the branch will be once the log is undone.  What counts is the first step that moved it. -/
def restoredTip (w : World) (log : List TakenStep) (b : Branch) : Option CommitId :=
  (log.findSome? (TakenStep.oldTip? b)).getD (w.tip? b)

theorem restoredTip_congr (h : w'.tip? b = w.tip? b) :
    w'.restoredTip log b = w.restoredTip log b := by
  unfold restoredTip
  rw [h]

theorem restoredTip_append (w : World) (log : List TakenStep) (s : TakenStep) (b : Branch) :
    w.restoredTip (log ++ [s]) b =
      (log.findSome? (TakenStep.oldTip? b)).getD ((s.oldTip? b).getD (w.tip? b)) := by
  unfold restoredTip
  rw [List.findSome?_append]
  cases log.findSome? (TakenStep.oldTip? b) with
  | none =>
    cases h : s.oldTip? b with
    | none => simp [h]
    | some old => simp [h]
  | some old => rfl

/-- A swap and its entry in the log cancel each other. -/
theorem restoredTip_swap {old : Option CommitId} {new : CommitId}
    (hswap : w.Swappable b old (some new)) :
    (w.withTip b (some new)).restoredTip (log ++ [.refSwap b old new]) b' =
      w.restoredTip log b' := by
  rw [restoredTip_append, restoredTip, tip?_withTip hswap.project, TakenStep.oldTip?]
  by_cases hb : b' = b
  · subst hb
    rw [if_pos rfl, hswap.expected]
    rfl
  · rw [if_neg hb, if_neg hb]
    rfl

/-- Undoing a swap does what the log says. -/
theorem restoredTip_unswap {old : Option CommitId} {new : CommitId}
    (hproject : w.HasProject b.project) :
    (w.withTip b old).restoredTip log b' = w.restoredTip (log ++ [.refSwap b old new]) b' := by
  rw [restoredTip_append, restoredTip, tip?_withTip hproject, TakenStep.oldTip?]
  by_cases hb : b' = b
  · subst hb
    rw [if_pos rfl, if_pos rfl]
    rfl
  · rw [if_neg hb, if_neg hb]
    rfl

theorem restoredTip_mark {k : ChangeId} :
    w.restoredTip (log ++ [.markMerged k]) b = w.restoredTip log b :=
  restoredTip_append w log (.markMerged k) b

/-- Moving a branch that the log does not speak of. -/
theorem restoredTip_withTip {tip : Option CommitId} (hproject : w.HasProject b.project)
    (hfree : ∀ old new, .refSwap b old new ∉ log) :
    (w.withTip b tip).restoredTip log b' = if b' = b then tip else w.restoredTip log b' := by
  unfold restoredTip
  rw [tip?_withTip hproject]
  by_cases hb : b' = b
  · subst hb
    -- No entry of the log gives the branch a tip back.
    have hnone : log.findSome? (TakenStep.oldTip? b') = none := by
      rw [List.findSome?_eq_none_iff]
      intro s hs
      cases s with
      | refSwap b old new =>
        rw [TakenStep.oldTip?, if_neg]
        rintro rfl
        exact hfree old new hs
      | markMerged => rfl
    rw [hnone, if_pos rfl, if_pos rfl]
    rfl
  · rw [if_neg hb, if_neg hb]

end World

/-! ### Records and commits -/

/-- The records are as before, but a record that was open may be marked as merged in the log, or it
may have been reopened. -/
structure AlteredBy (log : List TakenStep) (before after : Table ChangeId Change) : Prop where
  records : ∀ k, after.get? k = before.get? k ∨
    ∃ c, before.get? k = some c ∧ c.isOpen = true ∧ (after.get? k = some c.reopen ∨
      TakenStep.markMerged k ∈ log ∧
        ∃ tip submitter, after.get? k = some (c.markMerged tip submitter))
  opened : ∀ k, TakenStep.markMerged k ∈ log →
    ∃ c, before.get? k = some c ∧ c.isOpen = true

/-- The records are as before, apart from merges that are in the log. -/
structure MarkedBy (log : List TakenStep) (before after : Table ChangeId Change) : Prop where
  records : ∀ k, after.get? k = before.get? k ∨ TakenStep.markMerged k ∈ log ∧
    ∃ tip submitter, after.get? k = (before.get? k).map (·.markMerged tip submitter)

/-- Some of the drafts may have been stored, and nothing else. -/
structure GrownBy (inserts : List (ProjectName × Draft)) (before after : World) : Prop where
  stored : ∀ q id c, before.commit? q id = some c → after.commit? q id = some c
  added : ∀ q id c, after.commit? q id = some c →
    before.commit? q id = some c ∨ ∃ d, (q, d) ∈ inserts ∧ d.id = id ∧ c = d.commit

section

variable {w w' : World} {log : List TakenStep} {before after : Table ChangeId Change}
variable {inserts : List (ProjectName × Draft)} {b : Branch} {old : Option CommitId}
variable {new tip : CommitId} {k : ChangeId} {submitter : AccountId}

theorem alteredBy_refl (changes : Table ChangeId Change) : AlteredBy [] changes changes :=
  ⟨fun _ => .inl rfl, fun _ hk => by cases hk⟩

theorem alteredBy_append_refSwap :
    AlteredBy (log ++ [.refSwap b old new]) before after ↔ AlteredBy log before after := by
  have hmem : ∀ k, TakenStep.markMerged k ∈ log ++ [.refSwap b old new] ↔
      TakenStep.markMerged k ∈ log := by simp
  constructor
  · intro h
    refine ⟨fun k => (h.records k).imp_right ?_, fun k hk => h.opened k ((hmem k).2 hk)⟩
    rintro ⟨c, hc, hopen, hafter⟩
    exact ⟨c, hc, hopen, hafter.imp_right fun hk => ⟨(hmem k).1 hk.1, hk.2⟩⟩
  · intro h
    refine ⟨fun k => (h.records k).imp_right ?_, fun k hk => h.opened k ((hmem k).1 hk)⟩
    rintro ⟨c, hc, hopen, hafter⟩
    exact ⟨c, hc, hopen, hafter.imp_right fun hk => ⟨(hmem k).2 hk.1, hk.2⟩⟩

/-- Marking or reopening again makes no difference. -/
theorem AlteredBy.map_eq (h : AlteredBy log before after) {f : Change → Change}
    (hreopen : ∀ c, f c.reopen = f c) (hmark : ∀ c t a, f (c.markMerged t a) = f c) :
    (after.get? k).map f = (before.get? k).map f := by
  rcases h.records k with hsame | ⟨c, hc, _, hafter | ⟨_, t, a, hafter⟩⟩
  · rw [hsame]
  · rw [hafter, hc, Option.map_some, Option.map_some, hreopen]
  · rw [hafter, hc, Option.map_some, Option.map_some, hmark]

/-- Recording a merge adds it to the log. -/
theorem AlteredBy.mark (h : AlteredBy log before w.changes)
    (hopen : ∃ c, before.get? k = some c ∧ c.isOpen = true) :
    AlteredBy (log ++ [.markMerged k]) before
      (w.withChange k (·.markMerged tip submitter)).changes := by
  refine ⟨fun k' => ?_, fun k' hk => ?_⟩
  · rw [World.get?_changes_withChange]
    split
    · next hk =>
      -- A merge that was recorded before is overwritten.
      subst hk
      obtain ⟨c, hc, hopen⟩ := hopen
      have hmap := h.map_eq (k := k') (f := (·.markMerged tip submitter)) (fun _ => rfl)
        fun _ _ _ => rfl
      refine .inr ⟨c, hc, hopen, .inr ⟨by simp, tip, submitter, ?_⟩⟩
      rw [hmap, hc]
      rfl
    · refine (h.records k').imp_right ?_
      rintro ⟨c, hc, hopen, hafter⟩
      exact ⟨c, hc, hopen, hafter.imp_right fun hk => ⟨List.mem_append_left _ hk.1, hk.2⟩⟩
  · rcases List.mem_append.1 hk with hk | hlast
    · exact h.opened k' hk
    · rw [List.mem_singleton] at hlast
      cases hlast
      exact hopen

/-- Reopening a change takes its merge from the log. -/
theorem AlteredBy.reopen (h : AlteredBy (log ++ [.markMerged k]) before w.changes) :
    AlteredBy log before (w.withChange k Change.reopen).changes := by
  refine ⟨fun k' => ?_, fun k' hk => h.opened k' (List.mem_append_left _ hk)⟩
  rw [World.get?_changes_withChange]
  split
  · next hk =>
    subst hk
    obtain ⟨c, hc, hopen⟩ := h.opened k' (by simp)
    have hmap := h.map_eq (k := k') (f := Change.reopen) (fun _ => rfl) fun _ _ _ => rfl
    refine .inr ⟨c, hc, hopen, .inl ?_⟩
    rw [hmap, hc]
    rfl
  · next hne =>
    refine (h.records k').imp_right ?_
    rintro ⟨c, hc, hopen, hafter⟩
    refine ⟨c, hc, hopen, hafter.imp_right fun hk => ⟨?_, hk.2⟩⟩
    simpa [hne] using hk.1

/-- With nothing in the log a record is as before or reopened. -/
theorem AlteredBy.records_of_nil (h : AlteredBy [] before after) (k : ChangeId) :
    after.get? k = before.get? k ∨
      ∃ c, before.get? k = some c ∧ c.isOpen = true ∧ after.get? k = some c.reopen := by
  refine (h.records k).imp_right ?_
  rintro ⟨c, hc, hopen, hafter⟩
  exact ⟨c, hc, hopen, hafter.resolve_right fun hk => by cases hk.1⟩

/-- Where reopening an open record does nothing, only merges in the log make a difference. -/
theorem AlteredBy.markedBy (h : AlteredBy log before after)
    (hclean : ∀ k c, before.get? k = some c → c.isOpen = true → c.reopen = c) :
    MarkedBy log before after := by
  refine ⟨fun k => ?_⟩
  rcases h.records k with hsame | ⟨c, hc, hopen, hafter | ⟨hmem, t, a, hafter⟩⟩
  · exact .inl hsame
  · rw [hclean k c hc hopen] at hafter
    exact .inl (hafter.trans hc.symm)
  · refine .inr ⟨hmem, t, a, ?_⟩
    rw [hafter, hc]
    rfl

/-- With nothing in the log the records are as before. -/
theorem MarkedBy.eq_of_nil (h : MarkedBy [] before after) : after = before :=
  Table.ext_get? fun k => (h.records k).resolve_right fun hk => by cases hk.1

theorem grownBy_refl (w : World) : GrownBy inserts w w :=
  ⟨fun _ _ _ hc => hc, fun _ _ _ hc => .inl hc⟩

theorem GrownBy.congr (h : GrownBy inserts w w')
    {w'' : World} (hsame : ∀ q id, w''.commit? q id = w'.commit? q id) : GrownBy inserts w w'' := by
  refine ⟨fun q id c hc => ?_, fun q id c hc => ?_⟩
  · rw [hsame]
    exact h.stored q id c hc
  · rw [hsame] at hc
    exact h.added q id c hc

/-- Storing one of the drafts. -/
theorem GrownBy.insert (h : GrownBy inserts w w') {q : ProjectName} {d : Draft}
    (hd : (q, d) ∈ inserts) (hproject : w'.HasProject q) :
    GrownBy inserts w (w'.withCommit q d) := by
  refine ⟨fun q' id c hc => ?_, fun q' id c hc => ?_⟩
  · rw [World.commit?_withCommit hproject, h.stored q' id c hc]
    rfl
  · rcases World.commit?_withCommit_cases hproject hc with hold | ⟨_, rfl, rfl, rfl⟩
    · exact h.added q' id c hold
    · exact .inr ⟨d, hd, rfl, rfl⟩

end

/-! ### The invariant -/

namespace Trial

/-- Where the branch is, apart from what the program has done to it. -/
def outsideTip (w : World) (t : Trial) (b : Branch) : Option CommitId :=
  match t.moved with
  | some i => if b = i.branch then some i.tip else w.tip? b
  | none => w.tip? b

/-- What has become of `w` is described by the log.  Of the commits to insert some may have been
stored, and the interference may have taken place. -/
structure Undoable (w : World) (interference : Option Interference)
    (inserts : List (ProjectName × Draft)) (log : List TakenStep) (t : Trial) : Prop where
  tips : ∀ b, t.world.restoredTip log b = t.outsideTip w b
  altered : AlteredBy log w.changes t.world.changes
  commits : GrownBy inserts w t.world
  /-- As long as the interference is to come, its branch was not touched. -/
  waiting : ∀ i, t.armed = some i →
    t.moved = none ∧ ∀ old new, TakenStep.refSwap i.branch old new ∉ log
  arranged : ∀ i, t.armed = some i ∨ t.moved = some i → interference = some i
  published : t.published = []
  logged : ∀ s ∈ log, ∃ x ∈ t.exchanges, s.Logs x.call ∧ ∃ reply, x.answer = .ok reply

section

variable {w : World} {interference : Option Interference} {inserts : List (ProjectName × Draft)}
variable {log : List TakenStep} {t t₁ : Trial} {b : Branch} {old : Option CommitId}
variable {new tip : CommitId} {k : ChangeId} {submitter : AccountId}

/-- In the beginning nothing has happened. -/
theorem undoable_start (w : World) (interference : Option Interference)
    (inserts : List (ProjectName × Draft)) :
    (start w interference).Undoable w interference inserts [] where
  tips _ := rfl
  altered := alteredBy_refl w.changes
  commits := grownBy_refl w
  waiting _ _ := ⟨rfl, fun _ _ h => by cases h⟩
  arranged _ h := h.resolve_right fun hmoved => by cases hmoved
  published := rfl
  logged _ hs := by cases hs

/-- The invariant does not depend on what was heard since. -/
theorem Undoable.heard (h : t.Undoable w interference inserts log) (x : Exchange) :
    (t.heard x).Undoable w interference inserts log :=
  { h with
    logged := fun s hs => by
      obtain ⟨y, hy, hlogs⟩ := h.logged s hs
      exact ⟨y, List.mem_cons_of_mem x hy, hlogs⟩ }

/-- The exchange that a step at the end of the log stands for is heard with it. -/
theorem Undoable.logged_append (h : t.Undoable w interference inserts log) {s : TakenStep}
    {x : Exchange} (hs : s.Logs x.call) (hx : ∃ reply, x.answer = .ok reply) :
    ∀ s' ∈ log ++ [s], ∃ y ∈ (t.heard x).exchanges, s'.Logs y.call ∧
      ∃ reply, y.answer = .ok reply := by
  intro s' hmem
  rcases List.mem_append.1 hmem with hold | hlast
  · exact (h.heard x).logged s' hold
  · rw [List.mem_singleton] at hlast
    subst hlast
    exact ⟨x, List.mem_cons_self, hs, hx⟩

/-- An interference keeps the invariant, since it moves a branch that the log does not speak of. -/
theorem Undoable.drift (h : t.Undoable w interference inserts log) (hdrift : t.Drift t₁) :
    t₁.Undoable w interference inserts log := by
  cases hdrift with
  | stays hsub =>
    exact
      { h with
        waiting := fun i hi => h.waiting i (hsub i hi)
        arranged := fun i hi => h.arranged i (hi.imp_left (hsub i)) }
  | @moves i harmed hproject =>
    -- The branch was not moved before, neither from outside nor by the program.
    obtain ⟨hmoved, hfree⟩ := h.waiting i harmed
    refine
      { h with
        tips := fun b => ?_
        altered := ?_
        commits := h.commits.congr fun q id => World.commit?_withTip
        waiting := fun _ hi => by cases hi
        arranged := fun j hj => ?_ }
    · have hbefore := h.tips b
      rw [outsideTip, hmoved] at hbefore
      show (t.world.withTip i.branch (some i.tip)).restoredTip log b = _
      rw [World.restoredTip_withTip hproject hfree, hbefore]
      rfl
    · show AlteredBy log w.changes (t.world.withTip i.branch (some i.tip)).changes
      rw [World.changes_withTip]
      exact h.altered
    · rcases hj with hj | hj
      · cases hj
      · cases hj
        exact h.arranged i (.inl harmed)

/-- Storing one of the commits. -/
theorem Undoable.insert (h : t.Undoable w interference inserts log) {q : ProjectName}
    {d : Draft} (hd : (q, d) ∈ inserts) (hproject : t.world.HasProject q) :
    Undoable w interference inserts log { t with world := t.world.withCommit q d } :=
  { h with
    tips := fun b => by
      show (t.world.withCommit q d).restoredTip log b = _
      rw [World.restoredTip_congr World.tip?_withCommit]
      exact h.tips b
    altered := by
      show AlteredBy log w.changes (t.world.withCommit q d).changes
      rw [World.changes_withCommit]
      exact h.altered
    commits := h.commits.insert hd hproject }

/-- Moving a branch. -/
theorem Undoable.swap (h : t.Undoable w interference inserts log)
    (hcalm : t.triggered? (.compareAndSwap b old (some new)) = none)
    (hswap : t.world.Swappable b old (some new)) {reply : Unit} :
    Undoable w interference inserts (log ++ [.refSwap b old new])
      ({ t with world := t.world.withTip b (some new) }.heard
        ⟨.compareAndSwap b old (some new), .ok reply⟩) where
  tips b' := by
    show (t.world.withTip b (some new)).restoredTip (log ++ [.refSwap b old new]) b' = _
    rw [World.restoredTip_swap hswap]
    exact h.tips b'
  altered := by
    show AlteredBy _ w.changes (t.world.withTip b (some new)).changes
    rw [World.changes_withTip]
    exact alteredBy_append_refSwap.2 h.altered
  commits := h.commits.congr fun q id => World.commit?_withTip
  waiting i hi := by
    obtain ⟨hmoved, hfree⟩ := h.waiting i hi
    -- Otherwise the swap would have set the interference off.
    have hne : i.branch ≠ b := branch_ne_of_calm hcalm hi
    refine ⟨hmoved, fun old' new' hmem => ?_⟩
    rcases List.mem_append.1 hmem with hmem | hlast
    · exact hfree old' new' hmem
    · rw [List.mem_singleton] at hlast
      cases hlast
      exact hne rfl
  arranged := h.arranged
  published := h.published
  logged := h.logged_append rfl ⟨reply, rfl⟩

/-- Recording a merge. -/
theorem Undoable.mark (h : t.Undoable w interference inserts log)
    (hopen : ∃ c, w.changes.get? k = some c ∧ c.isOpen = true) {reply : Unit} :
    Undoable w interference inserts (log ++ [.markMerged k])
      ({ t with world := t.world.withChange k (·.markMerged tip submitter) }.heard
        ⟨.markMerged k tip submitter, .ok reply⟩) where
  tips b := by
    show (t.world.withChange k (·.markMerged tip submitter)).restoredTip _ b = _
    rw [World.restoredTip_mark, World.restoredTip_congr World.tip?_withChange]
    exact h.tips b
  altered := h.altered.mark hopen
  commits := h.commits.congr fun q id => World.commit?_withChange
  waiting i hi := by
    obtain ⟨hmoved, hfree⟩ := h.waiting i hi
    refine ⟨hmoved, fun old' new' hmem => hfree old' new' ?_⟩
    simpa using hmem
  arranged := h.arranged
  published := h.published
  logged := h.logged_append ⟨tip, submitter, rfl⟩ ⟨reply, rfl⟩

/-- Undoing the latest move of a branch. -/
theorem Undoable.unswap
    (h : t.Undoable w interference inserts (log ++ [.refSwap b old new]))
    (hproject : t.world.HasProject b.project) :
    Undoable w interference inserts log { t with world := t.world.withTip b old } where
  tips b' := by
    show (t.world.withTip b old).restoredTip log b' = _
    rw [World.restoredTip_unswap hproject]
    exact h.tips b'
  altered := by
    show AlteredBy log w.changes (t.world.withTip b old).changes
    rw [World.changes_withTip]
    exact alteredBy_append_refSwap.1 h.altered
  commits := h.commits.congr fun q id => World.commit?_withTip
  waiting i hi := by
    obtain ⟨hmoved, hfree⟩ := h.waiting i hi
    exact ⟨hmoved, fun old' new' hmem => hfree old' new' (List.mem_append_left _ hmem)⟩
  arranged := h.arranged
  published := h.published
  logged s hs := h.logged s (List.mem_append_left _ hs)

/-- Undoing the latest record of a merge. -/
theorem Undoable.reopen (h : t.Undoable w interference inserts (log ++ [.markMerged k])) :
    Undoable w interference inserts log
      { t with world := t.world.withChange k Change.reopen } where
  tips b := by
    show (t.world.withChange k Change.reopen).restoredTip log b = _
    rw [World.restoredTip_congr World.tip?_withChange, ← World.restoredTip_mark]
    exact h.tips b
  altered := h.altered.reopen
  commits := h.commits.congr fun q id => World.commit?_withChange
  waiting i hi := by
    obtain ⟨hmoved, hfree⟩ := h.waiting i hi
    exact ⟨hmoved, fun old' new' hmem => hfree old' new' (List.mem_append_left _ hmem)⟩
  arranged := h.arranged
  published := h.published
  logged s hs := h.logged s (List.mem_append_left _ hs)

/-- With nothing to be undone, every branch is where it was, or where the interference has put
it. -/
theorem Undoable.tips_of_nil (h : t.Undoable w interference inserts []) :
    (∀ i, t.moved = some i → interference = some i ∧ t.world.tip? i.branch = some i.tip) ∧
      ∀ b, (∀ i, t.moved = some i → i.branch ≠ b) → t.world.tip? b = w.tip? b := by
  refine ⟨fun i hi => ⟨h.arranged i (.inr hi), ?_⟩, fun b hb => ?_⟩
  · have htip := h.tips i.branch
    rw [outsideTip, hi] at htip
    exact htip.trans (if_pos rfl)
  · have htip := h.tips b
    unfold outsideTip at htip
    cases hmoved : t.moved with
    | none =>
      rw [hmoved] at htip
      exact htip
    | some i =>
      rw [hmoved] at htip
      exact htip.trans (if_neg fun heq => hb i hmoved heq.symm)

end

/-! ### Runs -/

variable {w : World} {interference : Option Interference} {inserts : List (ProjectName × Draft)}
variable {log : List TakenStep} {t : Trial} {adversary : Adversary}

/-- The record that the step marks, if it marks any, is open. -/
def MarksOpen (w : World) : Step → Prop
  | .swap .. => True
  | .mark k _ _ => ∃ c, w.changes.get? k = some c ∧ c.isOpen = true

/-- Undoing a step that was taken has just failed. -/
def UndoFailed (s : TakenStep) (cause : StoreError) (t : Trial) : Prop :=
  t.exchanges.head? = some ⟨s.undoCall, .error cause⟩ ∧
    ∃ x ∈ t.exchanges, s.Logs x.call ∧ ∃ reply, x.answer = .ok reply

theorem Undoable.note (h : t.Undoable w interference inserts log) {g : Signal}
    (hg : g.event? = none) : (t.note g).Undoable w interference inserts log :=
  { h with
    published := by
      show t.published ++ g.event?.toList = []
      rw [hg, h.published]
      rfl }

/-- Storing commits. -/
theorem ends_storeAll {l : List (ProjectName × Draft)} (hl : l ⊆ inserts)
    (h : t.Undoable w interference inserts []) :
    Ends adversary (Plan.storeAll l) t fun r t' =>
      t'.Undoable w interference inserts [] ∧
        ∀ f, r = .error f → ∀ step cause, f ≠ .rollbackFailed step cause := by
  induction l generalizing t with
  | nil => exact ends_pure ⟨h, fun f hf => by cases hf⟩
  | cons e l ih =>
    refine Ends.bind (ends_order (Q := fun _ t' => t'.Undoable w interference inserts [])
      (StoreCall.insertCommit_does e.1 e.2) (fun _ t₁ hdrift => ?_)
      fun _ t₁ hdrift _ hproject => ?_) fun r t' ht' => ?_
    · exact (h.drift hdrift).heard _
    · exact ((h.drift hdrift).insert (hl (by simp)) hproject).heard _
    · cases r with
      | error e =>
        refine ends_pure ⟨ht', fun f hf => ?_⟩
        cases hf
        exact fun _ _ => Failure.noConfusion
      | ok id => exact ih (fun e' he' => hl (by simp [he'])) ht'

/-- After an order that belongs to taking a step: the step is in the log, unless the order failed. -/
def Logged (w : World) (interference : Option Interference) (inserts : List (ProjectName × Draft))
    (log : List TakenStep) (taken : TakenStep) {ε α : Type} (r : Except ε α) (t : Trial) : Prop :=
  match r with
  | .ok _ => t.Undoable w interference inserts (log ++ [taken])
  | .error _ => t.Undoable w interference inserts log

/-- Taking a step adds it to the log, unless it fails. -/
theorem ends_take {s : Step} (hopen : MarksOpen w s) (h : t.Undoable w interference inserts log) :
    Ends adversary s.take t fun r t' =>
      match r with
      | .ok taken => t'.Undoable w interference inserts (log ++ [taken])
      | .error f => t'.Undoable w interference inserts log ∧
          ∀ step cause, f ≠ .rollbackFailed step cause := by
  cases s with
  | swap b old new =>
    refine Ends.bind (ends_order (Q := Logged w interference inserts log (.refSwap b old new))
      (StoreCall.compareAndSwap_does b old (some new)) (fun e t₁ hdrift => ?_)
      fun reply t₁ hdrift hcalm hswap => ?_) fun r t' ht' => ?_
    · exact (h.drift hdrift).heard _
    · exact (h.drift hdrift).swap hcalm hswap
    · cases r with
      | error e =>
        refine ends_pure ⟨ht', fun step cause => ?_⟩
        cases e with
        | _ => exact Failure.noConfusion
      | ok reply => exact ends_pure ht'
  | mark k tip submitter =>
    refine Ends.bind (ends_order (Q := Logged w interference inserts log (.markMerged k))
      (StoreCall.markMerged_does k tip submitter) (fun e t₁ hdrift => ?_)
      fun reply t₁ hdrift _ _ => ?_) fun r t' ht' => ?_
    · exact (h.drift hdrift).heard _
    · exact (h.drift hdrift).mark hopen
    · cases r with
      | error e => exact ends_pure ⟨ht', fun _ _ => Failure.noConfusion⟩
      | ok reply => exact ends_pure ht'

/-- The steps are taken one after another, and the log tells how far this went. -/
theorem ends_perform {steps : List Step} (hopen : ∀ s ∈ steps, MarksOpen w s)
    (h : t.Undoable w interference inserts log) :
    Ends adversary (Transaction.perform steps log) t fun r t' =>
      t'.Undoable w interference inserts r.1 ∧
        ∀ f, r.2 = some f → ∀ step cause, f ≠ .rollbackFailed step cause := by
  induction steps generalizing t log with
  | nil => exact ends_pure ⟨h, fun f hf => by cases hf⟩
  | cons s steps ih =>
    refine (ends_take (hopen s (by simp)) h).bind fun r t' ht' => ?_
    cases r with
    | ok taken => exact ih (fun s' hs' => hopen s' (by simp [hs'])) ht'
    | error f =>
      -- The log is that of the steps before, since the failed one has done nothing.
      refine ends_pure ⟨ht'.1, fun f' hf' => ?_⟩
      cases hf'
      exact ht'.2

/-- Undoing the latest step takes it from the log, unless it fails. -/
theorem ends_undo {s : TakenStep} (h : t.Undoable w interference inserts (log ++ [s])) :
    Ends adversary s.undo t fun r t' =>
      match r with
      | .ok _ => t'.Undoable w interference inserts log
      | .error cause => t'.UndoFailed s cause := by
  -- The failed order is the last exchange, and the step is in the log still.
  have hfailed : ∀ {t₁ : Trial} (cause : StoreError), t.Drift t₁ →
      (t₁.heard ⟨s.undoCall, .error cause⟩).UndoFailed s cause := fun cause hdrift =>
    ⟨rfl, ((h.drift hdrift).heard _).logged s (by simp)⟩
  cases s with
  | refSwap b old new =>
    refine ends_order (StoreCall.compareAndSwap_does b (some new) old)
      (fun e t₁ hdrift => hfailed e hdrift) fun reply t₁ hdrift _ hswap => ?_
    exact ((h.drift hdrift).unswap hswap.project).heard _
  | markMerged k =>
    refine ends_order (StoreCall.reopen_does k)
      (fun e t₁ hdrift => hfailed e hdrift) fun reply t₁ hdrift _ _ => ?_
    exact ((h.drift hdrift).reopen).heard _

/-- After undoing everything: the log is empty, unless undoing a step has failed. -/
def Unwound (w : World) (interference : Option Interference) (inserts : List (ProjectName × Draft))
    {α : Type} (r : Except Failure α) (t : Trial) : Prop :=
  match r with
  | .ok _ => t.Undoable w interference inserts []
  | .error f => ∃ s cause, f = .rollbackFailed s.describe cause ∧ t.UndoFailed s cause

/-- The steps of the log are undone, newest first. -/
theorem ends_unwind {newestFirst : List TakenStep}
    (h : t.Undoable w interference inserts newestFirst.reverse) :
    Ends adversary (Transaction.unwind newestFirst) t (Unwound w interference inserts) := by
  induction newestFirst generalizing t with
  | nil => exact ends_pure h
  | cons s rest ih =>
    rw [List.reverse_cons] at h
    refine (ends_undo h).bind fun r t' ht' => ?_
    cases r with
    | ok _ => exact ih ht'
    | error cause =>
      refine (ends_tell (Q := fun _ t'' => t''.UndoFailed s cause) ht').bind fun _ t'' ht'' => ?_
      exact ends_pure ⟨s, cause, rfl, ht''⟩

/-- Applying a plan that fails has left nothing behind, or undoing a step has failed. -/
theorem ends_apply {p : Plan} (hopen : ∀ s ∈ p.steps, MarksOpen w s)
    (h : t.Undoable w interference p.inserts []) :
    Ends adversary p.apply t fun r t' =>
      ∀ f, r = .error f →
        (t'.Undoable w interference p.inserts [] ∧
          ∀ step cause, f ≠ .rollbackFailed step cause) ∨
        ∃ s cause, f = .rollbackFailed s.describe cause ∧ t'.UndoFailed s cause := by
  refine (ends_storeAll (fun _ he => he) h).bind fun r t₁ ht₁ => ?_
  cases r with
  | error f =>
    refine ends_pure fun f' hf' => .inl ⟨ht₁.1, ?_⟩
    cases hf'
    exact ht₁.2 f rfl
  | ok _ =>
    refine (ends_perform hopen ht₁.1).bind fun r t₂ ht₂ => ?_
    obtain ⟨log, failure⟩ := r
    cases failure with
    | none => exact ends_pure fun f hf => by cases hf
    | some cause =>
      refine (ends_tell (Q := fun _ t' => t'.Undoable w interference p.inserts log)
        (ht₂.1.note rfl)).bind fun _ t₃ ht₃ => ?_
      -- The log is undone from its end.
      rw [← List.reverse_reverse log] at ht₃
      refine Ends.bind (Q := Unwound w interference p.inserts)
        ((ends_unwind ht₃).bind fun r t₄ ht₄ => ?_) fun r t₅ ht₅ => ?_
      · cases r with
        | ok _ => exact ends_pure ht₄
        | error f => exact ends_pure ht₄
      · cases r with
        | ok _ =>
          refine ends_pure fun f hf => .inl ⟨ht₅, ?_⟩
          cases hf
          exact ht₂.2 cause rfl
        | error f =>
          refine ends_pure fun f' hf' => .inr ?_
          cases hf'
          exact ht₅

end Trial
end Landing
