import Landing.Proofs.Submission.Stale

/-!
# Undoing a transaction

A transaction takes any steps in any order; a step that fails leaves nothing in the
log.  Undoing the log, newest first, does not fail where nobody else writes, and it
brings every branch back to where it was: the entry of a swap holds the tip before it.

The entry of a mark holds nothing of the record that it overwrites.  Undoing it leaves
the change open and without traces of a submission, whatever it was before.  So the
records are as they were exactly if every change that was marked was like this in the
beginning (`Transaction.rollback_exact_iff`), and a change that was abandoned is open
afterwards (`Transaction.abandoned_change_reopened`).
-/

namespace Landing

open World

/-! ### Branches at stored commits -/

namespace World

variable {w : World}

/-- Every branch is at a stored commit. -/
def TipsStored (w : World) : Prop :=
  ∀ b tip, w.tip? b = some tip → (w.commit? b.project tip).isSome

theorem tipsStored_iff :
    w.TipsStored ↔ ∀ r ∈ w.refs, (w.commit? r.1.project r.2).isSome := by
  constructor
  · intro hstored r hr
    exact hstored r.1 r.2 (mem_refs.1 hr)
  · intro hall b tip htip
    exact hall (b, tip) (mem_refs.2 htip)

instance : Decidable w.TipsStored := decidable_of_iff _ tipsStored_iff.symm

/-- Taking a step leaves every branch at a stored commit. -/
theorem TipsStored.effect (h : w.TipsStored) {s : Step} (hs : s.Possible w) :
    (s.effect w).TipsStored := by
  intro b tip htip
  rw [Step.commit?_effect]
  cases s with
  | swap b' old new =>
    have hswap : w.Swappable b' old (some new) := hs
    rw [Step.effect, tip?_withTip hswap.project] at htip
    split at htip
    · next heq =>
      rw [heq]
      exact hswap.stored tip htip
    · exact h b tip htip
  | mark k t submitter => exact h b tip htip

end World

namespace Step

variable {w : World} {steps : List Step}

/-- Where every branch is at a stored commit, every tip that a swap replaces is stored. -/
theorem InTurn.stored (hturn : InTurn w steps) (h : w.TipsStored) :
    ∀ b old new, swap b (some old) new ∈ steps → (w.commit? b.project old).isSome := by
  induction steps generalizing w with
  | nil => simp
  | cons s steps ih =>
    intro b old new hmem
    rcases List.mem_cons.1 hmem with rfl | hmem
    · have hswap : w.Swappable b (some old) (some new) := hturn.1
      exact h b old hswap.expected
    · have hold := ih hturn.2 (h.effect hturn.1) b old new hmem
      rwa [commit?_effect] at hold

/-- Marking a record again and again makes no difference to what reopening it gives. -/
theorem map_reopen_effects (w : World) (steps : List Step) (k : ChangeId) :
    ((effects w steps).changes.get? k).map Change.reopen =
      (w.changes.get? k).map Change.reopen := by
  induction steps generalizing w with
  | nil => rfl
  | cons s steps ih =>
    show ((effects (s.effect w) steps).changes.get? k).map Change.reopen = _
    rw [ih]
    cases s with
    | swap b old new => rw [effect, changes_withTip]
    | mark k' t submitter =>
      rw [effect, get?_changes_withChange]
      split
      · next heq =>
        rw [heq, Option.map_map]
        rfl
      · rfl

end Step

/-! ### Undoing and the records -/

namespace Transaction

variable {w u u' : World} {log : List TakenStep} {s : TakenStep}

/-- The log after some steps were tried: those that failed are not in it. -/
def logged (results : List (Except Failure TakenStep)) : List TakenStep :=
  results.filterMap Except.toOption

theorem length_logged (results : List (Except Failure TakenStep)) :
    (logged results).length = results.countP Except.isOk := by
  rw [logged, List.length_filterMap_eq_countP]
  refine List.countP_congr fun r _ => ?_
  cases r <;> simp [Except.toOption, Except.isOk, Except.toBool]

/-- Steps are tried one after another: some are taken, each in its turn, and these are logged. -/
theorem run_mapM_take (w : World) (steps : List Step) :
    ∃ results done, w.run (steps.mapM Step.take) = (some results, Step.effects w done) ∧
      logged results = done.map Step.taken ∧ Step.InTurn w done := by
  induction steps generalizing w with
  | nil => exact ⟨[], [], rfl, rfl, trivial⟩
  | cons s steps ih =>
    by_cases hs : s.Possible w
    · obtain ⟨results, done, hrun, hlog, hturn⟩ := ih (s.effect w)
      refine ⟨.ok s.taken :: results, s :: done, ?_, ?_, hs, hturn⟩
      · rw [List.mapM_cons, run_bind_of (Step.run_take hs), run_bind_of hrun]
        rfl
      · show s.taken :: logged results = _
        rw [hlog]
        rfl
    · obtain ⟨f, hfail, -⟩ := Step.run_take_of_not_possible hs
      obtain ⟨results, done, hrun, hlog, hturn⟩ := ih w
      refine ⟨.error f :: results, done, ?_, hlog, hturn⟩
      rw [List.mapM_cons, run_bind_of hfail, run_bind_of hrun]
      rfl

/-- Undoing one step reopens the change that it marked. -/
theorem get?_changes_of_undo (hrun : u.run s.undo = (some (.ok ()), u')) (k : ChangeId) :
    u'.changes.get? k =
      if s = .markMerged k then (u.changes.get? k).map Change.reopen else u.changes.get? k := by
  cases s with
  | refSwap b old new =>
    rw [TakenStep.undo, run_ask] at hrun
    rcases u.answer_compareAndSwap b (some new) old with ⟨⟨e, hfail⟩, _⟩ | ⟨hok, _⟩
    · rw [hfail] at hrun
      cases hrun
    · rw [hok] at hrun
      cases hrun
      rw [changes_withTip, if_neg (by simp)]
  | markMerged k' =>
    rw [TakenStep.undo, run_ask] at hrun
    rcases u.answer_reopen k' with ⟨⟨e, hfail⟩, _⟩ | ⟨hok, _⟩
    · rw [hfail] at hrun
      cases hrun
    · rw [hok] at hrun
      cases hrun
      rw [get?_changes_withChange]
      by_cases hk : k = k'
      · simp [hk]
      · simp [hk, Ne.symm hk]

/-- Undoing a log reopens exactly the changes that it marks. -/
theorem get?_changes_of_unwind (hrun : u.run (unwind log) = (some (.ok ()), u')) (k : ChangeId) :
    u'.changes.get? k =
      if .markMerged k ∈ log then (u.changes.get? k).map Change.reopen
      else u.changes.get? k := by
  induction log generalizing u with
  | nil =>
    cases hrun
    simp
  | cons s log ih =>
    rw [unwind, run_bind] at hrun
    cases hundo : u.run s.undo with
    | mk r u₁ =>
      rw [hundo] at hrun
      cases r with
      | none => cases hrun
      | some r =>
        cases r with
        | error e => cases hrun
        | ok reply =>
          have hfirst := get?_changes_of_undo hundo k
          rw [ih hrun, hfirst]
          by_cases hs : s = .markMerged k
          · -- Reopening twice is reopening once.
            have hmem : .markMerged k ∈ s :: log := by simp [hs]
            rw [if_pos hs, if_pos hmem, Option.map_map]
            split <;> rfl
          · have hmem : .markMerged k ∈ s :: log ↔ .markMerged k ∈ log := by simp [Ne.symm hs]
            simp only [if_neg hs, hmem]

end Transaction

namespace Transaction

variable {w : World}

/-- Any steps are tried in a world where every branch is at a stored commit, and then the log is undone.
This succeeds, it undoes as many steps as were taken, and every branch is where it was.  The changes
that were marked are open without traces of a submission then, and no other record has changed.  So
all records are as they were exactly if every change that was marked was like this before. -/
theorem rollback_exact_iff (hstored : w.TipsStored) (steps : List Step) :
    ∃ results v u, w.run (steps.mapM Step.take) = (some results, v) ∧
      v.run (rollback (logged results)) = (some (.ok (results.countP Except.isOk)), u) ∧
      (∀ b, u.tip? b = w.tip? b) ∧
      (∀ k, u.changes.get? k =
        if .markMerged k ∈ logged results then (w.changes.get? k).map Change.reopen
        else w.changes.get? k) ∧
      ((∀ k, u.changes.get? k = w.changes.get? k) ↔
        ∀ k, .markMerged k ∈ logged results → ∀ c, w.changes.get? k = some c →
          c.isOpen = true ∧ c.submitter = none ∧ c.mergedAs = none) := by
  obtain ⟨results, done, hrun, hlog, hturn⟩ := run_mapM_take w steps
  have hstart : World.Restored (fun _ => True) (Step.effects w done) (Step.effects w done) :=
    .refl (Step.effects w done)
  obtain ⟨u, hunwind, hrestored⟩ := World.run_unwind hturn (hturn.stored hstored)
    (fun _ _ _ _ => trivial) hstart
  have hrollback : (Step.effects w done).run (rollback (logged results)) =
      (some (.ok (results.countP Except.isOk)), u) := by
    rw [hlog, rollback, run_bind_of hunwind, ← length_logged, hlog]
    rfl
  have hrecords : ∀ k, u.changes.get? k =
      if .markMerged k ∈ logged results then (w.changes.get? k).map Change.reopen
      else w.changes.get? k := by
    intro k
    have hmem : .markMerged k ∈ (done.map Step.taken).reverse ↔
        .markMerged k ∈ logged results := by rw [List.mem_reverse, hlog]
    rw [get?_changes_of_unwind hunwind, Step.map_reopen_effects]
    simp only [hmem]
    split
    · rfl
    · next hnot =>
      -- No step that was taken marks the change.
      refine Step.get?_changes_effects_of_not_marked fun t submitter hmark => hnot ?_
      rw [hlog]
      exact List.mem_map_of_mem (f := Step.taken) hmark
  refine ⟨results, _, u, hrun, hrollback, hrestored.tips, hrecords, fun hsame k hk c hc => ?_,
    fun hclean k => ?_⟩
  · have hreopened := hrecords k
    rw [hsame, if_pos hk, hc, Option.map_some] at hreopened
    exact Change.reopen_eq_iff.1 (Option.some.inj hreopened).symm
  · rw [hrecords]
    split
    · next hk =>
      cases hc : w.changes.get? k with
      | none => rfl
      | some c => rw [Option.map_some, Change.reopen_eq_iff.2 (hclean k hk c hc)]
    · rfl

end Transaction

namespace Sample

/-- A branch is moved twice, another one is created, and a change is marked twice.  A swap from where the
branch is not any more and a mark of a missing change fail in between. -/
def detour : List Step := [
  .swap (branch "p") (some root) x,
  .swap (branch "p") (some root) y,
  .mark 1 x actor.id,
  .swap (branch "p") (some x) y,
  .mark 9 x actor.id,
  .swap ⟨"p", "refs/heads/side"⟩ none x,
  .mark 1 y actor.id]

/-- What is logged of these. -/
def detourLog : List TakenStep := [
  .refSwap (branch "p") (some root) x,
  .markMerged 1,
  .refSwap (branch "p") (some x) y,
  .refSwap ⟨"p", "refs/heads/side"⟩ none x,
  .markMerged 1]

end Sample

namespace Transaction

/-- Five steps are taken and undone, and everything is as before. -/
theorem sample_rollback_exact :
    let w := Sample.siblings.world
    w.TipsStored ∧ ∃ results v u, w.run (Sample.detour.mapM Step.take) = (some results, v) ∧
      logged results = Sample.detourLog ∧ v.run (rollback (logged results)) = (some (.ok 5), u) ∧
      (∀ b, u.tip? b = w.tip? b) ∧ ∀ k, u.changes.get? k = w.changes.get? k := by
  intro w
  have hstored : w.TipsStored := by decide
  obtain ⟨results, v, u, hrun, hrollback, htips, -, hexact⟩ :=
    rollback_exact_iff hstored Sample.detour
  have hlog : (w.run (Sample.detour.mapM Step.take)).1.map logged = some Sample.detourLog := by
    decide
  rw [hrun] at hlog
  have hlog : logged results = Sample.detourLog := Option.some.inj hlog
  have hcount : results.countP Except.isOk = 5 := by
    rw [← length_logged, hlog]
    rfl
  refine ⟨hstored, results, v, u, hrun, hlog, hcount ▸ hrollback, htips, hexact.2 ?_⟩
  rw [hlog]
  intro k hk c hc
  have hone : k = 1 := by simpa [Sample.detourLog] using hk
  have hclean : ∀ c ∈ w.changes.get? 1,
      c.isOpen = true ∧ c.submitter = none ∧ c.mergedAs = none := by decide
  exact hclean c (hone ▸ hc)

end Transaction

namespace Sample

/-- The first of the siblings was abandoned. -/
def abandoned : World :=
  { siblings.world with
    changes := siblings.world.changes.insert 1 { change 1 "p" x with status := .abandoned } }

end Sample

namespace Transaction

/-- An abandoned change is marked and the mark is undone, which succeeds.  The change is open then. -/
theorem abandoned_change_reopened :
    let w := Sample.abandoned
    let mark := Step.mark 1 Sample.x Sample.actor.id
    w.TipsStored ∧ ∃ v u, w.run ([mark].mapM Step.take) = (some [.ok mark.taken], v) ∧
      v.run (rollback (logged [.ok mark.taken])) = (some (.ok 1), u) ∧
      (w.changes.get? 1).map (·.status) = some .abandoned ∧
      (u.changes.get? 1).map (·.status) = some .new ∧
      u.changes.get? 1 ≠ w.changes.get? 1 := by
  intro w mark
  refine ⟨by decide, _, _, rfl, rfl, ?_, ?_, ?_⟩
  · decide
  · decide
  · decide

end Transaction
end Landing
