import Landing.Proofs.Concurrency.Lineage
import Landing.Proofs.Concurrency.Records
import Landing.Proofs.Submission.Integrity

/-!
# Merges of submissions side by side

A submission that moves no branch is not protected by anything: nothing is checked
again between planning and marking.  So a change may be marked by two submissions,
and it may be marked as merged where its branch was only for a while
(`Pool.merged_twice_and_off_branch`).  This is all that can happen
(`Pool.merged_once_and_kept`):

* whoever lists a change was shown it as open, so this was before another submission
  marked it, or the change was reopened in between (`Pool.Lists.shown`);
* a branch leads to where it once was, unless the move to there is taken back
  (`Pool.upheld_or_undone`).  So the branch of a marked change leads to where the
  change was said to be merged, unless the submission had heard of a move that was taken
  back later (`Pool.Marked.leads_or_misled`).

The mark that counts is the last one, and with all submissions at rest it is that of a
successful submission (`Pool.success_of_last_mark`), as the others have reopened what
they had marked.
-/

namespace Landing

open World

variable {ι : Type} [DecidableEq ι] {σ τ : Pool ι} {requests : ι → Request} {w₀ : World}
variable {i j : ι} {k : ChangeId} {c : Change} {b : Branch} {t : CommitId}

namespace Pool

/-! ### What was seen of a branch -/

theorem Live.mem_turns {old : Option CommitId} {new : CommitId} (hlive : σ.Live b i old new) :
    (i, ⟨.compareAndSwap b old (some new), .ok ()⟩) ∈ σ.turns :=
  mem_accepted_swap.1 (mem_swaps.1 (by rw [hlive]; simp))

/-- The branch was at `t` in `σ`.  In `τ` it leads there, and so did the tips where the moves since
then began. -/
structure Upheld (σ τ : Pool ι) (b : Branch) (t : CommitId) : Prop where
  tip : BeganAbove τ.world b (τ.world.tip? b) t
  moves : ∀ l old new, τ.Live b l old new → σ.Live b l old new ∨ BeganAbove τ.world b old t

variable {ρ : Pool ι}

/-- In a step this stays so, unless the move to `t` is taken back. -/
theorem Upheld.step (h : Upheld σ ρ b t) (hacyclic : w₀.Acyclic) (haddressed : w₀.ContentAddressed)
    (hrun : (start w₀ requests).Runs Quiet σ) (hwas : σ.world.tip? b = some t)
    (hlater : σ.Runs Quiet ρ) (hstep : Step Quiet ρ τ)
    (hfree : Set.InjOn Draft.id (τ.drafts requests)) :
    Upheld σ τ b t ∨ ∃ l old, σ.Live b l old t ∧
      τ.turns = ρ.turns ++ [(l, ⟨.compareAndSwap b (some t) old, .ok ()⟩)] := by
  have hfree' := hfree.mono hstep.drafts_subset
  have hstored := hstep.outlives.stored
  have hrunρ := hrun.trans hlater
  rcases hstep.branch_cases b with ⟨htip, hswaps⟩ | ⟨i, old, tip, hold, hnew, hturns⟩
  · refine .inl ⟨?_, fun l old new hl => ?_⟩
    · rw [htip]
      exact h.tip.stored hstored
    · rw [Live, hswaps] at hl
      exact (h.moves l old new hl).imp_right (·.stored hstored)
  have hbegan := h.tip
  rw [hold] at hbegan
  obtain ⟨hothers, hmove⟩ := swaps_of_move (hrunρ.tail hstep) hturns
  have hrest : ∀ l, l ≠ i → ∀ old' new', τ.Live b l old' new' →
      σ.Live b l old' new' ∨ BeganAbove τ.world b old' t := fun l hli old' new' hl =>
    (h.moves l old' new' ((hothers l hli old' new').1 hl)).imp_right (·.stored hstored)
  rcases hmove with ⟨new, rfl, hlive⟩ | ⟨new, rfl, hlive, hgone⟩
  · -- The branch is moved on.
    obtain ⟨y, rfl, hleads⟩ := hbegan.stored hstored
    have hup := (hlive.leads haddressed (hrunρ.tail hstep) hfree).to_reflTransGen
    refine .inl ⟨⟨new, hnew, hup.trans hleads⟩, fun l old' new' hl => ?_⟩
    by_cases hli : l = i
    · subst hli
      cases hl.symm.trans hlive
      exact .inr ⟨y, rfl, hleads⟩
    · exact hrest l hli old' new' hl
  · -- A move is taken back.
    rcases h.moves i tip new hlive with hbefore | hsince
    · right
      -- In `σ` the tip led to where this move went, which leads to `t` by now.
      have hlineage := lineage_of_runs hacyclic haddressed hrun
        (hfree'.mono (drafts_subset_of_runs hlater)) b
      obtain ⟨z, hz, hbelow⟩ := hlineage.below_tip i tip new hbefore
      cases hwas.symm.trans hz
      obtain ⟨z, hz, habove⟩ := hbegan
      cases hz
      have hsame : new = t := by
        by_contra hne
        have hup := (Relation.reflTransGen_iff_eq_or_transGen.1 habove).resolve_left (Ne.symm hne)
        exact acyclic_of_runs hacyclic haddressed hrunρ hfree' b.project new
          (hup.trans_left ((outlives_of_runs hlater).stored.leads hbelow))
      subst hsame
      exact ⟨i, tip, hbefore, hturns⟩
    · refine .inl ⟨?_, fun l old' new' hl => hrest l ?_ old' new' hl⟩
      · rw [hnew]
        exact hsince.stored hstored
      · rintro rfl
        exact hgone old' new' hl

/-- Where a branch once was it leads from then on, unless the move to there is taken back. -/
theorem upheld_or_undone (hacyclic : w₀.Acyclic) (haddressed : w₀.ContentAddressed)
    (hrun : (start w₀ requests).Runs Quiet σ) (hwas : σ.world.tip? b = some t)
    (hlater : σ.Runs Quiet τ) (hfree : Set.InjOn Draft.id (τ.drafts requests)) :
    Upheld σ τ b t ∨ ∃ l old ys, τ.turns = σ.turns ++ ys ∧ σ.Live b l old t ∧
      (l, ⟨.compareAndSwap b (some t) old, .ok ()⟩) ∈ ys := by
  induction hlater with
  | refl => exact .inl ⟨⟨t, hwas, .refl⟩, fun _ _ _ h => .inl h⟩
  | @tail ρ τ hlater hstep ih =>
    rcases ih (hfree.mono hstep.drafts_subset) with h | ⟨l, old, ys, hys, hlive, hback⟩
    · refine (h.step hacyclic haddressed hrun hwas hlater hstep hfree).imp_right ?_
      rintro ⟨l, old, hlive, hturns⟩
      obtain ⟨ys, hys⟩ := Runs.turns_prefix hlater
      refine ⟨l, old, ys ++ [_], ?_, hlive, List.mem_append_right ys List.mem_cons_self⟩
      rw [hturns, ← hys, List.append_assoc]
    · right
      obtain ⟨zs, hzs⟩ := Runs.turns_prefix (.single hstep)
      exact ⟨l, old, ys ++ zs, by rw [← hzs, hys, List.append_assoc], hlive,
        List.mem_append_left _ hback⟩

/-! ### The start world -/

/-- What is asked of the world where the submissions start: refs and the branches of changes have full
names, no change is merged, and the history is in order. -/
structure Fit (w₀ : World) : Prop where
  refs : w₀.RefsQualified
  changes : ∀ k c, w₀.changes.get? k = some c → c.dest.IsQualified ∧ c.status ≠ .merged
  keyed : w₀.Keyed
  acyclic : w₀.Acyclic
  addressed : w₀.ContentAddressed

/-- The changes of a plan were there from the beginning. -/
theorem Basis.exists_origin {p : Plan} {v : World} (h : σ.Basis i p v) (hkeyed : w₀.Keyed)
    (hrun : (start w₀ requests).Runs Nobody σ) (hc : c ∈ p.batch.changes) :
    ∃ c₀, w₀.changes.get? c.id = some c₀ ∧ c₀.dest = c.dest := by
  obtain ⟨x, hx, hshown⟩ := (h.made.shown c hc).1
  exact exists_origin_of_shown hkeyed hrun hx hshown

/-- Only branches with full names are moved, so all refs keep having full names. -/
theorem qualified_of_runs (hfit : Fit w₀) (hrun : (start w₀ requests).Runs Nobody σ) :
    σ.world.RefsQualified := by
  induction hrun with
  | refl => exact hfit.refs
  | @tail σ τ hrun hstep ih =>
    intro b tip htip
    have hrunτ := hrun.tail hstep
    rcases (hstep.mono fun _ _ h => h.elim : Step Quiet σ τ).branch_cases b with
      ⟨hsame, _⟩ | ⟨i, old, new, _, _, hturns⟩
    · exact ih b tip (hsame ▸ htip)
    have hmoved : .compareAndSwap b old new ∈ τ.accepted i := by
      rw [mem_accepted_swap, hturns]
      simp
    obtain ⟨p, hpursuing⟩ := exists_plan_of_order hrunτ hmoved id
    obtain ⟨old', new', hswap⟩ := hpursuing.exists_swap hmoved
    obtain ⟨bp, hbp, rfl, _⟩ := Plan.swap_mem_steps.1 hswap
    obtain ⟨v, hbasis⟩ := (planned_of_pursuing hpursuing).exists_basis (Runs.quiet hrunτ)
    obtain ⟨c, hc, hdest⟩ := hbasis.made.exists_change_of_moving hbp
    obtain ⟨c₀, hc₀, hsame⟩ := hbasis.exists_origin hfit.keyed hrunτ hc
    rw [← hdest, ← hsame]
    exact (hfit.changes c.id c₀ hc₀).1

/-! ### Who has marked a change -/

/-- Every submission has come to its end, and none has failed to undo what it did. -/
structure AtRest (σ : Pool ι) : Prop where
  ended : ∀ i, (σ.programs i).ending ≠ .underway
  undone : ∀ i f, (σ.programs i).ending = .failure f → f.IsForward

/-- The submission has marked the change as merged. -/
def Marked (σ : Pool ι) (i : ι) (k : ChangeId) (t : CommitId) : Prop :=
  ∃ submitter, (i, ⟨.markMerged k t submitter, .ok ()⟩) ∈ σ.turns

/-- A submission that has marked a change has a plan to do so. -/
theorem Marked.exists_plan (h : σ.Marked i k t) (hrun : (start w₀ requests).Runs Nobody σ) :
    ∃ p, Submission.Pursuing (requests i).planning (σ.heard i) (σ.programs i).ending p ∧
      ∃ bp ∈ p.branches, bp.newTip = some t ∧ k ∈ bp.changes := by
  obtain ⟨submitter, hturn⟩ := h
  have hmarked : .markMerged k t submitter ∈ σ.accepted i := mem_accepted_turn.2 ⟨(), hturn⟩
  obtain ⟨p, hpursuing⟩ := exists_plan_of_order hrun hmarked id
  exact ⟨p, hpursuing, (Plan.mark_mem_steps.1 (hpursuing.mark_mem_steps hmarked)).1⟩

/-- The last submission that marked a change, if the change was not reopened since, has succeeded. -/
theorem success_of_last_mark (hrest : σ.AtRest) (hrun : (start w₀ requests).Runs Nobody σ)
    {before after : List (ι × Exchange)} {submitter : AccountId}
    (hturns : σ.turns = before ++ (i, ⟨.markMerged k t submitter, .ok ()⟩) :: after)
    (hkept : ∀ j, (j, ⟨.reopen k, .ok ()⟩) ∉ after) : (σ.programs i).ending = .success := by
  have hmarked : .markMerged k t submitter ∈ σ.accepted i :=
    mem_accepted_turn.2 ⟨(), by simp [hturns]⟩
  obtain ⟨p, hpursuing⟩ := exists_plan_of_order hrun hmarked id
  cases hend : (σ.programs i).ending with
  | underway => exact absurd hend (hrest.ended i)
  | exhausted => exact absurd hend hpursuing.not_exhausted
  | success => rfl
  | failure f =>
    obtain ⟨⟨⟩, hreopened⟩ :=
      mem_accepted_turn.1 (hpursuing.reopened hend (hrest.undone i f hend) hmarked)
    rw [hturns, List.mem_append, List.mem_cons] at hreopened
    rcases hreopened with hbefore | hnow | hafter
    · -- When it marked the change it had not reopened any.
      obtain ⟨ρ, ρ', hrunρ, hρ, hstep, hturn, _⟩ := exists_turn_of_runs hrun hturns
      have hlast : (ρ'.accepted i).getLast? = some (.markMerged k t submitter) := by
        rw [accepted_of_turns hturn, if_pos rfl]
        exact List.getLast?_concat
      have hreopened : .reopen k ∈ ρ'.accepted i := by
        refine mem_accepted_turn.2 ⟨(), ?_⟩
        rw [hturn, hρ]
        exact List.mem_append_left _ hbefore
      obtain ⟨q, hthen⟩ := exists_plan_of_order (hrunρ.tail hstep) hreopened id
      exact absurd hreopened (hthen.not_reopened hlast k)
    · cases hnow
    · exact absurd hafter (hkept i)

/-! ### Where merged changes are -/

/-- The submission was told that the branch was at `t` when another one, which did not succeed, had
moved the branch there and had not yet moved it back. -/
def Misled (σ : Pool ι) (i : ι) (b : Branch) (t : CommitId) : Prop :=
  ∃ l old tips, (σ.programs l).ending ≠ .success ∧ (b, t) ∈ tips ∧
    [(l, ⟨.compareAndSwap b old (some t), .ok ()⟩), (i, ⟨.branches b.project, .ok tips⟩),
      (l, ⟨.compareAndSwap b (some t) old, .ok ()⟩)].Sublist σ.turns

/-- A submission that moves a branch back does not succeed. -/
theorem Live.not_success (hlive : σ.Live b i old t) (hrun : (start w₀ requests).Runs Quiet σ)
    (hlater : σ.Runs Quiet τ) {ys : List (ι × Exchange)} (hturns : τ.turns = σ.turns ++ ys)
    (hback : (i, ⟨.compareAndSwap b (some t) old, .ok ()⟩) ∈ ys) :
    (τ.programs i).ending ≠ .success := by
  -- The move back is a second move of the branch.
  have hmore : ∃ move moves, swaps b (τ.accepted i) = (old, some t) :: move :: moves := by
    have hheard : τ.heard i = σ.heard i ++ ys.filterMap fun s => if s.1 = i then some s.2 else none := by
      rw [heard, hturns, List.filterMap_append]
      rfl
    have hmem : (some t, old) ∈
        swaps b (Landing.accepted (ys.filterMap fun s => if s.1 = i then some s.2 else none)) := by
      refine mem_swaps.2 (mem_accepted.2 ⟨⟨_, .ok ()⟩, ?_, rfl, (), rfl⟩)
      exact List.mem_filterMap.2 ⟨_, hback, if_pos rfl⟩
    obtain ⟨move, moves, heq⟩ := List.exists_cons_of_ne_nil (List.ne_nil_of_mem hmem)
    refine ⟨move, moves, ?_⟩
    rw [accepted, hheard, accepted_append, swaps_append, heq]
    exact congrArg (· ++ move :: moves) hlive
  obtain ⟨move, moves, hmoves⟩ := hmore
  rcases swaps_of_runs (hrun.trans hlater) b i with
    hnone | ⟨_, old', new, _, _, _, hone | ⟨_, hfailed⟩⟩
  · rw [hmoves] at hnone
    cases hnone
  · rw [Live, hmoves] at hone
    cases hone
  · exact hfailed

/-- Where a submission was told that a branch was, the branch leads to, or the submission was misled. -/
theorem leads_or_misled (hfit : Fit w₀) (hrun : (start w₀ requests).Runs Nobody σ)
    (hfree : Set.InjOn Draft.id (σ.drafts requests)) {tips : List (Branch × CommitId)}
    (htold : (i, ⟨.branches b.project, .ok tips⟩) ∈ σ.turns) (hmem : (b, t) ∈ tips) :
    (∃ tip, σ.world.tip? b = some tip ∧ σ.world.Leads [] b.project tip t) ∨ σ.Misled i b t := by
  obtain ⟨before, after, hturns⟩ := List.append_of_mem htold
  obtain ⟨ρ, ρ', hrunρ, hρ, hstep, hturn, hlater⟩ := exists_turn_of_runs hrun hturns
  obtain ⟨hanswer, _⟩ := hstep.answered hturn ⟨tips, rfl⟩
  have hlisted : ρ.world.branches b.project = .ok tips := hanswer.symm
  have hwas := (qualified_of_runs hfit hrunρ).tip?_of_mem_branches hlisted hmem
  have hrest : ρ.Runs Quiet σ := Runs.quiet (hlater.head hstep)
  rcases upheld_or_undone hfit.acyclic hfit.addressed (Runs.quiet hrunρ) hwas hrest hfree with
    hup | ⟨l, old, ys, hys, hlive, hback⟩
  · exact .inl hup.tip
  · right
    refine ⟨l, old, tips, hlive.not_success (Runs.quiet hrunρ) hrest hys hback, hmem, ?_⟩
    have hbefore : (l, ⟨.compareAndSwap b old (some t), .ok ()⟩) ∈ before := by
      have hmoved := hlive.mem_turns
      rwa [hρ] at hmoved
    have hafter : (l, ⟨.compareAndSwap b (some t) old, .ok ()⟩) ∈ after := by
      rw [hρ, hturns] at hys
      rw [← List.append_cancel_left hys] at hback
      exact (List.mem_cons.1 hback).resolve_left nofun
    rw [hturns]
    exact (List.singleton_sublist.2 hbefore).append ((List.singleton_sublist.2 hafter).cons_cons _)

/-- The branch of a change that a successful submission has marked leads to where the change was said to
be merged, or the submission was misled and has not moved the branch. -/
theorem Marked.leads_or_misled (hmarked : σ.Marked i k t) (hended : (σ.programs i).ending = .success)
    (hfit : Fit w₀) (hrun : (start w₀ requests).Runs Nobody σ)
    (hfree : Set.InjOn Draft.id (σ.drafts requests)) (hget : σ.world.changes.get? k = some c) :
    (∃ tip, σ.world.tip? c.dest = some tip ∧ σ.world.Leads [] c.dest.project tip t) ∨
      (∀ old new, (i, ⟨.compareAndSwap c.dest old new, .ok ()⟩) ∉ σ.turns) ∧
        σ.Misled i c.dest t := by
  have hquiet := Runs.quiet hrun
  obtain ⟨p, hpursuing, bp, hbp, htip, hk⟩ := hmarked.exists_plan hrun
  obtain ⟨v, hbasis⟩ := (planned_of_pursuing hpursuing).exists_basis hquiet
  -- The plan of the branch is the one for the branch of the change.
  have hbranch : bp.branch = c.dest := by
    obtain ⟨shown, hshown, rfl, hdest⟩ := (hbasis.made.mem_changes_iff hbp).1 hk
    obtain ⟨c₀, hc₀, hsame⟩ := hbasis.exists_origin hfit.keyed hrun hshown
    obtain ⟨c₀', hc₀', hsame'⟩ := exists_origin hrun hget
    cases hc₀.symm.trans hc₀'
    rw [← hdest, ← hsame, hsame']
  rw [← hbranch]
  by_cases hmoves : bp.movesRef = true
  · -- It has moved the branch there.
    have hswap : Step.swap bp.branch bp.oldTip t ∈ p.steps :=
      Plan.swap_mem_steps.2 ⟨bp, Plan.mem_moving.2 ⟨hbp, hmoves⟩, rfl, rfl, htip⟩
    have hmoved := mem_accepted_swap.1 ((hpursuing.of_success hended).2 _ hswap)
    obtain ⟨new, heq, hlive⟩ := live_of_success hquiet .refl hmoved hended
    cases heq
    exact .inl ((lineage_of_runs hfit.acyclic hfit.addressed hquiet hfree bp.branch).below_tip
      i bp.oldTip t hlive)
  · -- It was told that the branch was there.
    have hold : bp.oldTip = some t := by
      by_contra hne
      exact hmoves (BranchPlan.movesRef_iff.2 ⟨t, htip, hne⟩)
    obtain ⟨s, _, hof⟩ := hbasis.made.exists_segment hbp
    obtain ⟨tips, htips, hfound⟩ := hof.oldTip_eq
    rw [hold, ← hof.branch_eq] at hfound
    rw [← hof.branch_eq] at htips
    obtain ⟨r, hr, hrt⟩ := Option.map_eq_some_iff.1 hfound.symm
    have hrmem := List.mem_of_find?_eq_some hr
    have hrb : r.1 = bp.branch := by
      have hfits := List.find?_some hr
      exact eq_of_beq hfits
    have hmem : (bp.branch, t) ∈ tips := by
      rwa [← hrb, ← hrt]
    refine (Pool.leads_or_misled hfit hrun hfree (hbasis.listed _ tips r htips hrmem) hmem).imp_right
      fun hmisled => ⟨fun old new hmoved => ?_, hmisled⟩
    obtain ⟨old', new', hswap⟩ := hpursuing.exists_swap (mem_accepted_swap.2 hmoved)
    obtain ⟨bp', hbp', hsame, _⟩ := Plan.swap_mem_steps.1 hswap
    obtain ⟨hbranch', hmoves'⟩ := Plan.mem_moving.1 hbp'
    rw [List.inj_on_of_nodup_map hbasis.made.nodup_branches hbranch' hbp hsame] at hmoves'
    exact hmoves hmoves'

/-! ### Marking twice -/

/-- The submission was shown the change as open before the other one marked it. -/
def ShownBefore (σ : Pool ι) (j i : ι) (k : ChangeId) : Prop :=
  ∃ x, x.ShowsOpen k ∧ ∃ t submitter,
    [(j, x), (i, ⟨.markMerged k t submitter, .ok ()⟩)].Sublist σ.turns

/-- The submission was shown the change as open after the other one had marked it, as a third one, which
did not succeed, had reopened it.  The third one had failed to mark a change that exists. -/
def ShownReopened (w₀ : World) (σ : Pool ι) (j i : ι) (k : ChangeId) : Prop :=
  ∃ x, x.ShowsOpen k ∧ ∃ l t submitter, (σ.programs l).ending ≠ .success ∧
    [(i, ⟨.markMerged k t submitter, .ok ()⟩), (l, ⟨.reopen k, .ok ()⟩), (j, x)].Sublist σ.turns ∧
    ∃ k' t' submitter' e, (l, ⟨.markMerged k' t' submitter', .error e⟩) ∈ σ.turns ∧
      (w₀.changes.get? k').isSome

/-- A submission reopens changes only when it fails, since it could not mark a change that exists. -/
theorem failed_of_reopened (hkeyed : w₀.Keyed) (hrun : (start w₀ requests).Runs Nobody σ)
    (hturn : (i, ⟨.reopen k, .ok ()⟩) ∈ σ.turns) : (σ.programs i).ending ≠ .success ∧
      ∃ k' t' submitter e, (i, ⟨.markMerged k' t' submitter, .error e⟩) ∈ σ.turns ∧
        (w₀.changes.get? k').isSome := by
  have hreopened : .reopen k ∈ σ.accepted i := mem_accepted_turn.2 ⟨(), hturn⟩
  obtain ⟨p, hpursuing⟩ := exists_plan_of_order hrun hreopened id
  obtain ⟨hended, k', t', submitter, e, hmark, hfailed⟩ := hpursuing.of_reopened hreopened
  obtain ⟨⟨bp, hbp, _, hk'⟩, _⟩ := Plan.mark_mem_steps.1 hmark
  obtain ⟨v, hbasis⟩ := (planned_of_pursuing hpursuing).exists_basis (Runs.quiet hrun)
  obtain ⟨c, hc, rfl, _⟩ := (hbasis.made.mem_changes_iff hbp).1 hk'
  obtain ⟨c₀, hc₀, _⟩ := hbasis.exists_origin hkeyed hrun hc
  exact ⟨hended, c.id, t', submitter, e, mem_heard.1 hfailed, Option.isSome_iff_exists.2 ⟨c₀, hc₀⟩⟩

/-- The submission has succeeded, and it lists the change among those that went in. -/
def Lists (σ : Pool ι) (i : ι) (k : ChangeId) : Prop :=
  ∃ outcome, σ.programs i = .done (.ok outcome) ∧ k ∈ outcome.merged

/-- A submission that lists a change that another one has marked was shown it as open before that, or
after it was reopened. -/
theorem Lists.shown (hj : σ.Lists j k) (hi : σ.Marked i k t) (hkeyed : w₀.Keyed)
    (hrun : (start w₀ requests).Runs Nobody σ) :
    σ.ShownBefore j i k ∨ ShownReopened w₀ σ j i k := by
  obtain ⟨outcome, hended, hlisted⟩ := hj
  obtain ⟨p, hpursuing, hend⟩ : ∃ p, Submission.Pursuing (requests j).planning (σ.heard j)
      (σ.programs j).ending p ∧ ∀ o, σ.programs j = .done (.ok o) →
        o = ⟨p.tips, p.batch.changes.map (·.id)⟩ :=
    (course_of_runs hrun j).resolve_left fun hasking => hasking.no_success (by rw [hended]; rfl)
  rw [hend outcome hended] at hlisted
  obtain ⟨c, hc, rfl⟩ := List.mem_map.1 hlisted
  obtain ⟨v, hbasis⟩ := (planned_of_pursuing hpursuing).exists_basis (Runs.quiet hrun)
  obtain ⟨⟨x, hx, hshown⟩, hopen⟩ := hbasis.made.shown c hc
  obtain ⟨submitter, hmark⟩ := hi
  obtain ⟨before, after, hturns⟩ := List.append_of_mem hmark
  rw [hturns, List.mem_append, List.mem_cons] at hx
  rcases hx with hbefore | hnow | hafter
  · refine .inl ⟨x, ⟨c, hshown, rfl, hopen⟩, t, submitter, ?_⟩
    rw [hturns]
    exact (List.singleton_sublist.2 hbefore).append (List.singleton_sublist.2 (List.mem_cons_self ..))
  · -- Marking shows nothing.
    cases hnow
    exact hshown.elim
  right
  obtain ⟨ρ, ρ', hrunρ, hρ, hstep, hturn, hlater⟩ := exists_turn_of_runs hrun hturns
  obtain ⟨between, rest, rfl⟩ := List.append_of_mem hafter
  have hrunρ' := hrunρ.tail hstep
  have hturns' : σ.turns = ρ'.turns ++ between ++ (j, x) :: rest := by
    rw [hturn, hρ, hturns]
    simp
  obtain ⟨π, hlater', hπ, hget⟩ := exists_shown hkeyed hrunρ' hlater hturns' hshown
  obtain ⟨ys, hys, hstate⟩ := merged_or_reopened hlater' (hstep.merged_of_mark hturn)
  rcases hstate with ⟨c', hget', hmerged⟩ | ⟨l, hl⟩
  · -- What is shown as open is not merged.
    cases hget.symm.trans hget'
    rw [Change.isOpen, hmerged] at hopen
    cases hopen
  rw [hπ] at hys
  rw [← List.append_cancel_left hys] at hl
  have hreopened : (l, ⟨.reopen c.id, .ok ()⟩) ∈ σ.turns := by
    rw [hturns']
    exact List.mem_append_left _ (List.mem_append_right _ hl)
  have hfailed' := failed_of_reopened hkeyed hrun hreopened
  refine ⟨x, ⟨c, hshown, rfl, hopen⟩, l, t, submitter, hfailed'.1, ?_, hfailed'.2⟩
  rw [hturns]
  refine List.Sublist.append (List.nil_sublist before) (.cons_cons _ ?_)
  exact (List.singleton_sublist.2 hl).append (List.singleton_sublist.2 (List.mem_cons_self ..))

/-- Of two successful submissions that have moved a branch one moved it from where the other one had put
it, or from above. -/
theorem moves_stacked (hfit : Fit w₀) (hrun : (start w₀ requests).Runs Quiet σ)
    (hfree : Set.InjOn Draft.id (σ.drafts requests)) (hij : i ≠ j) {old old' : Option CommitId}
    {new new' : CommitId} (hi : (i, ⟨.compareAndSwap b old (some new), .ok ()⟩) ∈ σ.turns)
    (hj : (j, ⟨.compareAndSwap b old' (some new'), .ok ()⟩) ∈ σ.turns)
    (hiended : (σ.programs i).ending = .success) (hjended : (σ.programs j).ending = .success) :
    BeganAbove σ.world b old new' ∨ BeganAbove σ.world b old' new := by
  obtain ⟨_, heq, hilive⟩ := live_of_success hrun .refl hi hiended
  cases heq
  obtain ⟨_, heq, hjlive⟩ := live_of_success hrun .refl hj hjended
  cases heq
  exact (lineage_of_runs hfit.acyclic hfit.addressed hrun hfree b).ordered i j old new old' new' hij
    hilive hjlive

end Pool

/-! ### The race again -/

namespace Sample

open Pool World

theorem pair_fit : Fit pair where
  refs := by decide +kernel
  changes := Table.forall_get?_iff.2 (by decide +kernel)
  keyed := by decide +kernel
  acyclic := pair_acyclic
  addressed := pair_contentAddressed

/-- How the race ends. -/
theorem raced_ended :
    let τ := raced (contest ++ remainder)
    τ.programs 0 = .done (.error (.concurrentModification (branch "p") (some root) (some y))) ∧
      τ.programs 1 = .done (.ok ⟨Table.empty.insert (branch "p") y, [1, 2]⟩) ∧
      τ.programs 2 = .done (.ok ⟨Table.empty, [1, 2]⟩) := by
  simp only [← Program.result?_eq_some]
  decide +kernel

theorem raced_atRest : (raced (contest ++ remainder)).AtRest := by
  obtain ⟨hfirst, hsecond, hthird⟩ := raced_ended
  refine ⟨fun i => ?_, fun i => ?_⟩
  · match i with
    | 0 => simp [hfirst, Program.ending]
    | 1 => simp [hsecond, Program.ending]
    | 2 => simp [hthird, Program.ending]
  · match i with
    | 0 => simp [hfirst, Program.ending, Failure.IsForward]
    | 1 => simp [hsecond, Program.ending]
    | 2 => simp [hthird, Program.ending]

/-- The second submission has marked the first change, and so has the third one. -/
theorem raced_marked :
    let τ := raced (contest ++ remainder)
    τ.Marked 1 1 x ∧ τ.Marked 2 1 x := by
  have hmarks : ∀ i ∈ [1, 2], StoreCall.markMerged 1 x actor.id ∈
      (raced (contest ++ remainder)).accepted i := by decide +kernel
  obtain ⟨⟨⟩, hsecond⟩ := mem_accepted_turn.1 (hmarks 1 (by decide))
  obtain ⟨⟨⟩, hthird⟩ := mem_accepted_turn.1 (hmarks 2 (by decide))
  exact ⟨⟨actor.id, hsecond⟩, ⟨actor.id, hthird⟩⟩

theorem raced_lists :
    let τ := raced (contest ++ remainder)
    τ.Lists 1 1 ∧ τ.Lists 2 1 := by
  obtain ⟨_, hsecond, hthird⟩ := raced_ended
  exact ⟨⟨_, hsecond, by decide⟩, ⟨_, hthird, by decide⟩⟩

/-- In the end the first change is merged, and its branch does not lead to where the change is said to be
merged, since the branch was moved back. -/
theorem raced_merged : let τ := raced (contest ++ remainder)
    ∃ c, τ.world.changes.get? 1 = some c ∧ c.status = .merged ∧ c.dest = dev ∧
      ¬ τ.world.OnBranch c := by
  intro τ
  obtain ⟨hrecord, hback, hroot⟩ : τ.world.changes.get? 1 =
        some (((Change.create 1 dev actor.id x).withTopic "t").markMerged x actor.id) ∧
      τ.world.tip? dev = some root ∧ τ.world.commit? "p" root = some first := by
    decide +kernel
  refine ⟨_, hrecord, rfl, rfl, ?_⟩
  rintro ⟨merged, tip, hmerged, htip, hleads⟩
  have hx : x = merged := Option.some.inj hmerged
  rw [show Change.dest _ = dev from rfl, hback] at htip
  have hroot' : root = tip := Option.some.inj htip
  rw [← hroot', ← hx] at hleads
  exact absurd (hleads.eq_of_no_parents hroot rfl) (by decide)

end Sample

namespace Pool

/-- Submissions run side by side on a world where no change is merged; they take turns in any order, any
of their calls may be refused, and nobody else writes.  When all have come to their ends, and none has
failed to undo what it did, then:

* a successful submission that lists a change which another one has marked as merged was shown it as
  open before that, unless a third one, which failed, had reopened it;
* of two successful submissions that have moved a branch one moved it from where the other one had
  put it, or from above;
* the branch of a change that is merged leads to where it is said to be merged, unless the submission
  that has marked it did not move the branch, and was told that it was there by a move that was taken
  back. -/
theorem merged_once_and_kept (hfit : Fit w₀) (hrun : (start w₀ requests).Runs Nobody σ)
    (hrest : σ.AtRest) (hfree : Set.InjOn Draft.id (σ.drafts requests)) :
    (∀ i j k t, σ.Marked i k t → σ.Lists j k →
      σ.ShownBefore j i k ∨ ShownReopened w₀ σ j i k) ∧
    (∀ i j b old new old' new', i ≠ j →
      (σ.programs i).ending = .success → (σ.programs j).ending = .success →
      (i, ⟨.compareAndSwap b old (some new), .ok ()⟩) ∈ σ.turns →
      (j, ⟨.compareAndSwap b old' (some new'), .ok ()⟩) ∈ σ.turns →
      BeganAbove σ.world b old new' ∨ BeganAbove σ.world b old' new) ∧
    ∀ k c, σ.world.changes.get? k = some c → c.status = .merged →
      ∃ i merged, c.mergedAs = some merged ∧ σ.Marked i k merged ∧
        (σ.programs i).ending = .success ∧
        (σ.world.OnBranch c ∨
          (∀ old new, (i, ⟨.compareAndSwap c.dest old new, .ok ()⟩) ∉ σ.turns) ∧
            σ.Misled i c.dest merged) := by
  refine ⟨fun i j k t hi hj => hj.shown hi hfit.keyed hrun, ?_, fun k c hget hmerged => ?_⟩
  · intro i j b old new old' new' hij hiended hjended hi hj
    exact moves_stacked hfit (Runs.quiet hrun) hfree hij hi hj hiended hjended
  · obtain ⟨i, t, submitter, before, after, hturns, hmergedAs, hkept⟩ :=
      exists_mark_of_merged (fun k c hc => (hfit.changes k c hc).2) hrun hget hmerged
    have hmarked : σ.Marked i k t := ⟨submitter, by simp [hturns]⟩
    have hended := success_of_last_mark hrest hrun hturns hkept
    refine ⟨i, t, hmergedAs, hmarked, hended, ?_⟩
    refine (hmarked.leads_or_misled hended hfit hrun hfree hget).imp_left ?_
    rintro ⟨tip, htip, hleads⟩
    exact ⟨t, tip, hmergedAs, htip, hleads⟩

open Sample in
/-- In the race the second and the third submission list the first change, which both were shown before,
and the one that has marked it last was misled. -/
theorem sample_merged_once_and_kept :
    let τ := raced (contest ++ remainder)
    Fit pair ∧ (start pair rivals).Runs Nobody τ ∧ τ.AtRest ∧
      Set.InjOn Draft.id (τ.drafts rivals) ∧ τ.Marked 1 1 x ∧ τ.Lists 2 1 ∧
      (τ.ShownBefore 2 1 1 ∨ ShownReopened pair τ 2 1 1) ∧
      ∃ i merged, τ.Marked i 1 merged ∧ (τ.programs i).ending = .success ∧ τ.Misled i dev merged := by
  dsimp only
  have hrun := runs_raced Nobody (contest ++ remainder)
  have hall := merged_once_and_kept pair_fit hrun raced_atRest raced_injOn.2
  obtain ⟨c, hget, hmerged, hdest, hoff⟩ := raced_merged
  obtain ⟨i, merged, _, hmarked, hended, hwhere⟩ := hall.2.2 1 c hget hmerged
  obtain ⟨_, hmisled⟩ := hwhere.resolve_left hoff
  rw [hdest] at hmisled
  exact ⟨pair_fit, hrun, raced_atRest, raced_injOn.2, raced_marked.1, raced_lists.2,
    hall.1 1 2 1 x raced_marked.1 raced_lists.2, i, merged, hmarked, hended, hmisled⟩

open Sample in
/-- In the race two successful submissions have marked the first change, and they list it.  In the end it
is recorded as merged, and its branch does not lead to where it is said to be merged. -/
theorem merged_twice_and_off_branch :
    let τ := raced (contest ++ remainder)
    Fit pair ∧ (start pair rivals).Runs Nobody τ ∧ τ.AtRest ∧
      Set.InjOn Draft.id (τ.drafts rivals) ∧
      (τ.Lists 1 1 ∧ τ.Marked 1 1 x) ∧ (τ.Lists 2 1 ∧ τ.Marked 2 1 x) ∧
      ∃ c, τ.world.changes.get? 1 = some c ∧ c.status = .merged ∧ ¬ τ.world.OnBranch c := by
  dsimp only
  obtain ⟨c, hget, hmerged, _, hoff⟩ := raced_merged
  exact ⟨pair_fit, runs_raced Nobody (contest ++ remainder), raced_atRest, raced_injOn.2,
    ⟨raced_lists.1, raced_marked.1⟩, ⟨raced_lists.2, raced_marked.2⟩, c, hget, hmerged, hoff⟩

end Pool
end Landing
