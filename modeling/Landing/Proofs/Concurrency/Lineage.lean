import Landing.Proofs.Concurrency.Schedule

/-!
# No move of a branch is lost

A submission that fails moves the branches back that it has moved.  In between
others may have planned on what they saw.  Still, a move that is not taken back by
the submission that made it stays (`Pool.no_move_lost`).

A move is live while it was not taken back.  The live moves of one branch lie on
top of each other (`Pool.Lineage`): the tip leads to where each of them went, and
of two of them one began at or above where the other one went.  Moving the branch
adds a live move on top.  Moving it back requires the branch to be where the move
went, so nothing lies on top of this move, as there would be a circle otherwise.
-/

namespace Landing

open World

namespace Pool

variable {ι : Type} [DecidableEq ι] {σ τ : Pool ι} {requests : ι → Request} {w₀ : World}
variable {i j : ι} {x : Exchange} {b : Branch} {old : Option CommitId} {new y : CommitId}

/-- The submission has moved the branch and not moved it back. -/
def Live (σ : Pool ι) (b : Branch) (i : ι) (old : Option CommitId) (new : CommitId) : Prop :=
  swaps b (σ.accepted i) = [(old, some new)]

/-- The moves of a branch by a submission, as they may be in a run. -/
theorem swaps_of_runs (hrun : (start w₀ requests).Runs Quiet σ) (b : Branch) (i : ι) :
    swaps b (σ.accepted i) = [] ∨ ∃ p old new, σ.Planned requests i p ∧
      Step.swap b old new ∈ p.steps ∧ (∀ e ∈ p.inserts, Plan.storeCall e ∈ σ.accepted i) ∧
      (σ.Live b i old new ∨ swaps b (σ.accepted i) = [(old, some new), (some new, old)] ∧
        (σ.programs i).ending ≠ .success) := by
  rcases course_of_runs hrun i with hasking | ⟨p, hpursuing, _⟩
  · exact .inl (hasking.swaps b)
  · have hplanned := planned_of_pursuing hpursuing
    obtain ⟨v, hbasis⟩ := hplanned.exists_basis hrun
    refine (hpursuing.swaps hbasis.made.apart b).imp_right ?_
    rintro ⟨old, new, hmem, hinserts, hswaps⟩
    exact ⟨p, old, new, hplanned, hmem, hinserts, hswaps⟩

/-- A live move goes up: where it went leads to where it began. -/
theorem Live.leads (hlive : σ.Live b i (some y) new) (haddressed : w₀.ContentAddressed)
    (hrun : (start w₀ requests).Runs Quiet σ) (hfree : Set.InjOn Draft.id (σ.drafts requests)) :
    Relation.TransGen (σ.world.Parent [] b.project) new y := by
  obtain ⟨p, hplanned, hswap, hinserts⟩ : ∃ p, σ.Planned requests i p ∧
      Step.swap b (some y) new ∈ p.steps ∧ ∀ e ∈ p.inserts, Plan.storeCall e ∈ σ.accepted i := by
    rcases swaps_of_runs hrun b i with hnone | ⟨p, _, _, hplanned, hswap, hinserts, hone | ⟨htwo, _⟩⟩
    · rw [Live, hnone] at hlive
      cases hlive
    · cases hlive.symm.trans hone
      exact ⟨p, hplanned, hswap, hinserts⟩
    · rw [Live, htwo] at hlive
      cases hlive
  obtain ⟨v, hbasis⟩ := hplanned.exists_basis hrun
  have hnow := addressed_of_runs haddressed hrun
  have hnames := hplanned.collisionFree hfree
  obtain ⟨bp, hbp, rfl, hold, hnew⟩ := Plan.swap_mem_steps.1 hswap
  obtain ⟨hbranch, hmoves⟩ := Plan.mem_moving.1 hbp
  obtain ⟨tip, htip, hleads⟩ := hbasis.made.leads_oldTip (hbasis.addressed hnow)
    (hbasis.collisionFree hnames) hbranch hold
  cases hnew.symm.trans htip
  -- A branch that moves does not stay where it is.
  have hne : new ≠ y := by
    obtain ⟨tip, htip, hne⟩ := BranchPlan.movesRef_iff.1 hmoves
    cases hnew.symm.trans htip
    rw [hold] at hne
    exact fun heq => hne (by rw [heq])
  exact (Relation.reflTransGen_iff_eq_or_transGen.1
    (hbasis.leads hrun hnow hnames hinserts hleads)).resolve_left hne.symm

/-- A step leaves a branch and the moves of it alone, or a submission moves the branch. -/
theorem Step.branch_cases (h : Step Quiet σ τ) (b : Branch) :
    (τ.world.tip? b = σ.world.tip? b ∧ ∀ i, swaps b (τ.accepted i) = swaps b (σ.accepted i)) ∨
      ∃ i old tip, σ.world.tip? b = old ∧ τ.world.tip? b = tip ∧
        τ.turns = σ.turns ++ [(i, ⟨.compareAndSwap b old tip, .ok ()⟩)] := by
  rcases h.cases with ⟨hturns, hworld⟩ | ⟨i, x, hturns, hturn⟩
  · refine .inl ⟨?_, fun i => ?_⟩
    · rcases hworld with hsame | hquiet
      · rw [hsame]
      · exact hquiet.tips b
    · unfold accepted heard
      rw [hturns]
  rcases swaps_single b x with ⟨hnone, hother⟩ | ⟨old, tip, rfl⟩
  · refine .inl ⟨?_, fun j => ?_⟩
    · rcases hturn with ⟨hsame, _⟩ | ⟨hanswer, hworld⟩
      · rw [hsame]
      · rw [hworld]
        rcases σ.world.tips_answer x.call with hsame | ⟨b', old, tip, hcall, hswap, heffect⟩
        · exact hsame b
        · -- The branch that is moved is another one.
          have hdone : σ.world.answer (.compareAndSwap b' old tip) =
              (.ok (), σ.world.withTip b' tip) := by
            rcases σ.world.answer_compareAndSwap b' old tip with ⟨_, hnot⟩ | ⟨hok, _⟩
            · exact absurd hswap hnot
            · exact hok
          have hcalm := hother (isOk_of_answer hanswer hcall (congrArg Prod.fst hdone))
          have hne : b ≠ b' := by
            rintro rfl
            simp [hcall, StoreCall.swap?] at hcalm
          rw [heffect, tip?_withTip hswap.project, if_neg hne]
    · rw [accepted_of_turns hturns]
      split
      · rw [swaps_append, hnone, List.append_nil]
      · rfl
  · right
    rcases hturn with ⟨_, hrefused⟩ | ⟨hanswer, hworld⟩
    · exact absurd ⟨(), rfl⟩ hrefused
    · rcases σ.world.answer_compareAndSwap b old tip with ⟨⟨e, hfail⟩, _⟩ | ⟨hok, hswap⟩
      · change Except.ok () = (σ.world.answer (.compareAndSwap b old tip)).1 at hanswer
        rw [hfail] at hanswer
        cases hanswer
      · change τ.world = (σ.world.answer (.compareAndSwap b old tip)).2 at hworld
        rw [hok] at hworld
        refine ⟨i, old, tip, hswap.expected, ?_, hturns⟩
        rw [hworld, tip?_withTip hswap.project, if_pos rfl]

/-- A move that began at `old` began at or above `new`. -/
def BeganAbove (w : World) (b : Branch) (old : Option CommitId) (new : CommitId) : Prop :=
  ∃ y, old = some y ∧ w.Leads [] b.project y new

theorem BeganAbove.stored {w w' : World} (h : BeganAbove w b old new) (hstored : w.StoredIn w') :
    BeganAbove w' b old new := by
  obtain ⟨y, hy, hleads⟩ := h
  exact ⟨y, hy, hstored.leads hleads⟩

/-- The live moves of a branch lie on top of each other. -/
structure Lineage (σ : Pool ι) (b : Branch) : Prop where
  /-- The tip leads to where every live move went. -/
  below_tip : ∀ i old new, σ.Live b i old new → BeganAbove σ.world b (σ.world.tip? b) new
  /-- Of two live moves one began at or above where the other one went. -/
  ordered : ∀ i j old new old' new', i ≠ j → σ.Live b i old new → σ.Live b j old' new' →
    BeganAbove σ.world b old new' ∨ BeganAbove σ.world b old' new

/-- Nobody has moved anything. -/
theorem lineage_start : (start w₀ requests).Lineage b where
  below_tip i old new hi := by cases hi
  ordered i j old new old' new' _ hi := by cases hi

/-- Where the branch stays and no submission moves it, nothing changes. -/
theorem Lineage.of_still (h : σ.Lineage b) (hstored : σ.world.StoredIn τ.world)
    (htip : τ.world.tip? b = σ.world.tip? b)
    (hswaps : ∀ i, swaps b (τ.accepted i) = swaps b (σ.accepted i)) : τ.Lineage b := by
  have hlive : ∀ {i old new}, τ.Live b i old new → σ.Live b i old new := by
    intro i old new hl
    rwa [Live, hswaps] at hl
  refine ⟨fun i old new hi => ?_, fun i j old new old' new' hij hi hj => ?_⟩
  · rw [htip]
    exact (h.below_tip i old new (hlive hi)).stored hstored
  · exact (h.ordered i j old new old' new' hij (hlive hi) (hlive hj)).imp (·.stored hstored)
      (·.stored hstored)

/-- A move of the branch lies on top of all others, since it began at the tip. -/
theorem Lineage.move (h : σ.Lineage b) (hstored : σ.world.StoredIn τ.world)
    (hwas : σ.world.tip? b = old) (his : τ.world.tip? b = some new)
    (hothers : ∀ j, j ≠ i → ∀ old new, τ.Live b j old new ↔ σ.Live b j old new)
    (hlive : τ.Live b i old new)
    (hup : ∀ y, old = some y → τ.world.Leads [] b.project new y) : τ.Lineage b := by
  have hself : ∀ old' new', τ.Live b i old' new' → old' = old ∧ new' = new := by
    intro old' new' hi
    cases hi.symm.trans hlive
    exact ⟨rfl, rfl⟩
  have hon : ∀ j old' new', j ≠ i → τ.Live b j old' new' → BeganAbove τ.world b old new' := by
    intro j old' new' hji hj
    have hbelow := h.below_tip j old' new' ((hothers j hji old' new').1 hj)
    rw [hwas] at hbelow
    exact hbelow.stored hstored
  refine ⟨fun j old' new' hj => ⟨new, his, ?_⟩, fun j k o n o' n' hjk hj hk => ?_⟩
  · by_cases hji : j = i
    · subst hji
      rw [(hself old' new' hj).2]
      exact .refl
    · obtain ⟨y, hy, hleads⟩ := hon j old' new' hji hj
      exact (hup y hy).trans hleads
  · by_cases hji : j = i
    · subst hji
      rw [(hself o n hj).1]
      exact .inl (hon k o' n' (Ne.symm hjk) hk)
    · by_cases hki : k = i
      · subst hki
        rw [(hself o' n' hk).1]
        exact .inr (hon j o n hji hj)
      · exact (h.ordered j k o n o' n' hjk ((hothers j hji o n).1 hj)
          ((hothers k hki o' n').1 hk)).imp (·.stored hstored) (·.stored hstored)

/-- Only the topmost move can be taken back. -/
theorem Lineage.moveBack (h : σ.Lineage b) (hstored : σ.world.StoredIn τ.world)
    (hwas : σ.world.tip? b = some new) (his : τ.world.tip? b = old)
    (hothers : ∀ j, j ≠ i → ∀ old new, τ.Live b j old new ↔ σ.Live b j old new)
    (hlive : σ.Live b i old new) (hgone : ∀ old new, ¬ τ.Live b i old new)
    (hup : ∀ j y new', σ.Live b j (some y) new' →
      Relation.TransGen (σ.world.Parent [] b.project) new' y)
    (hacyclic : σ.world.Acyclic) : τ.Lineage b := by
  have hother : ∀ j old' new', τ.Live b j old' new' → j ≠ i ∧ σ.Live b j old' new' := by
    intro j old' new' hj
    have hji : j ≠ i := by
      rintro rfl
      exact hgone old' new' hj
    exact ⟨hji, (hothers j hji old' new').1 hj⟩
  refine ⟨fun j old' new' hj => ?_, fun j k o n o' n' hjk hj hk => ?_⟩
  · obtain ⟨hji, hj⟩ := hother j old' new' hj
    rw [his]
    refine ((h.ordered i j old new old' new' (Ne.symm hji) hlive hj).resolve_right ?_).stored hstored
    -- If the other move lay on top, then the tip would lead back to itself.
    rintro ⟨y, rfl, hleads⟩
    obtain ⟨t, ht, hbelow⟩ := h.below_tip j (some y) new' hj
    cases hwas.symm.trans ht
    have hcircle := (Relation.TransGen.trans_right hbelow (hup j y new' hj)).trans_left hleads
    exact hacyclic b.project new hcircle
  · exact (h.ordered j k o n o' n' hjk (hother j o n hj).2 (hother k o' n' hk).2).imp
      (·.stored hstored) (·.stored hstored)

/-- The submission that has just moved the branch has done so for the first time, or it has moved it
back. -/
theorem swaps_of_move (hrun : (start w₀ requests).Runs Quiet τ) {tip : Option CommitId}
    (hturns : τ.turns = σ.turns ++ [(i, ⟨.compareAndSwap b old tip, .ok ()⟩)]) :
    (∀ j, j ≠ i → ∀ old new, τ.Live b j old new ↔ σ.Live b j old new) ∧
      ((∃ new, tip = some new ∧ τ.Live b i old new) ∨
        ∃ new, old = some new ∧ σ.Live b i tip new ∧ ∀ old' new', ¬ τ.Live b i old' new') := by
  have hmoved : swaps b (τ.accepted i) = swaps b (σ.accepted i) ++ [(old, tip)] := by
    rw [accepted_of_turns hturns, if_pos rfl, swaps_append]
    simp [swaps, Landing.accepted, StoreCall.swap?]
  refine ⟨fun j hj old' new' => ?_, ?_⟩
  · unfold Live
    rw [accepted_of_turns hturns, if_neg (Ne.symm hj)]
  rcases swaps_of_runs hrun b i with hnone | ⟨_, old', new, _, _, _, hone | ⟨htwo, _⟩⟩
  · rw [hnone] at hmoved
    cases List.append_eq_nil_iff.1 hmoved.symm |>.2
  · left
    have hlast : [] ++ [(old', some new)] = swaps b (σ.accepted i) ++ [(old, tip)] :=
      hone.symm.trans hmoved
    obtain ⟨_, heq⟩ := List.append_singleton_inj.1 hlast
    cases heq
    exact ⟨new, rfl, hone⟩
  · right
    have hlast : [(old', some new)] ++ [(some new, old')] = swaps b (σ.accepted i) ++ [(old, tip)] :=
      htwo.symm.trans hmoved
    obtain ⟨hfirst, heq⟩ := List.append_singleton_inj.1 hlast
    cases heq
    refine ⟨new, rfl, hfirst.symm, fun old'' new'' hlive => ?_⟩
    rw [Live, htwo] at hlive
    cases hlive

/-- In every run the live moves of a branch lie on top of each other. -/
theorem lineage_of_runs (hacyclic : w₀.Acyclic) (haddressed : w₀.ContentAddressed)
    (hrun : (start w₀ requests).Runs Quiet σ) (hfree : Set.InjOn Draft.id (σ.drafts requests))
    (b : Branch) : σ.Lineage b := by
  induction hrun with
  | refl => exact lineage_start
  | @tail σ τ hrun hstep ih =>
    have hfree' := hfree.mono hstep.drafts_subset
    have hstored := hstep.outlives.stored
    rcases hstep.branch_cases b with ⟨htip, hswaps⟩ | ⟨i, old, tip, hwas, his, hturns⟩
    · exact (ih hfree').of_still hstored htip hswaps
    have hrun' := hrun.tail hstep
    obtain ⟨hothers, ⟨new, rfl, hlive⟩ | ⟨new, rfl, hlive, hgone⟩⟩ := swaps_of_move hrun' hturns
    · refine (ih hfree').move hstored hwas his hothers hlive ?_
      rintro y rfl
      exact (hlive.leads haddressed hrun' hfree).to_reflTransGen
    · exact (ih hfree').moveBack hstored hwas his hothers hlive hgone
        (fun j y new' hj => hj.leads haddressed hrun hfree')
        (acyclic_of_runs hacyclic haddressed hrun hfree')

/-- A move by a submission that succeeds later is live. -/
theorem live_of_success (hrun : (start w₀ requests).Runs Quiet σ) (hlater : σ.Runs Quiet τ)
    {tip : Option CommitId} (hmoved : (i, ⟨.compareAndSwap b old tip, .ok ()⟩) ∈ σ.turns)
    (hended : (τ.programs i).ending = .success) : ∃ new, tip = some new ∧ σ.Live b i old new := by
  have hmem : (old, tip) ∈ swaps b (σ.accepted i) := mem_swaps.2 (mem_accepted_swap.2 hmoved)
  have hbegins : swaps b (σ.accepted i) <+: swaps b (τ.accepted i) :=
    ((hlater.heard_prefix i).filterMap _).filterMap _
  rcases swaps_of_runs (hrun.trans hlater) b i with
    hnone | ⟨_, old', new, _, _, _, hone | ⟨_, hfailed⟩⟩
  · rw [hnone, List.prefix_nil] at hbegins
    rw [hbegins] at hmem
    cases hmem
  · -- The submission moves the branch only once.
    rw [hone] at hbegins
    rcases List.prefix_cons_iff.1 hbegins with hnil | ⟨rest, hcons, hrest⟩
    · rw [hnil] at hmem
      cases hmem
    · rw [List.prefix_nil.1 hrest] at hcons
      rw [hcons] at hmem
      cases List.mem_singleton.1 hmem
      exact ⟨new, rfl, hcons⟩
  · exact absurd hended hfailed

/-- Submissions run side by side on a world with a history without circles, where commits are stored
under the names of their contents; they take turns in any order, any of their calls may be refused,
and nobody else moves branches.  When one of them that succeeds in the end has moved a branch to `z`,
then from this moment on the tip of the branch leads to `z`, or is `z`. -/
theorem no_move_lost (hacyclic : w₀.Acyclic) (haddressed : w₀.ContentAddressed)
    (hrun : (start w₀ requests).Runs Quiet σ) {z : CommitId}
    (hmoved : (i, ⟨.compareAndSwap b old (some z), .ok ()⟩) ∈ σ.turns)
    (hlater : σ.Runs Quiet τ) {outcome : Outcome} (hended : τ.programs i = .done (.ok outcome))
    (hfree : Set.InjOn Draft.id (σ.drafts requests)) :
    ∃ tip, σ.world.tip? b = some tip ∧ σ.world.Leads [] b.project tip z := by
  obtain ⟨new, heq, hlive⟩ := live_of_success hrun hlater hmoved (by rw [hended]; rfl)
  cases heq
  exact (lineage_of_runs hacyclic haddressed hrun hfree b).below_tip i old z hlive

open Sample in
/-- In the race the second submission has moved a branch, and the first one has moved the other branch
and moved it back. -/
theorem sample_no_move_lost :
    let σ := raced contest
    let τ := raced (contest ++ remainder)
    pair.Acyclic ∧ pair.ContentAddressed ∧ (start pair rivals).Runs Quiet σ ∧
      (1, ⟨.compareAndSwap (branch "p") (some root) (some Sample.y), .ok ()⟩) ∈ σ.turns ∧
      σ.Runs Quiet τ ∧ (∃ outcome, τ.programs 1 = .done (.ok outcome)) ∧
      Set.InjOn Draft.id (σ.drafts rivals) ∧
      ∃ tip, σ.world.tip? (branch "p") = some tip ∧ σ.world.Leads [] "p" tip Sample.y := by
  intro σ τ
  have hmoved : (1, ⟨.compareAndSwap (branch "p") (some root) (some Sample.y), .ok ()⟩) ∈ σ.turns :=
    mem_accepted_swap.1 (by decide +kernel)
  have hended : τ.programs 1 = .done (.ok ⟨Table.empty.insert (branch "p") Sample.y, [1, 2]⟩) :=
    Program.result?_eq_some.1 (by decide +kernel)
  have hlater : σ.Runs Quiet τ := runs_raced_append Quiet contest remainder
  exact ⟨pair_acyclic, pair_contentAddressed, runs_raced Quiet contest, hmoved, hlater, ⟨_, hended⟩,
    raced_injOn.1, no_move_lost pair_acyclic pair_contentAddressed (runs_raced Quiet contest) hmoved
      hlater hended raced_injOn.1⟩

end Pool
end Landing
