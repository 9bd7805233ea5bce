import Landing.Proofs.Concurrency.Pool

/-!
# Change records while submissions run

Nobody but the submissions writes here.  Every step leaves a record alone, or a
submission marks the change as merged, or it reopens it (`Pool.Step.record_cases`).
So what a record says can be read off the turns:

* a change that is merged was marked by some submission, and was not reopened after
  that (`Pool.exists_mark_of_merged`);
* a change that was marked stays merged until a submission reopens it
  (`Pool.merged_or_reopened`);
* the branch that a change is for stays the same (`Pool.exists_origin`).
-/

namespace Landing

open World

/-- Nothing happens to the world but what the submissions do. -/
def Nobody : World → World → Prop := fun _ _ => False

/-- The change is shown as open. -/
def Exchange.ShowsOpen (x : Exchange) (k : ChangeId) : Prop :=
  ∃ c, x.Shows c ∧ c.id = k ∧ c.isOpen = true

/-- Whatever shows a change was answered. -/
theorem Exchange.Shows.isOk {x : Exchange} {c : Change} (h : x.Shows c) : x.IsOk := by
  obtain ⟨call, r⟩ := x
  cases r with
  | ok reply => exact ⟨reply, rfl⟩
  | error e =>
    cases call with
    | _ => exact h.elim

namespace Pool

variable {ι : Type} [DecidableEq ι] {σ τ : Pool ι} {requests : ι → Request} {w₀ : World}
variable {i j : ι} {x : Exchange} {k : ChangeId} {c : Change}

theorem Runs.quiet (hrun : σ.Runs Nobody τ) : σ.Runs Quiet τ := hrun.mono fun _ _ h => h.elim

/-- What a step does to a record. -/
theorem Step.record_cases (h : Step Nobody σ τ) (k : ChangeId) :
    (τ.world.changes.get? k = σ.world.changes.get? k ∧
      ∀ i, τ.turns ≠ σ.turns ++ [(i, ⟨.reopen k, .ok ()⟩)]) ∨
    (∃ i tip submitter, τ.turns = σ.turns ++ [(i, ⟨.markMerged k tip submitter, .ok ()⟩)] ∧
      τ.world.changes.get? k = (σ.world.changes.get? k).map (·.markMerged tip submitter)) ∨
    ∃ i, τ.turns = σ.turns ++ [(i, ⟨.reopen k, .ok ()⟩)] ∧
      τ.world.changes.get? k = (σ.world.changes.get? k).map Change.reopen := by
  rcases h.cases with ⟨hturns, hsame | hnobody⟩ | ⟨i, ⟨call, r⟩, hturns, hturn⟩
  · refine .inl ⟨by rw [hsame], fun i hlast => ?_⟩
    rw [hturns] at hlast
    exact absurd hlast (by simp)
  · exact hnobody.elim
  rcases hturn with ⟨hsame, hrefused⟩ | ⟨hanswer, hworld⟩
  · refine .inl ⟨by rw [hsame], fun j hlast => hrefused ?_⟩
    rw [hturns] at hlast
    cases (List.append_singleton_inj.1 hlast).2
    exact ⟨(), rfl⟩
  change r = (σ.world.answer call).1 at hanswer
  change τ.world = (σ.world.answer call).2 at hworld
  subst hanswer
  rw [hworld, hturns]
  -- A turn is about one call only.
  have hother : (∀ number, call ≠ .reopen number) → ∀ j : ι,
      σ.turns ++ [(i, ⟨call, (σ.world.answer call).1⟩)] ≠
        σ.turns ++ [(j, ⟨.reopen k, .ok ()⟩)] := by
    intro hcall j hlast
    have heq := (List.append_singleton_inj.1 hlast).2
    exact hcall k (congrArg (fun t : ι × Exchange => t.2.call) heq)
  cases call with
  | markMerged number tip submitter =>
    rcases σ.world.answer_markMerged number tip submitter with ⟨⟨e, hfail⟩, _⟩ | ⟨hok, _⟩
    · exact .inl ⟨by rw [hfail], hother fun _ => nofun⟩
    · rw [hok, get?_changes_withChange]
      by_cases hk : k = number
      · subst hk
        exact .inr (.inl ⟨i, tip, submitter, rfl, if_pos rfl⟩)
      · rw [hok] at hother
        exact .inl ⟨if_neg hk, hother fun _ => nofun⟩
  | reopen number =>
    rcases σ.world.answer_reopen number with ⟨⟨e, hfail⟩, _⟩ | ⟨hok, _⟩
    · refine .inl ⟨by rw [hfail], fun j hlast => ?_⟩
      rw [hfail] at hlast
      cases (List.append_singleton_inj.1 hlast).2
    · rw [hok, get?_changes_withChange]
      by_cases hk : k = number
      · subst hk
        exact .inr (.inr ⟨i, rfl, if_pos rfl⟩)
      · refine .inl ⟨if_neg hk, fun j hlast => hk ?_⟩
        cases (List.append_singleton_inj.1 hlast).2
        rfl
  | _ =>
    refine .inl ⟨?_, hother fun _ => nofun⟩
    rcases σ.world.changes_answer _ with hsame | ⟨_, ⟨_, _, hcall, _⟩ | ⟨hcall, _⟩⟩
    · rw [hsame]
    · cases hcall
    · cases hcall

theorem keyed_of_runs (hkeyed : w₀.Keyed) (hrun : (start w₀ requests).Runs Nobody σ) :
    σ.world.Keyed := by
  induction hrun with
  | refl => exact hkeyed
  | tail _ hstep ih =>
    rcases hstep.cases with ⟨_, hsame | hnobody⟩ | ⟨i, x, _, ⟨hsame, _⟩ | ⟨_, hworld⟩⟩
    · rwa [hsame]
    · exact hnobody.elim
    · rwa [hsame]
    · rw [hworld]
      exact ih.answer x.call

/-- Every record is that of a change which was there from the beginning, for the same branch. -/
theorem exists_origin (hrun : (start w₀ requests).Runs Nobody σ)
    (hget : σ.world.changes.get? k = some c) :
    ∃ c₀, w₀.changes.get? k = some c₀ ∧ c₀.dest = c.dest := by
  induction hrun generalizing c with
  | refl => exact ⟨c, hget, rfl⟩
  | tail _ hstep ih =>
    rcases hstep.record_cases k with ⟨hsame, _⟩ | ⟨i, tip, submitter, _, hmarked⟩ | ⟨i, _, hreopened⟩
    · exact ih (hsame ▸ hget)
    · rw [hmarked] at hget
      obtain ⟨before, hbefore, rfl⟩ := Option.map_eq_some_iff.1 hget
      obtain ⟨c₀, hc₀, hdest⟩ := ih hbefore
      exact ⟨c₀, hc₀, hdest⟩
    · rw [hreopened] at hget
      obtain ⟨before, hbefore, rfl⟩ := Option.map_eq_some_iff.1 hget
      obtain ⟨c₀, hc₀, hdest⟩ := ih hbefore
      exact ⟨c₀, hc₀, hdest⟩

/-- A change that is merged, and was not at the beginning, was marked in a turn, and no submission has
reopened it after that. -/
theorem exists_mark_of_merged (hclean : ∀ k c, w₀.changes.get? k = some c → c.status ≠ .merged)
    (hrun : (start w₀ requests).Runs Nobody σ) (hget : σ.world.changes.get? k = some c)
    (hmerged : c.status = .merged) : ∃ i tip submitter before after,
      σ.turns = before ++ (i, ⟨.markMerged k tip submitter, .ok ()⟩) :: after ∧
      c.mergedAs = some tip ∧ ∀ j, (j, ⟨.reopen k, .ok ()⟩) ∉ after := by
  induction hrun generalizing c with
  | refl => exact absurd hmerged (hclean k c hget)
  | @tail σ τ _ hstep ih =>
    rcases hstep.record_cases k with ⟨hsame, hother⟩ | ⟨i, tip, submitter, hturns, hmarked⟩ |
      ⟨i, _, hreopened⟩
    · obtain ⟨i, tip, submitter, before, after, hturns, htip, hafter⟩ := ih (hsame ▸ hget) hmerged
      rcases hstep.cases with ⟨hstill, _⟩ | ⟨l, x, hturn, _⟩
      · exact ⟨i, tip, submitter, before, after, hstill.trans hturns, htip, hafter⟩
      · refine ⟨i, tip, submitter, before, after ++ [(l, x)], ?_, htip, fun j hj => ?_⟩
        · rw [hturn, hturns, List.append_assoc, List.cons_append]
        · rcases List.mem_append.1 hj with hj | hj
          · exact hafter j hj
          · rw [← List.mem_singleton.1 hj] at hturn
            exact hother j hturn
    · rw [hmarked] at hget
      obtain ⟨before, _, rfl⟩ := Option.map_eq_some_iff.1 hget
      exact ⟨i, tip, submitter, σ.turns, [], hturns, rfl, fun j => by simp⟩
    · rw [hreopened] at hget
      obtain ⟨before, _, rfl⟩ := Option.map_eq_some_iff.1 hget
      cases hmerged

/-- A change that a submission has just marked is merged. -/
theorem Step.merged_of_mark (h : Step Nobody σ τ) {tip : CommitId} {submitter : AccountId}
    (hturns : τ.turns = σ.turns ++ [(i, ⟨.markMerged k tip submitter, .ok ()⟩)]) :
    ∃ c, τ.world.changes.get? k = some c ∧ c.status = .merged := by
  obtain ⟨hanswer, hworld⟩ := h.answered hturns ⟨(), rfl⟩
  change Except.ok () = (σ.world.answer (.markMerged k tip submitter)).1 at hanswer
  change τ.world = (σ.world.answer (.markMerged k tip submitter)).2 at hworld
  rcases σ.world.answer_markMerged k tip submitter with ⟨⟨e, hfail⟩, _⟩ | ⟨hdone, hthere⟩
  · rw [hfail] at hanswer
    cases hanswer
  · obtain ⟨c, hc⟩ := Option.isSome_iff_exists.1 hthere
    refine ⟨c.markMerged tip submitter, ?_, rfl⟩
    rw [hworld, hdone, get?_changes_withChange, if_pos rfl, hc]
    rfl

/-- A change that is merged stays so until a submission reopens it. -/
theorem merged_or_reopened (hlater : σ.Runs Nobody τ)
    (hmerged : ∃ c, σ.world.changes.get? k = some c ∧ c.status = .merged) :
    ∃ ys, τ.turns = σ.turns ++ ys ∧
      ((∃ c, τ.world.changes.get? k = some c ∧ c.status = .merged) ∨
        ∃ l, (l, ⟨.reopen k, .ok ()⟩) ∈ ys) := by
  induction hlater with
  | refl => exact ⟨[], (List.append_nil _).symm, .inl hmerged⟩
  | @tail ρ τ _ hstep ih =>
    obtain ⟨ys, hys, hstate⟩ := ih
    obtain ⟨zs, hzs⟩ := Runs.turns_prefix (.single hstep)
    refine ⟨ys ++ zs, by rw [← hzs, hys, List.append_assoc], ?_⟩
    rcases hstate with ⟨c, hget, hmerged⟩ | ⟨l, hl⟩
    · rcases hstep.record_cases k with ⟨hsame, _⟩ | ⟨i, tip, submitter, _, hmarked⟩ |
        ⟨i, hturns, _⟩
      · exact .inl ⟨c, hsame ▸ hget, hmerged⟩
      · rw [hget] at hmarked
        exact .inl ⟨_, hmarked, rfl⟩
      · rw [hturns] at hzs
        rw [List.append_cancel_left hzs]
        exact .inr ⟨i, by simp⟩
    · exact .inr ⟨l, List.mem_append_left _ hl⟩

/-- When a change was shown, its record was as it was shown. -/
theorem exists_shown (hkeyed : w₀.Keyed) (hrun : (start w₀ requests).Runs Nobody σ)
    (hlater : σ.Runs Nobody τ) {before after : List (ι × Exchange)}
    (hturns : τ.turns = σ.turns ++ before ++ (i, x) :: after) (hc : x.Shows c) :
    ∃ ρ, σ.Runs Nobody ρ ∧ ρ.turns = σ.turns ++ before ∧ ρ.world.changes.get? c.id = some c := by
  obtain ⟨ρ, ρ', hrun', hbefore, hstep, hturn, _⟩ := hlater.exists_turn hturns
  refine ⟨ρ, hrun', hbefore, ?_⟩
  obtain ⟨hanswer, _⟩ := hstep.answered hturn hc.isOk
  exact (keyed_of_runs hkeyed (hrun.trans hrun')).get?_of_shows hanswer hc

/-- The record of a change that was shown was there from the beginning, for the same branch. -/
theorem exists_origin_of_shown (hkeyed : w₀.Keyed) (hrun : (start w₀ requests).Runs Nobody σ)
    (hx : (i, x) ∈ σ.turns) (hc : x.Shows c) :
    ∃ c₀, w₀.changes.get? c.id = some c₀ ∧ c₀.dest = c.dest := by
  obtain ⟨before, after, hturns⟩ := List.append_of_mem hx
  have hsplit : σ.turns = (start w₀ requests).turns ++ before ++ (i, x) :: after := hturns
  obtain ⟨ρ, hrun', _, hget⟩ := exists_shown hkeyed .refl hrun hsplit hc
  exact exists_origin hrun' hget

end Pool
end Landing
