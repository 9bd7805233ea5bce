import Landing.Proofs.Concurrency.Reports
import Landing.Proofs.Submission.Conduct
import Landing.Proofs.Submission.Integration

/-!
# Submissions side by side

A pool holds a world, what is left of each submission, and the exchanges so far.
In one step one submission makes its next call, which the world answers or which is
refused, or it gives a signal; or something else happens to the world
(`Pool.Step`).  A run is any sequence of steps.

What holds of every run, in whatever order the submissions take turns:

* each submission has heard just its own exchanges (`Pool.hears_of_runs`), so it keeps
  to the course of its plan (`Pool.course_of_runs`);
* what it was told was so at the time (`Pool.told_of_runs`), so its plan is one for a
  world with the present commits (`Pool.Planned.exists_basis`);
* the history stays without circles (`Pool.acyclic_of_runs`), as long as no two
  contents in play have one name.
-/

namespace Landing

open World

/-- A submission that is asked for. -/
structure Request where
  policy : Policy
  budget : Nat
  change : ChangeId
  actor : Account

namespace Request

/-- What it does first. -/
def planning (r : Request) : Program (Except Failure Plan) :=
  Submission.withHistory r.budget (Submission.plan r.policy r.change r.actor)

/-- All that it does. -/
def program (r : Request) : Program (Except Failure Outcome) :=
  Submission.submit r.policy r.budget r.change r.actor

end Request

/-- Submissions on one world. -/
structure Pool (ι : Type) where
  world : World
  /-- What is left of each submission. -/
  programs : ι → Program (Except Failure Outcome)
  /-- Who has made which call, first one first. -/
  turns : List (ι × Exchange)

namespace Pool

variable {ι : Type} {σ τ : Pool ι} {requests : ι → Request} {i j : ι} {x : Exchange}

/-- No submission has begun. -/
def start (w : World) (requests : ι → Request) : Pool ι := ⟨w, fun i => (requests i).program, []⟩

@[simp] theorem turns_start (w : World) (requests : ι → Request) : (start w requests).turns = [] := rfl

variable {others : World → World → Prop} {w₀ : World} {p : Plan}

/-- The plan is one for the world `v`, which has the present commits, and branches as the submission was
told.  The changes of the plan are as the submission was shown them. -/
structure Basis (σ : Pool ι) (i : ι) (p : Plan) (v : World) : Prop where
  made : p.Made v fun c => ∃ x, (i, x) ∈ σ.turns ∧ x.Shows c
  commits : ∀ q id, v.commit? q id = σ.world.commit? q id
  listed : ∀ q tips r, v.branches q = .ok tips → r ∈ tips →
    (i, ⟨.branches q, .ok tips⟩) ∈ σ.turns

namespace Basis

variable {v : World}

theorem storedIn (h : σ.Basis i p v) : v.StoredIn σ.world := fun q id c hc => by
  rwa [h.commits] at hc

theorem addressed (h : σ.Basis i p v) (haddressed : σ.world.ContentAddressed) :
    v.ContentAddressed := fun q id c hc => haddressed q id c (h.storedIn q id c hc)

theorem collisionFree (h : σ.Basis i p v) (hfree : p.CollisionFree σ.world) :
    p.CollisionFree v :=
  hfree.mono (Set.union_subset_union_left _ h.storedIn.storedDrafts)

end Basis

section

variable [DecidableEq ι]

/-- A submission has made a call. -/
def turn (σ : Pool ι) (i : ι) (x : Exchange) (w : World) (left : Program (Except Failure Outcome)) :
    Pool ι :=
  ⟨w, Function.update σ.programs i left, σ.turns ++ [(i, x)]⟩

/-- A submission has given a signal. -/
def pass (σ : Pool ι) (i : ι) (left : Program (Except Failure Outcome)) : Pool ι :=
  { σ with programs := Function.update σ.programs i left }

/-- What may happen next; `others` is what may happen to the world besides. -/
inductive Step (others : World → World → Prop) (σ : Pool ι) : Pool ι → Prop
  | answers {i : ι} {c : StoreCall}
    {next : Except StoreError c.Reply → Program (Except Failure Outcome)}
    (hcall : σ.programs i = .call c next) :
    Step others σ (σ.turn i ⟨c, (σ.world.answer c).1⟩ (σ.world.answer c).2
      (next (σ.world.answer c).1))
  | refuses {i : ι} {c : StoreCall}
    {next : Except StoreError c.Reply → Program (Except Failure Outcome)}
    (hcall : σ.programs i = .call c next) (e : StoreError) :
    Step others σ (σ.turn i ⟨c, .error e⟩ σ.world (next (.error e)))
  | signals {i : ι} {s : Signal} {next : Program (Except Failure Outcome)}
    (hsignal : σ.programs i = .signal s next) : Step others σ (σ.pass i next)
  | elsewhere {w : World} (hothers : others σ.world w) : Step others σ { σ with world := w }

/-- The exchanges of one submission. -/
def heard (σ : Pool ι) (i : ι) : List Exchange :=
  σ.turns.filterMap fun t => if t.1 = i then some t.2 else none

/-- The calls of one submission that have not failed. -/
def accepted (σ : Pool ι) (i : ι) : List StoreCall := Landing.accepted (σ.heard i)

theorem mem_heard : x ∈ σ.heard i ↔ (i, x) ∈ σ.turns := by
  unfold heard
  rw [List.mem_filterMap]
  constructor
  · rintro ⟨⟨j, y⟩, hmem, hsome⟩
    split at hsome
    · next heq =>
      cases hsome
      rw [← heq]
      exact hmem
    · cases hsome
  · intro hmem
    exact ⟨(i, x), hmem, if_pos rfl⟩

theorem heard_of_turns (hturns : τ.turns = σ.turns ++ [(j, x)]) (i : ι) :
    τ.heard i = if j = i then σ.heard i ++ [x] else σ.heard i := by
  unfold heard
  rw [hturns, List.filterMap_append]
  by_cases hj : j = i
  · simp [hj]
  · simp [hj]

/-- The calls that are accepted are found among the turns. -/
theorem mem_accepted_turn {c : StoreCall} :
    c ∈ σ.accepted i ↔ ∃ reply, (i, ⟨c, .ok reply⟩) ∈ σ.turns := by
  unfold accepted
  rw [mem_accepted]
  constructor
  · rintro ⟨⟨c', r⟩, hx, hc, reply, hr⟩
    cases hc
    have hanswer : r = .ok reply := hr
    rw [hanswer] at hx
    exact ⟨reply, mem_heard.1 hx⟩
  · rintro ⟨reply, hmem⟩
    exact ⟨_, mem_heard.2 hmem, rfl, reply, rfl⟩

theorem mem_accepted_swap {b : Branch} {old tip : Option CommitId} :
    .compareAndSwap b old tip ∈ σ.accepted i ↔
      (i, ⟨.compareAndSwap b old tip, .ok ()⟩) ∈ σ.turns :=
  mem_accepted_turn.trans ⟨fun ⟨_, h⟩ => h, fun h => ⟨(), h⟩⟩

/-- A step is the turn of a submission, or nobody makes a call.  A turn is a refusal or it is answered
by the world. -/
theorem Step.cases {others : World → World → Prop} (h : Step others σ τ) :
    (τ.turns = σ.turns ∧ (τ.world = σ.world ∨ others σ.world τ.world)) ∨
      ∃ i x, τ.turns = σ.turns ++ [(i, x)] ∧ (τ.world = σ.world ∧ ¬ x.IsOk ∨
        x.answer = (σ.world.answer x.call).1 ∧ τ.world = (σ.world.answer x.call).2) := by
  cases h with
  | answers hcall => exact .inr ⟨_, _, rfl, .inr ⟨rfl, rfl⟩⟩
  | refuses hcall e =>
    refine .inr ⟨_, _, rfl, .inl ⟨rfl, ?_⟩⟩
    rintro ⟨reply, hreply⟩
    cases hreply
  | signals hsignal => exact .inl ⟨rfl, .inl rfl⟩
  | elsewhere hothers => exact .inl ⟨rfl, .inr hothers⟩

/-- A turn that was not refused was answered by the world. -/
theorem Step.answered {others : World → World → Prop} (h : Step others σ τ)
    (hturns : τ.turns = σ.turns ++ [(i, x)]) (hok : x.IsOk) :
    x.answer = (σ.world.answer x.call).1 ∧ τ.world = (σ.world.answer x.call).2 := by
  rcases h.cases with ⟨hsame, _⟩ | ⟨j, y, hlast, hturn⟩
  · rw [hsame] at hturns
    exact absurd hturns (by simp)
  · rw [hturns] at hlast
    cases (List.append_singleton_inj.1 hlast).2
    exact hturn.resolve_left fun hrefused => hrefused.2 hok

/-- In a turn the submission that has it hears the answer. -/
theorem hears_turn {c : StoreCall} {next : Except StoreError c.Reply → Program (Except Failure Outcome)}
    (hcall : σ.programs j = .call c next) (r : Except StoreError c.Reply) (w : World) (i : ι) :
    ∃ xs, (σ.turn j ⟨c, r⟩ w (next r)).heard i = σ.heard i ++ xs ∧
      (σ.programs i).Hears xs ((σ.turn j ⟨c, r⟩ w (next r)).programs i) := by
  rw [heard_of_turns rfl]
  show ∃ xs, _ ∧ Program.Hears _ xs (Function.update σ.programs j _ i)
  by_cases hj : j = i
  · subst hj
    rw [if_pos rfl, Function.update_self, hcall]
    exact ⟨_, rfl, .call .nil⟩
  · rw [if_neg hj, Function.update_of_ne (Ne.symm hj)]
    exact ⟨[], (List.append_nil _).symm, .nil⟩

/-- In every step a submission comes to what is left of it with what it hears. -/
theorem Step.hears {others : World → World → Prop} (h : Step others σ τ) (i : ι) :
    ∃ xs, τ.heard i = σ.heard i ++ xs ∧ (σ.programs i).Hears xs (τ.programs i) := by
  cases h with
  | answers hcall => exact hears_turn hcall _ _ i
  | refuses hcall e => exact hears_turn hcall _ _ i
  | @signals j s next hsignal =>
    refine ⟨[], (List.append_nil _).symm, ?_⟩
    show Program.Hears _ _ (Function.update σ.programs j _ i)
    by_cases hj : j = i
    · subst hj
      rw [Function.update_self, hsignal]
      exact .signal .nil
    · rw [Function.update_of_ne (Ne.symm hj)]
      exact .nil
  | elsewhere hothers => exact ⟨[], (List.append_nil _).symm, .nil⟩

/-! ### Runs -/

/-- One pool is reached from another. -/
abbrev Runs (others : World → World → Prop) : Pool ι → Pool ι → Prop :=
  Relation.ReflTransGen (Step others)

theorem Runs.hears (hrun : σ.Runs others τ) (i : ι) :
    ∃ xs, τ.heard i = σ.heard i ++ xs ∧ (σ.programs i).Hears xs (τ.programs i) := by
  induction hrun with
  | refl => exact ⟨[], (List.append_nil _).symm, .nil⟩
  | tail _ hstep ih =>
    obtain ⟨xs, hxs, hbefore⟩ := ih
    obtain ⟨ys, hys, hnow⟩ := hstep.hears i
    exact ⟨xs ++ ys, by rw [hys, hxs, List.append_assoc], hbefore.trans hnow⟩

theorem Runs.turns_prefix (hrun : σ.Runs others τ) : σ.turns <+: τ.turns := by
  induction hrun with
  | refl => exact List.prefix_rfl
  | tail _ hstep ih =>
    rcases hstep.cases with ⟨hturns, _⟩ | ⟨i, x, hturns, _⟩
    · rwa [hturns]
    · rw [hturns]
      exact ih.trans (List.prefix_append _ _)

/-- A turn that was had in a run was had at a moment of the run. -/
theorem Runs.exists_turn (hrun : σ.Runs others τ) {before after : List (ι × Exchange)}
    {t : ι × Exchange} (hturns : τ.turns = σ.turns ++ before ++ t :: after) :
    ∃ σ₁ σ₂, σ.Runs others σ₁ ∧ σ₁.turns = σ.turns ++ before ∧ Step others σ₁ σ₂ ∧
      σ₂.turns = σ₁.turns ++ [t] ∧ σ₂.Runs others τ := by
  induction hrun generalizing after with
  | refl =>
    have hlength := congrArg List.length hturns
    simp at hlength
  | @tail ρ τ hrun hstep ih =>
    rcases hstep.cases with ⟨hsame, _⟩ | ⟨i, x, hlast, _⟩
    · obtain ⟨σ₁, σ₂, hrun₁, hbefore, hturn, hturn', hrest⟩ := ih (hsame ▸ hturns)
      exact ⟨σ₁, σ₂, hrun₁, hbefore, hturn, hturn', hrest.tail hstep⟩
    rw [hlast] at hturns
    rcases List.eq_nil_or_concat after with rfl | ⟨after, y, rfl⟩
    · -- It is the last turn.
      obtain ⟨heq, rfl⟩ := List.append_singleton_inj.1 hturns
      exact ⟨ρ, τ, hrun, heq, hstep, hlast, .refl⟩
    · rw [List.concat_eq_append, ← List.cons_append, ← List.append_assoc] at hturns
      obtain ⟨heq, _⟩ := List.append_singleton_inj.1 hturns
      obtain ⟨σ₁, σ₂, hrun₁, hbefore, hturn, hturn', hrest⟩ := ih heq
      exact ⟨σ₁, σ₂, hrun₁, hbefore, hturn, hturn', hrest.tail hstep⟩

/-- What a submission has heard stays the beginning of what it has heard. -/
theorem Runs.heard_prefix (hrun : σ.Runs others τ) (i : ι) : σ.heard i <+: τ.heard i := by
  obtain ⟨xs, hxs, _⟩ := hrun.hears i
  exact ⟨xs, hxs.symm⟩

/-- What a submission has heard has left of it what is left of it. -/
theorem hears_of_runs (hrun : (start w₀ requests).Runs others σ) (i : ι) :
    (requests i).program.Hears (σ.heard i) (σ.programs i) := by
  obtain ⟨xs, hxs, hhears⟩ := hrun.hears i
  rw [hxs]
  exact hhears

/-- Every turn was had at a moment of the run. -/
theorem exists_turn_of_runs (hrun : (start w₀ requests).Runs others τ)
    {before after : List (ι × Exchange)} {t : ι × Exchange} (hturns : τ.turns = before ++ t :: after) :
    ∃ σ₁ σ₂, (start w₀ requests).Runs others σ₁ ∧ σ₁.turns = before ∧ Step others σ₁ σ₂ ∧
      σ₂.turns = σ₁.turns ++ [t] ∧ σ₂.Runs others τ := by
  have hsplit : τ.turns = (start w₀ requests).turns ++ before ++ t :: after := hturns
  obtain ⟨σ₁, σ₂, hrun₁, hbefore, hstep, hturn, hrest⟩ := hrun.exists_turn hsplit
  rw [turns_start, List.nil_append] at hbefore
  exact ⟨σ₁, σ₂, hrun₁, hbefore, hstep, hturn, hrest⟩

/-- How a submission stands in a run. -/
theorem course_of_runs (hrun : (start w₀ requests).Runs others σ) (i : ι) :
    Submission.Asking (σ.heard i) (σ.programs i).ending ∨
      ∃ p, Submission.Pursuing (requests i).planning (σ.heard i) (σ.programs i).ending p ∧
        ∀ o, σ.programs i = .done (.ok o) → o = ⟨p.tips, p.batch.changes.map (·.id)⟩ :=
  Submission.course_of_hears (hears_of_runs hrun i)

/-- Whoever has given an order that was accepted has a plan. -/
theorem exists_plan_of_order (hrun : (start w₀ requests).Runs others σ) {c : StoreCall}
    (hc : c ∈ σ.accepted i) (horder : ¬ c.IsQuestion) :
    ∃ p, Submission.Pursuing (requests i).planning (σ.heard i) (σ.programs i).ending p := by
  rcases course_of_runs hrun i with hasking | ⟨p, hpursuing, _⟩
  · exact absurd (Submission.accepted_questions hasking.questions c hc) horder
  · exact ⟨p, hpursuing⟩

/-! ### What was said was so -/

theorem Step.mono {others' : World → World → Prop} (hsub : ∀ w w', others w w' → others' w w')
    (h : Step others σ τ) : Step others' σ τ := by
  cases h with
  | answers hcall => exact .answers hcall
  | refuses hcall e => exact .refuses hcall e
  | signals hsignal => exact .signals hsignal
  | elsewhere hothers => exact .elsewhere (hsub _ _ hothers)

theorem Runs.mono {others' : World → World → Prop} (hsub : ∀ w w', others w w' → others' w w')
    (h : σ.Runs others τ) : σ.Runs others' τ :=
  Relation.ReflTransGen.mono (fun _ _ hstep => hstep.mono hsub) _ _ h

theorem Step.outlives (h : Step Quiet σ τ) : σ.world.Outlives τ.world := by
  rcases h.cases with ⟨_, hsame | hquiet⟩ | ⟨i, x, _, ⟨hsame, _⟩ | ⟨_, hworld⟩⟩
  · rw [hsame]
    exact .refl _
  · exact hquiet.outlives
  · rw [hsame]
    exact .refl _
  · rw [hworld]
    exact outlives_answer _ _

theorem outlives_of_runs (hrun : σ.Runs Quiet τ) : σ.world.Outlives τ.world := by
  induction hrun with
  | refl => exact .refl _
  | tail _ hstep ih => exact ih.trans hstep.outlives

/-- Whoever was told something was told the truth of that time. -/
theorem told_of_runs (hrun : (start w₀ requests).Runs Quiet σ) : ∀ t ∈ σ.turns, σ.world.Told t.2 := by
  induction hrun with
  | refl => exact fun t ht => absurd ht (by simp)
  | @tail σ τ hrun hstep ih =>
    have hlater := hstep.outlives
    intro t ht
    rcases hstep.cases with ⟨hturns, _⟩ | ⟨i, x, hturns, hturn⟩
    · rw [hturns] at ht
      exact (ih t ht).outlives hlater
    · rw [hturns] at ht
      rcases List.mem_append.1 ht with ht | ht
      · exact (ih t ht).outlives hlater
      · cases List.mem_singleton.1 ht
        intro hok
        rcases hturn with ⟨_, hrefused⟩ | ⟨hanswer, hworld⟩
        · exact absurd hok hrefused
        · refine ⟨σ.world, hanswer, ?_⟩
          rw [hworld]
          exact .refl _

/-! ### Plans -/

/-- The submission has made this plan. -/
def Planned (requests : ι → Request) (σ : Pool ι) (i : ι) (p : Plan) : Prop :=
  ∃ qs, qs <+: σ.heard i ∧ (requests i).planning.Hears qs (.done (.ok p))

/-- The contents of the stored commits and of the merge commits in plans. -/
def drafts (requests : ι → Request) (σ : Pool ι) : Set Draft :=
  σ.world.storedDrafts ∪ {d | ∃ i p, σ.Planned requests i p ∧ ∃ bp ∈ p.branches, d ∈ bp.drafts}

theorem Step.drafts_subset (h : Step Quiet σ τ) : σ.drafts requests ⊆ τ.drafts requests := by
  rintro d (hstored | ⟨i, p, ⟨qs, hbegins, hplanned⟩, hd⟩)
  · exact .inl (h.outlives.stored.storedDrafts hstored)
  · have hheard : σ.heard i <+: τ.heard i := Runs.heard_prefix (.single h) i
    exact .inr ⟨i, p, ⟨qs, hbegins.trans hheard, hplanned⟩, hd⟩

theorem drafts_subset_of_runs (hrun : σ.Runs Quiet τ) : σ.drafts requests ⊆ τ.drafts requests := by
  induction hrun with
  | refl => exact Set.Subset.rfl
  | tail _ hstep ih => exact ih.trans hstep.drafts_subset

theorem Planned.collisionFree (h : σ.Planned requests i p)
    (hfree : Set.InjOn Draft.id (σ.drafts requests)) : p.CollisionFree σ.world := by
  refine hfree.mono (Set.union_subset_union_right _ fun d hd => ?_)
  exact ⟨i, p, h, hd⟩

theorem planned_of_pursuing {ending : Ending}
    (h : Submission.Pursuing (requests i).planning (σ.heard i) ending p) :
    σ.Planned requests i p := by
  obtain ⟨qs, ys, hxs, hplanned, _⟩ := h
  exact ⟨qs, ⟨ys, hxs.symm⟩, hplanned⟩

/-- A plan that is pursued with an order was made before the order. -/
theorem planned_before {ending : Ending}
    (h : Submission.Pursuing (requests i).planning (τ.heard i) ending p)
    (hturns : τ.turns = σ.turns ++ [(i, x)]) (hx : ¬ x.call.IsQuestion) :
    σ.Planned requests i p := by
  obtain ⟨qs, ys, hxs, hplanned, hquestions, _⟩ := h
  rw [heard_of_turns hturns, if_pos rfl] at hxs
  have hbegins : qs <+: σ.heard i ++ [x] := ⟨ys, hxs.symm⟩
  rcases List.prefix_concat_iff.1 hbegins with heq | hbegins
  · exact absurd (hquestions x (by simp [heq])) hx
  · exact ⟨qs, hbegins, hplanned⟩

theorem Planned.exists_basis (h : σ.Planned requests i p)
    (hrun : (start w₀ requests).Runs Quiet σ) : ∃ v, σ.Basis i p v := by
  obtain ⟨qs, hbegins, hplanned⟩ := h
  have hturn : ∀ x ∈ qs, (i, x) ∈ σ.turns := fun x hx => mem_heard.1 (hbegins.subset hx)
  obtain ⟨v, hcommits, hmade, hlisted⟩ := Submission.exists_made (w := σ.world) hplanned
    fun x hx => told_of_runs hrun (i, x) (hturn x hx)
  refine ⟨v, hmade.mono ?_, hcommits, fun q tips r htips hr => hturn _ (hlisted q tips r htips hr)⟩
  rintro c ⟨x, hx, hc⟩
  exact ⟨x, hturn x hx, hc⟩

/-- What was planned is so in the present world, once the merge commits of the plan were stored. -/
theorem Basis.leads {v : World} (h : σ.Basis i p v) (hrun : (start w₀ requests).Runs Quiet σ)
    (haddressed : σ.world.ContentAddressed) (hfree : p.CollisionFree σ.world)
    (hinserts : ∀ e ∈ p.inserts, Plan.storeCall e ∈ σ.accepted i)
    {project : ProjectName} {a b : CommitId}
    (hleads : v.Leads (p.draftsFor project) project a b) : σ.world.Leads [] project a b := by
  refine h.made.leads_stored h.storedIn (fun d hd => ?_) haddressed hfree hleads
  obtain ⟨x, hx, hcall, hok⟩ := mem_accepted.1 (hinserts (project, d) (Plan.mem_inserts.2 hd))
  exact (told_of_runs hrun (i, x) (mem_heard.1 hx)).stored hok hcall

/-! ### The history -/

theorem addressed_of_runs (haddressed : w₀.ContentAddressed)
    (hrun : (start w₀ requests).Runs Quiet σ) : σ.world.ContentAddressed :=
  (outlives_of_runs hrun).addressed haddressed

theorem accepted_of_turns (hturns : τ.turns = σ.turns ++ [(i, x)]) (j : ι) :
    τ.accepted j = if i = j then σ.accepted j ++ Landing.accepted [x] else σ.accepted j := by
  unfold accepted
  rw [heard_of_turns hturns]
  split
  · exact accepted_append _ _
  · rfl

theorem mem_accepted_of_turns (hturns : τ.turns = σ.turns ++ [(i, x)]) (hok : x.IsOk) :
    x.call ∈ τ.accepted i :=
  mem_accepted.2 ⟨x, mem_heard.2 (by simp [hturns]), rfl, hok⟩

/-- No circle is ever closed. -/
theorem acyclic_of_runs (hacyclic : w₀.Acyclic) (haddressed : w₀.ContentAddressed)
    (hrun : (start w₀ requests).Runs Quiet σ) (hfree : Set.InjOn Draft.id (σ.drafts requests)) :
    σ.world.Acyclic := by
  induction hrun with
  | refl => exact hacyclic
  | @tail σ τ hrun hstep ih =>
    have hbefore := ih (hfree.mono hstep.drafts_subset)
    rcases hstep.cases with ⟨_, hsame | hquiet⟩ | ⟨i, x, hturns, ⟨hsame, _⟩ | ⟨hanswer, hworld⟩⟩
    · rw [hsame]
      exact hbefore
    · exact hquiet.acyclic hbefore
    · rw [hsame]
      exact hbefore
    rcases σ.world.commits_answer x.call with hsame | ⟨project, d, hcall, hproject, heffect⟩
    · rw [hworld]
      exact hbefore.of_storedIn fun q id c hc => by rwa [hsame] at hc
    -- A commit is stored, so it is a merge commit of the plan of the submission.
    have hok : x.IsOk := by
      rcases σ.world.answer_insertCommit project d with ⟨_, hmissing⟩ | ⟨hdone, _⟩
      · exact absurd hproject hmissing
      · exact isOk_of_answer hanswer hcall (congrArg Prod.fst hdone)
    have horder : ¬ x.call.IsQuestion := by
      rw [hcall]
      exact id
    have hmem := mem_accepted_of_turns hturns hok
    obtain ⟨p, hpursuing⟩ := exists_plan_of_order (hrun.tail hstep) hmem horder
    rw [hcall] at hmem
    have hd : d ∈ p.draftsFor project := Plan.mem_inserts.1 (hpursuing.mem_inserts hmem)
    obtain ⟨v, hbasis⟩ := (planned_before hpursuing hturns horder).exists_basis hrun
    have hnamed : p.CollisionFree τ.world := (planned_of_pursuing hpursuing).collisionFree hfree
    rw [hworld, heffect] at hnamed ⊢
    exact hbasis.made.acyclic_withCommit hbasis.storedIn hbefore
      (addressed_of_runs haddressed hrun) hproject hd hnamed

end

end Pool
end Landing
