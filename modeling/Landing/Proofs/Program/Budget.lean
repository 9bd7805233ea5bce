import Landing.Proofs.Program.Study

/-!
# More budget

A program that has used its budget up stops without a result, which no store and
no observer can tell from one that goes on for ever.  So it has to be known that
budgets are of no other consequence.

* `Program.Outlasted` compares a program with one that has a larger budget: they
  do the same until the first one is exhausted.  If it is not, then the other one
  ends with the same result and leaves the same state behind (`Outlasted.run`).
* `Study.Elastic` lifts this to studies, with one rule for every way in which the
  studies of this library are put together.  A study may look up its budget only
  to hand it to a loop for which a larger one is as good (`outlasted_get`).
-/

namespace Landing

namespace Program

variable {α β γ δ σ : Type} {R : α → β → Prop} {p : Program α} {q : Program β}

/-- `q` does what `p` does until `p` is exhausted.  When `p` has a result, `q` has one that is related
to it. -/
def Outlasted (R : α → β → Prop) : Program α → Program β → Prop
  | done a, q => ∃ b, q = done b ∧ R a b
  | exhausted, _ => True
  | call c next, q => ∃ next', q = call c next' ∧ ∀ r, Outlasted R (next r) (next' r)
  | signal s next, q => ∃ next', q = signal s next' ∧ Outlasted R next next'

theorem Outlasted.refl (p : Program α) : p.Outlasted (· = ·) p := by
  induction p with
  | done a => exact ⟨a, rfl, rfl⟩
  | exhausted => trivial
  | call c next ih => exact ⟨next, rfl, ih⟩
  | signal s next ih => exact ⟨next, rfl, ih⟩

theorem Outlasted.bind {R' : γ → δ → Prop} {f : α → Program γ} {g : β → Program δ}
    (h : p.Outlasted R q) (hf : ∀ a b, R a b → (f a).Outlasted R' (g b)) :
    (p.bind f).Outlasted R' (q.bind g) := by
  induction p generalizing q with
  | done a =>
    obtain ⟨b, rfl, hR⟩ := h
    exact hf a b hR
  | exhausted => trivial
  | call c next ih =>
    obtain ⟨next', rfl, hnext⟩ := h
    exact ⟨_, rfl, fun r => ih r (hnext r)⟩
  | signal s next ih =>
    obtain ⟨next', rfl, hnext⟩ := h
    exact ⟨_, rfl, ih hnext⟩

/-- What follows may be the same for both. -/
theorem Outlasted.bind_same {p q : Program α} (h : p.Outlasted (· = ·) q) (f : α → Program γ) :
    (p.bind f).Outlasted (· = ·) (q.bind f) := by
  refine h.bind fun a b hab => ?_
  rw [hab]
  exact .refl (f b)

/-- A program that is not exhausted ends as the other one does, whatever it runs against. -/
theorem Outlasted.run {p q : Program α} (h : p.Outlasted (· = ·) q) {host : Host σ} {s s' : σ} {a : α}
    (hrun : p.run host s = (some a, s')) : q.run host s = (some a, s') := by
  induction p generalizing q s with
  | done b =>
    obtain ⟨_, rfl, rfl⟩ := h
    exact hrun
  | exhausted => cases hrun
  | call c next ih =>
    obtain ⟨next', rfl, hnext⟩ := h
    exact ih _ (hnext _) hrun
  | signal g next ih =>
    obtain ⟨next', rfl, hnext⟩ := h
    exact ih hnext hrun

end Program

/-- The history with another budget. -/
def History.withBudget (h : History) (budget : Nat) : History := { h with budget }

namespace Study

variable {ε α β : Type}

/-- What `x` comes to `y` comes to with any larger budget. -/
def Outlasted (x y : Study ε α) : Prop :=
  ∀ h budget, h.budget ≤ budget →
    Program.Outlasted (fun r r' => r' = (r.1, r.2.withBudget budget) ∧ r.2.budget ≤ budget)
      (x h) (y (h.withBudget budget))

/-- With a larger budget the study comes to the same. -/
def Elastic (x : Study ε α) : Prop := x.Outlasted x

theorem Outlasted.bind {x y : Study ε α} {f g : α → Study ε β} (hx : x.Outlasted y)
    (hf : ∀ a, (f a).Outlasted (g a)) : (x >>= f).Outlasted (y >>= g) := by
  intro h budget hle
  refine Program.Outlasted.bind (hx h budget hle) ?_
  rintro ⟨r, h₁⟩ _ ⟨rfl, hle₁⟩
  cases r with
  | error e => exact ⟨_, rfl, rfl, hle₁⟩
  | ok a => exact hf a h₁ budget hle₁

theorem Elastic.bind {x : Study ε α} {f : α → Study ε β} (hx : x.Elastic)
    (hf : ∀ a, Elastic (f a)) : Elastic (x >>= f) :=
  Outlasted.bind hx hf

/-- What depends on the budget must be as good with a larger one. -/
theorem outlasted_get {f g : History → Study ε α}
    (hf : ∀ h budget, h.budget ≤ budget → (f h).Outlasted (g (h.withBudget budget))) :
    (get >>= f).Outlasted (get >>= g) :=
  fun h budget hle => hf h budget hle h budget hle

theorem elastic_get {f : History → Study ε α} (hsame : ∀ h budget, f (h.withBudget budget) = f h)
    (hf : ∀ h, Elastic (f h)) : Elastic (get >>= f) := by
  refine outlasted_get fun h budget _ => ?_
  rw [hsame]
  exact hf h

theorem elastic_modify {f : History → History}
    (hsame : ∀ h budget, f (h.withBudget budget) = (f h).withBudget budget)
    (hbudget : ∀ h, (f h).budget = h.budget) : Elastic (modify f : Study ε PUnit) := by
  intro h budget hle
  refine ⟨_, rfl, ?_, ?_⟩
  · show (Except.ok PUnit.unit, f (h.withBudget budget)) = _
    rw [hsame]
  · show (f h).budget ≤ budget
    rw [hbudget]
    exact hle

theorem elastic_pure (a : α) : Elastic (pure a : Study ε α) := fun _ _ hle => ⟨_, rfl, rfl, hle⟩

theorem elastic_throw (e : ε) : Elastic (throw e : Study ε α) := fun _ _ hle => ⟨_, rfl, rfl, hle⟩

theorem outlasted_exhausted (y : Reading α) : Outlasted Reading.exhausted y := fun _ _ _ => trivial

theorem elastic_ask (c : StoreCall) : Elastic (Reading.ask c) :=
  fun _ _ hle => ⟨_, rfl, fun _ => ⟨_, rfl, rfl, hle⟩⟩

theorem elastic_planning_ask (c : StoreCall) : Elastic (Planning.ask c) :=
  fun _ _ hle => ⟨_, rfl, fun _ => ⟨_, rfl, rfl, hle⟩⟩

theorem elastic_tell (s : Signal) : Elastic (Planning.tell s) :=
  fun _ _ hle => ⟨_, rfl, _, rfl, rfl, hle⟩

theorem Elastic.read {x : Reading α} (hx : Elastic x) : Elastic (Planning.read x) := by
  intro h budget hle
  refine Program.Outlasted.bind (hx h budget hle) ?_
  rintro ⟨r, h₁⟩ _ ⟨rfl, hle₁⟩
  exact ⟨_, rfl, rfl, hle₁⟩

theorem Elastic.lift {x : Reading α} (hx : Elastic x) : Elastic (liftM x : Planning α) := hx.read

theorem Elastic.map {x : Study ε α} (hx : x.Elastic) (f : α → β) : Elastic (f <$> x) := by
  rw [map_eq_pure_bind]
  exact hx.bind fun a => elastic_pure (f a)

theorem elastic_mapM {f : α → Study ε β} (hf : ∀ a, Elastic (f a)) (l : List α) :
    Elastic (l.mapM f) := by
  induction l with
  | nil => exact elastic_pure []
  | cons a l ih =>
    rw [List.mapM_cons]
    exact (hf a).bind fun b => ih.bind fun bs => elastic_pure (b :: bs)

theorem elastic_filterM {f : α → Study ε Bool} (hf : ∀ a, Elastic (f a)) (l : List α) :
    Elastic (l.filterM f) := by
  have haux : ∀ (l acc : List α), Elastic (l.filterAuxM f acc) := by
    intro l
    induction l with
    | nil => exact fun acc => elastic_pure acc
    | cons a l ih => exact fun acc => (hf a).bind fun b => ih _
  exact (haux l []).bind fun kept => elastic_pure kept.reverse

end Study
end Landing
