import Landing.Proofs.Program.Budget
import Landing.Proofs.Program.Ending

/-!
# Studies that always come to the same value

What a study finds out may not depend on what was remembered before.  It is said
here that a study returns a certain value from every history of some kind, and of
what kind the history is afterwards (`World.Returns`).

The value stands in the rules for putting studies together as it stands in the
do-notation, so the value of a larger study is computed from those of its parts.
A study that returns comes to an end, and a plan that is computed twice, from two
histories of that kind, is computed to be the same.
-/

namespace Landing

variable {ε α β : Type}

namespace Program

/-- What a program may come to is related to itself if the program outlasts itself. -/
theorem Outlasted.of_mayCome {R : α → α → Prop} {p : Program α}
    {A : (c : StoreCall) → Except StoreError c.Reply → Prop} (h : p.Outlasted R p) {a : α}
    (hcome : p.MayCome A a) : R a a := by
  induction p with
  | done b =>
    obtain ⟨_, heq, hR⟩ := h
    cases heq
    cases hcome
    exact hR
  | exhausted => exact hcome.elim
  | call c next ih =>
    obtain ⟨_, heq, hnext⟩ := h
    cases heq
    obtain ⟨r, _, hrest⟩ := hcome
    exact ih r (hnext r) hrest
  | signal s next ih =>
    obtain ⟨_, heq, hnext⟩ := h
    cases heq
    exact ih hnext hcome

/-- What a program comes to is related to what the other one comes to. -/
theorem Outlasted.result {R : α → β → Prop} {p : Program α} {q : Program β} (h : p.Outlasted R q)
    {w : World} {a : α} (hresult : p.result w = some a) : ∃ b, q.result w = some b ∧ R a b := by
  induction p generalizing q with
  | done a' =>
    obtain ⟨b, rfl, hR⟩ := h
    cases hresult
    exact ⟨b, rfl, hR⟩
  | exhausted => cases hresult
  | call c next ih =>
    obtain ⟨next', rfl, hnext⟩ := h
    have hrest := ih (w.answer c).1 (hnext _) hresult
    exact hrest
  | signal s next ih =>
    obtain ⟨next', rfl, hnext⟩ := h
    have hrest := ih hnext hresult
    exact hrest

end Program

namespace Study

variable {x : Study ε α} {h h' : History} {a : α} {w : World}

/-- A study for which a larger budget is as good does not change the budget. -/
theorem Elastic.budget_eq (hx : x.Elastic) {A : (c : StoreCall) → Except StoreError c.Reply → Prop}
    (hy : Yields A x h a h') : h'.budget = h.budget := by
  have hself := (hx h h.budget (Nat.le_refl _)).of_mayCome hy
  exact congrArg (fun r : Except ε α × History => r.2.budget) hself.1

/-- With a larger budget the study comes to the same value. -/
theorem Elastic.result_of_le (hx : x.Elastic) {budget : Nat} (hle : h.budget ≤ budget)
    {r : Except ε α} (hresult : Program.result w (x h) = some (r, h')) :
    ∃ h₁, Program.result w (x (h.withBudget budget)) = some (r, h₁) := by
  obtain ⟨_, hresult', rfl, -⟩ := (hx h budget hle).result hresult
  exact ⟨_, hresult'⟩

/-- What a study comes to does not depend on the budget. -/
theorem Elastic.result_unique (hx : x.Elastic) {budget budget' : Nat} {r r' : Except ε α}
    {h₁ h₂ : History} (hresult : Program.result w (x (h.withBudget budget)) = some (r, h₁))
    (hresult' : Program.result w (x (h.withBudget budget')) = some (r', h₂)) : r = r' := by
  obtain ⟨_, hlarger⟩ := hx.result_of_le (Nat.le_max_left budget budget') hresult
  obtain ⟨_, hlarger'⟩ := hx.result_of_le (Nat.le_max_right budget budget') hresult'
  have hsame := hlarger.symm.trans hlarger'
  cases hsame
  rfl

end Study

namespace World

/-- In `w` the study `x` returns the value `a` from every history that satisfies `I`, and the history
satisfies `J` then. -/
def Returns (w : World) (I : History → Prop) (x : Study ε α) (a : α) (J : History → Prop) : Prop :=
  ∀ h, I h → ∃ h', Program.result w (x h) = some (.ok a, h') ∧ J h'

variable {w : World} {I J K : History → Prop} {x : Study ε α} {a : α}

theorem Returns.mono {I' J' : History → Prop} (hx : w.Returns I x a J) (hI : ∀ h, I' h → I h)
    (hJ : ∀ h, J h → J' h) : w.Returns I' x a J' := by
  intro h hh
  obtain ⟨h', hresult, hh'⟩ := hx h (hI h hh)
  exact ⟨h', hresult, hJ h' hh'⟩

/-- A study that comes to an end without an error, and always with this value, returns it. -/
theorem returns_of_ends
    (hx : ∀ h, I h → w.Ends x h (fun b h' => b = a ∧ J h') fun _ => False) :
    w.Returns I x a J := by
  intro h hI
  obtain ⟨r, h', hresult, hr⟩ := hx h hI
  cases r with
  | error e => exact hr.elim
  | ok b =>
    obtain ⟨rfl, hJ⟩ := hr
    exact ⟨h', hresult, hJ⟩

theorem returns_pure (a : α) : w.Returns I (pure a : Study ε α) a I :=
  fun h hI => ⟨h, rfl, hI⟩

/-- A study in two steps returns what the second step returns after the first. -/
theorem Returns.bind {f : α → Study ε β} {b : β} (hx : w.Returns I x a J)
    (hf : w.Returns J (f a) b K) : w.Returns I (x >>= f) b K := by
  intro h hI
  obtain ⟨h₁, hfirst, hJ⟩ := hx h hI
  obtain ⟨h', hsecond, hK⟩ := hf h₁ hJ
  refine ⟨h', ?_, hK⟩
  change Program.result w ((x h).bind _) = _
  rw [Program.result_bind, hfirst]
  exact hsecond

/-- Going on from a step that has come to an end already. -/
theorem result_bind_of_ok {f : α → Study ε β} {h h₁ : History} {r : Option (Except ε β × History)}
    (hfirst : Program.result w (x h) = some (.ok a, h₁))
    (hrest : Program.result w (f a h₁) = r) : Program.result w ((x >>= f) h) = r := by
  change Program.result w ((x h).bind _) = _
  rw [Program.result_bind, hfirst]
  exact hrest

/-- A reading within a planning returns what it returns by itself. -/
theorem Returns.read {x : Reading α} (hx : w.Returns I x a J) :
    w.Returns I (Planning.read x) a J := by
  intro h hI
  obtain ⟨h', hresult, hJ⟩ := hx h hI
  refine ⟨h', ?_, hJ⟩
  change Program.result w ((x h).bind _) = _
  rw [Program.result_bind, hresult]
  rfl

theorem returns_tell (s : Signal) : w.Returns I (Planning.tell s) () I :=
  fun h hI => ⟨h, rfl, hI⟩

/-- Studying the members of a list, each of which has a value. -/
theorem exists_returns_mapM {f : α → Study ε β} {l : List α}
    (hf : ∀ a ∈ l, ∃ b, w.Returns I (f a) b I) : ∃ bs, w.Returns I (l.mapM f) bs I := by
  induction l with
  | nil => exact ⟨[], returns_pure []⟩
  | cons a l ih =>
    obtain ⟨b, hb⟩ := hf a (by simp)
    obtain ⟨bs, hbs⟩ := ih fun a' ha' => hf a' (by simp [ha'])
    refine ⟨b :: bs, ?_⟩
    rw [List.mapM_cons]
    exact hb.bind (hbs.bind (returns_pure (b :: bs)))

/-- Selecting the members of a list that pass a test. -/
theorem returns_filterM {f : α → Study ε Bool} {l : List α} (test : α → Bool)
    (hf : ∀ a ∈ l, w.Returns I (f a) (test a) I) :
    w.Returns I (l.filterM f) (l.filter test) I := by
  -- What was kept before is in front, in reverse.
  have haux : ∀ acc : List α, w.Returns I (l.filterAuxM f acc)
      ((l.filter test).reverse ++ acc) I := by
    induction l with
    | nil => exact fun acc => returns_pure acc
    | cons a l ih =>
      intro acc
      refine (hf a (by simp)).bind ?_
      have hrest := ih fun a' ha' => hf a' (by simp [ha'])
      cases htest : test a with
      | true => simpa [List.filter_cons, htest] using hrest (a :: acc)
      | false => simpa [List.filter_cons, htest] using hrest acc
  refine (haux []).bind ?_
  rw [List.append_nil, List.reverse_reverse]
  exact returns_pure _

end World
end Landing
