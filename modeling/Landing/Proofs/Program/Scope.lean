import Landing.Proofs.Program.Study

/-!
# What a program calls for

A program that makes only certain calls knows nothing of the stores but what these
calls tell.  `Program.CallsOnly` is for the calls of a program, as long as the
answers are as can be expected.

* `Program.result_congr`: two worlds that answer these calls alike make the
  program come to the same.
* `Study.CallsOnly` lifts this to studies, with one rule for every way in which
  the studies of this library are put together.  What is done with the result of
  a step needs to be looked at only for results that the step may yield.
-/

namespace Landing

namespace Program

variable {α β : Type} {S : StoreCall → Prop}
variable {A : (c : StoreCall) → Except StoreError c.Reply → Prop}

/-- As long as the answers are allowed by `A`, all calls of the program are in `S`. -/
def CallsOnly (S : StoreCall → Prop) (A : (c : StoreCall) → Except StoreError c.Reply → Prop) :
    Program α → Prop
  | done _ => True
  | exhausted => True
  | call c next => S c ∧ ∀ r, A c r → (next r).CallsOnly S A
  | signal _ next => next.CallsOnly S A

theorem CallsOnly.bind {p : Program α} (hp : p.CallsOnly S A) {f : α → Program β}
    (hf : ∀ a, p.MayCome A a → (f a).CallsOnly S A) : (p.bind f).CallsOnly S A := by
  induction p with
  | done a => exact hf a rfl
  | exhausted => trivial
  | call c next ih =>
    exact ⟨hp.1, fun r hr => ih r (hp.2 r hr) fun a ha => hf a ⟨r, hr, ha⟩⟩
  | signal s next ih => exact ih hp hf

theorem Silent.callsOnly {good : α → Prop} {p : Program α} (hp : p.Silent good) :
    p.CallsOnly S A := by
  induction p with
  | done a => trivial
  | exhausted => trivial
  | call => exact hp.elim
  | signal s next ih => exact ih hp

theorem Silent.of_mayCome {good : α → Prop} {p : Program α} (hp : p.Silent good) {a : α}
    (ha : p.MayCome A a) : good a := by
  induction p with
  | done b =>
    cases ha
    exact hp
  | exhausted => exact hp.elim
  | call => exact hp.elim
  | signal s next ih => exact ih hp ha

/-- A program that makes a call for every item makes no others. -/
theorem Executes.callsOnly {κ : Type} {item : κ → StoreCall} {good : α → Prop}
    {bad : List κ → α → Prop} {items : List κ} {p : Program α} (hp : Executes item good bad items p)
    (hitems : ∀ k ∈ items, S (item k)) : p.CallsOnly S A := by
  induction items generalizing p bad with
  | nil => exact Silent.callsOnly hp
  | cons k items ih =>
    obtain ⟨next, rfl, hok, herror⟩ := hp
    refine ⟨hitems k (by simp), fun r _ => ?_⟩
    cases r with
    | ok reply => exact ih (hok reply) fun k' hk' => hitems k' (by simp [hk'])
    | error e => exact (herror e).callsOnly

/-- What such a program may come to. -/
theorem Executes.of_mayCome {κ : Type} {item : κ → StoreCall} {good : α → Prop}
    {bad : List κ → α → Prop} {items : List κ} {p : Program α} (hp : Executes item good bad items p)
    {a : α} (ha : p.MayCome A a) : good a ∨ ∃ finished, finished <+: items ∧ bad finished a := by
  induction items generalizing p bad with
  | nil => exact .inl (Silent.of_mayCome hp ha)
  | cons k items ih =>
    obtain ⟨next, rfl, hok, herror⟩ := hp
    obtain ⟨r, _, ha⟩ := ha
    cases r with
    | ok reply =>
      refine (ih (hok reply) ha).imp_right ?_
      rintro ⟨finished, hfinished, hbad⟩
      exact ⟨k :: finished, List.cons_prefix_cons.2 ⟨rfl, hfinished⟩, hbad⟩
    | error e => exact .inr ⟨[], List.nil_prefix, (herror e).of_mayCome ha⟩

/-- A program comes to the same in two worlds that answer its calls alike. -/
theorem result_congr {w w' : World} {p : Program α} (hp : p.CallsOnly S A)
    (hanswer : ∀ c, S c → A c (w.answer c).1) (hsame : ∀ c, S c → (w'.answer c).1 = (w.answer c).1) :
    p.result w' = p.result w := by
  induction p with
  | done a => rfl
  | exhausted => rfl
  | call c next ih =>
    show (next (w'.answer c).1).result w' = (next (w.answer c).1).result w
    rw [hsame c hp.1]
    exact ih _ (hp.2 _ (hanswer c hp.1))
  | signal s next ih => exact ih hp

end Program

namespace Study

variable {ε α β : Type} {S : StoreCall → Prop}
variable {A : (c : StoreCall) → Except StoreError c.Reply → Prop}

/-- From every history the study makes only calls in `S`, as long as the answers are allowed by
`A`. -/
def CallsOnly (S : StoreCall → Prop) (A : (c : StoreCall) → Except StoreError c.Reply → Prop)
    (x : Study ε α) : Prop :=
  ∀ h, Program.CallsOnly S A (x h)

theorem CallsOnly.bind {x : Study ε α} {f : α → Study ε β} (hx : x.CallsOnly S A)
    (hf : ∀ a h h', Study.Yields A x h a h' → (f a).CallsOnly S A) : (x >>= f).CallsOnly S A := by
  intro h
  refine (hx h).bind fun r hr => ?_
  obtain ⟨r, h₁⟩ := r
  cases r with
  | error e => trivial
  | ok a => exact hf a h h₁ hr h₁

theorem callsOnly_pure (a : α) : CallsOnly S A (pure a : Study ε α) := fun _ => trivial

theorem callsOnly_get : CallsOnly S A (get : Study ε History) := fun _ => trivial

theorem callsOnly_modify (f : History → History) : CallsOnly S A (modify f : Study ε PUnit) :=
  fun _ => trivial

theorem callsOnly_throw (e : ε) : CallsOnly S A (throw e : Study ε α) := fun _ => trivial

theorem callsOnly_exhausted : CallsOnly S A (Reading.exhausted : Reading α) := fun _ => trivial

theorem callsOnly_ask {c : StoreCall} (hc : S c) : CallsOnly S A (Reading.ask c) :=
  fun _ => ⟨hc, fun _ _ => trivial⟩

theorem callsOnly_planning_ask {c : StoreCall} (hc : S c) : CallsOnly S A (Planning.ask c) :=
  fun _ => ⟨hc, fun _ _ => trivial⟩

theorem callsOnly_tell (s : Signal) : CallsOnly S A (Planning.tell s) := fun _ => trivial

theorem CallsOnly.read {x : Reading α} (hx : CallsOnly S A x) :
    CallsOnly S A (Planning.read x) :=
  fun h => (hx h).bind fun _ _ => trivial

theorem CallsOnly.lift {x : Reading α} (hx : CallsOnly S A x) :
    CallsOnly S A (liftM x : Planning α) :=
  hx.read

theorem CallsOnly.map {x : Study ε α} (hx : x.CallsOnly S A) (f : α → β) :
    (f <$> x).CallsOnly S A := by
  rw [map_eq_pure_bind]
  exact hx.bind fun a _ _ _ => callsOnly_pure (f a)

theorem callsOnly_mapM {f : α → Study ε β} {l : List α} (hf : ∀ a ∈ l, (f a).CallsOnly S A) :
    (l.mapM f).CallsOnly S A := by
  induction l with
  | nil => exact callsOnly_pure []
  | cons a l ih =>
    rw [List.mapM_cons]
    refine (hf a (by simp)).bind fun b _ _ _ => ?_
    exact (ih fun a' ha' => hf a' (by simp [ha'])).bind fun bs _ _ _ => callsOnly_pure (b :: bs)

theorem callsOnly_filterM {f : α → Study ε Bool} {l : List α} (hf : ∀ a, (f a).CallsOnly S A) :
    (l.filterM f).CallsOnly S A := by
  have haux : ∀ (l acc : List α), (l.filterAuxM f acc).CallsOnly S A := by
    intro l
    induction l with
    | nil => exact fun acc => callsOnly_pure acc
    | cons a l ih => exact fun acc => (hf a).bind fun b _ _ _ => ih _
  exact (haux l []).bind fun kept _ _ _ => callsOnly_pure kept.reverse

end Study
end Landing
