import Landing.Proofs.Program.Study

/-!
# Studies that fail

`Study.Yields` takes a successful study apart.  `Study.FailsWith` does the same for a
study that ends with an error: of two steps, the first one fails, or it succeeds and
the second one fails after it.

A study that only asks need not be taken apart to know with what it may fail: it has
errors of its own, and it passes on the errors that it was answered
(`Study.IsInquiry.of_failsWith`).
-/

namespace Landing

variable {ε α β : Type}

/-- With answers that `A` allows, the study `x` may end with the error `e` when it goes on from the
history `h`. -/
def Study.FailsWith (A : (c : StoreCall) → Except StoreError c.Reply → Prop) (x : Study ε α)
    (h : History) (e : ε) : Prop :=
  ∃ h', Program.MayCome A (x h) (.error e, h')

namespace Study

variable {A : (c : StoreCall) → Except StoreError c.Reply → Prop} {h : History} {e : ε}

@[simp] theorem failsWith_pure {a : α} : ¬ FailsWith A (pure a : Study ε α) h e := by
  rintro ⟨h', hfails⟩
  cases hfails

@[simp] theorem failsWith_throw {e' : ε} :
    FailsWith A (throw e' : Study ε α) h e ↔ e = e' := by
  constructor
  · rintro ⟨h', hfails⟩
    cases hfails
    rfl
  · rintro rfl
    exact ⟨h, rfl⟩

/-- A study in two steps fails when the first one does, or the second one after the first. -/
theorem failsWith_bind {x : Study ε α} {f : α → Study ε β} :
    FailsWith A (x >>= f) h e ↔
      FailsWith A x h e ∨ ∃ a h₁, Yields A x h a h₁ ∧ FailsWith A (f a) h₁ e := by
  have hbind : ∀ h', Program.MayCome A ((x >>= f) h) (.error e, h') ↔
      ∃ r, Program.MayCome A (x h) r ∧ Program.MayCome A (match r with
        | (.ok a, h₁) => f a h₁
        | (.error e, h₁) => .done (.error e, h₁)) (.error e, h') := by
    intro h'
    rw [← Program.mayCome_bind]
    show Program.MayCome A ((x h).bind _) _ ↔ _
    apply iff_of_eq
    congr 2
    funext r
    obtain ⟨r, h₁⟩ := r
    cases r <;> rfl
  constructor
  · rintro ⟨h', hfails⟩
    obtain ⟨⟨r, h₁⟩, hx, hf⟩ := (hbind h').1 hfails
    cases r with
    | error e' =>
      cases hf
      exact .inl ⟨_, hx⟩
    | ok a => exact .inr ⟨a, h₁, hx, h', hf⟩
  · rintro (⟨h', hx⟩ | ⟨a, h₁, hx, h', hf⟩)
    · exact ⟨h', (hbind h').2 ⟨(.error e, h'), hx, rfl⟩⟩
    · exact ⟨h', (hbind h').2 ⟨(.ok a, h₁), hx, hf⟩⟩

end Study

variable {A : (c : StoreCall) → Except StoreError c.Reply → Prop} {h : History}

/-- A study that only asks fails with an error of its own, or it passes on an error that it was
answered. -/
theorem Study.IsInquiry.of_failsWith [Relay ε] {E : ε → Prop} {x : Study ε α} (hx : x.IsInquiry E)
    {e : ε} (hfails : FailsWith A x h e) :
    E e ∨ ∃ c e', c.IsQuestion ∧ A c (.error e') ∧ e = Relay.relay e' := by
  obtain ⟨h', hfails⟩ := hfails
  exact (hx.inquires h).of_mayCome hfails

/-- The failure passes on an error with which a question was answered. -/
def Failure.PassedOn (A : (c : StoreCall) → Except StoreError c.Reply → Prop) (f : Failure) : Prop :=
  ∃ c e, c.IsQuestion ∧ A c (.error e) ∧ f = .storage e

end Landing
