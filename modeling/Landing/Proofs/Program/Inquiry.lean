import Landing.Program
import Landing.Store.Answer

/-!
# Programs that only ask

Planning puts questions to the stores and gives no orders.  This file makes the
shape of such programs precise and draws the consequence that every later result
about planning rests on.

* `Program.result` is what a program comes to when a fixed world answers all of
  its calls.
* `Program.Inquires` says that a program calls for nothing but answers, that it
  publishes nothing, and that it passes an error on as soon as a call fails
  (`Relay`).
* `Program.run_of_inquires`: on every host that answers questions from a world
  or refuses them, such a program either ends with an error or comes to its result
  in that world, and it keeps what every question keeps.
-/

namespace Landing

/-- Failures that the errors of the stores can be passed on as. -/
class Relay (ε : Type) where
  /-- An error of the stores, passed on. -/
  relay : StoreError → ε

instance : Relay StoreError := ⟨id⟩

instance : Relay Failure := ⟨.storage⟩

namespace StoreCall

/-- The call asks for something and orders nothing. -/
def IsQuestion : StoreCall → Prop
  | commit .. | branches .. | get .. | byCommit .. | openByTopic .. | isVisible .. => True
  | insertCommit .. | compareAndSwap .. | markMerged .. | reopen .. => False

end StoreCall

/-- A question changes nothing. -/
theorem World.answer_question (w : World) {c : StoreCall} (hc : c.IsQuestion) :
    (w.answer c).2 = w := by
  cases c with
  | insertCommit | compareAndSwap | markMerged | reopen => exact hc.elim
  | _ => rfl

namespace Program

variable {α β σ τ ε : Type}

/-- What a program comes to when `w` answers every call and stays as it is. -/
def result (w : World) : Program α → Option α
  | done a => some a
  | exhausted => none
  | call c next => (next (w.answer c).1).result w
  | signal _ next => next.result w

theorem result_bind (w : World) (p : Program α) (f : α → Program β) :
    (p.bind f).result w = (p.result w).bind fun a => (f a).result w := by
  induction p with
  | done a => rfl
  | exhausted => rfl
  | call c next ih => exact ih _
  | signal s next ih => exact ih

/-- The run of a program followed by another one. -/
theorem run_bind (host : Host σ) (p : Program α) (f : α → Program β) (s : σ) :
    (p.bind f).run host s =
      match p.run host s with
      | (some a, s') => (f a).run host s'
      | (none, s') => (none, s') := by
  induction p generalizing s with
  | done a => rfl
  | exhausted => rfl
  | call c next ih => exact ih _ _
  | signal g next ih => exact ih _

/-- The program asks, publishes nothing, and passes the error of the first call that fails on.  Every
error of its own satisfies `E`. -/
def Inquires [Relay ε] (E : ε → Prop) : Program (Except ε α × τ) → Prop
  | done r => ∀ e, r.1 = .error e → E e
  | exhausted => True
  | call c next =>
    c.IsQuestion ∧ (∀ e, ∃ t, next (.error e) = done (.error (Relay.relay e), t)) ∧
      ∀ a, (next (.ok a)).Inquires E
  | signal s next => s.event? = none ∧ next.Inquires E

variable [Relay ε]

/-- Going on after a program that only asks: an error is passed on, and a result is followed by a
program that only asks. -/
theorem Inquires.andThen {E : ε → Prop} {p : Program (Except ε α × τ)} (hp : p.Inquires E)
    {f : Except ε α × τ → Program (Except ε β × τ)}
    (herror : ∀ e t, f (.error e, t) = done (.error e, t))
    (hok : ∀ a t, (f (.ok a, t)).Inquires E) : (p.bind f).Inquires E := by
  induction p with
  | done r =>
    obtain ⟨r, t⟩ := r
    cases r with
    | error e =>
      show (f (.error e, t)).Inquires E
      rw [herror]
      intro e' he
      cases he
      exact hp e rfl
    | ok a => exact hok a t
  | exhausted => trivial
  | call c next ih =>
    obtain ⟨hq, hfail, hnext⟩ := hp
    refine ⟨hq, fun e => ?_, fun a => ih (.ok a) (hnext a)⟩
    obtain ⟨t, hrelay⟩ := hfail e
    refine ⟨t, ?_⟩
    show (next (.error e)).bind f = _
    rw [hrelay]
    exact herror (Relay.relay e) t
  | signal s next ih => exact ⟨hp.1, ih hp.2⟩

/-- After an answer a program that only asks goes on with a program that only asks, or it passes an
error on. -/
theorem Inquires.next {E : ε → Prop} {c : StoreCall}
    {next : Except StoreError c.Reply → Program (Except ε α × τ)} (hp : (call c next).Inquires E)
    (r : Except StoreError c.Reply) :
    (next r).Inquires E ∨ ∃ e t, r = .error e ∧ next r = done (.error (Relay.relay e), t) := by
  cases r with
  | ok a => exact .inl (hp.2.2 a)
  | error e =>
    obtain ⟨t, hrelay⟩ := hp.2.1 e
    exact .inr ⟨e, t, rfl, hrelay⟩

/-- What is required of a host, as far as questions are concerned: where `I` holds, the answer is that
of `w` or an error as in `R`, and `I` still holds afterwards.  Signals without an event keep `I`,
too. -/
structure Host.AnswersFrom (host : Host σ) (I : σ → Prop) (w : World) (R : StoreError → Prop) :
    Prop where
  answer : ∀ s c, I s → c.IsQuestion →
    I (host.answer s c).2 ∧
      ((host.answer s c).1 = (w.answer c).1 ∨ ∃ e, R e ∧ (host.answer s c).1 = .error e)
  note : ∀ s g, I s → g.event? = none → I (host.note s g)

/-- A program that only asks keeps what questions keep.  It passes on an error that is not one of the
world that answers, or it ends with its result in this world. -/
theorem run_of_inquires {E : ε → Prop} {R : StoreError → Prop} {host : Host σ} {I : σ → Prop}
    {w : World} (hhost : host.AnswersFrom I w R) {p : Program (Except ε α × β)}
    (hp : p.Inquires E) {s : σ} (hs : I s) :
    I (p.run host s).2 ∧
      ((∃ e t, R e ∧ (p.run host s).1 = some (.error (Relay.relay e), t)) ∨
        (p.run host s).1 = p.result w) := by
  induction p generalizing s with
  | done r => exact ⟨hs, .inr rfl⟩
  | exhausted => exact ⟨hs, .inr rfl⟩
  | signal g next ih => exact ih hp.2 (hhost.note s g hs hp.1)
  | call c next ih =>
    obtain ⟨hkept, hanswer⟩ := hhost.answer s c hs hp.1
    rcases hanswer with hcalm | ⟨e, he, hrefused⟩
    · -- The call is answered from the world, as in the result.
      change I ((next (host.answer s c).1).run host (host.answer s c).2).2 ∧
        (_ ∨ ((next (host.answer s c).1).run host (host.answer s c).2).1 =
          (next (w.answer c).1).result w)
      rw [hcalm]
      rcases hp.next (w.answer c).1 with hnext | ⟨e, t, _, hnext⟩
      · have hrun := ih _ hnext hkept
        exact ⟨hrun.1, hrun.2.imp_left fun h => by simpa [run, hcalm] using h⟩
      · rw [hnext]
        exact ⟨hkept, .inr rfl⟩
    · -- The call fails, so the program ends here.
      obtain ⟨t, hrelay⟩ := hp.2.1 e
      refine ⟨?_, .inl ⟨e, t, he, ?_⟩⟩
      · simpa [run, hrefused, hrelay] using hkept
      · simp [run, hrefused, hrelay]

end Program

end Landing
