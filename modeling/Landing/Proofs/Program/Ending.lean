import Landing.Proofs.Program.Study

/-!
# Studies that come to an end

`Study.Yields` speaks about a study that has succeeded.  Here it is said that a study
comes to an end in a world that answers all its calls and stays as it is: its budget
is not used up, its value and its history are as promised, and an error of its own is
among those that were announced (`World.Ends`).

There is one rule for every way in which studies are put together, and
`World.Ends.and_yields` adds to the promise what every success is known to bring.
-/

namespace Landing

variable {ε α β : Type}

/-- In `w` the study `x` comes to an end from the history `h`: to a value and a history as `good`
says, or to an error as `bad` says. -/
def World.Ends (w : World) (x : Study ε α) (h : History) (good : α → History → Prop)
    (bad : ε → Prop) : Prop :=
  ∃ r h', Program.result w (x h) = some (r, h') ∧
    match r with
    | .ok a => good a h'
    | .error e => bad e

namespace World

variable {w : World} {h : History} {good : α → History → Prop} {bad : ε → Prop}

theorem Ends.mono {good' : α → History → Prop} {bad' : ε → Prop} {x : Study ε α}
    (hx : w.Ends x h good bad) (hgood : ∀ a h', good a h' → good' a h')
    (hbad : ∀ e, bad e → bad' e) : w.Ends x h good' bad' := by
  obtain ⟨r, h', hresult, hr⟩ := hx
  refine ⟨r, h', hresult, ?_⟩
  cases r with
  | ok a => exact hgood a h' hr
  | error e => exact hbad e hr

/-- Every success brings what it is known to bring. -/
theorem Ends.and_yields {P : α → History → Prop} {x : Study ε α} (hx : w.Ends x h good bad)
    (hP : ∀ a h', w.Yields x h a h' → P a h') :
    w.Ends x h (fun a h' => good a h' ∧ P a h') bad := by
  obtain ⟨r, h', hresult, hr⟩ := hx
  refine ⟨r, h', hresult, ?_⟩
  cases r with
  | ok a =>
    refine ⟨hr, hP a h' (Program.mayCome_of_result (fun c => ?_) hresult)⟩
    exact shows_answer (fun _ _ => trivial) c
  | error e => exact hr

theorem ends_pure {a : α} (ha : good a h) : w.Ends (pure a : Study ε α) h good bad :=
  ⟨.ok a, h, rfl, ha⟩

theorem ends_throw {e : ε} (he : bad e) : w.Ends (throw e : Study ε α) h good bad :=
  ⟨.error e, h, rfl, he⟩

/-- A study in two steps comes to an end when the first step does and the second one does after
it. -/
theorem Ends.bind {x : Study ε α} {f : α → Study ε β} {m : α → History → Prop}
    {good : β → History → Prop} (hx : w.Ends x h m bad)
    (hf : ∀ a h', m a h' → w.Ends (f a) h' good bad) : w.Ends (x >>= f) h good bad := by
  obtain ⟨r, h₁, hresult, hr⟩ := hx
  have hbind : Program.result w ((x >>= f) h) = Program.result w (match r with
      | .ok a => f a h₁
      | .error e => .done (.error e, h₁)) := by
    change Program.result w ((x h).bind _) = _
    rw [Program.result_bind, hresult]
    cases r <;> rfl
  cases r with
  | ok a =>
    obtain ⟨r', h', hresult', hr'⟩ := hf a h₁ hr
    exact ⟨r', h', hbind.trans hresult', hr'⟩
  | error e => exact ⟨.error e, h₁, hbind, hr⟩

theorem Ends.map {x : Study ε α} {f : α → β} {good : β → History → Prop}
    (hx : w.Ends x h (fun a h' => good (f a) h') bad) : w.Ends (f <$> x) h good bad := by
  rw [map_eq_pure_bind]
  exact hx.bind fun a h' ha => ends_pure ha

/-- A study that looks at the history goes on from it. -/
theorem ends_get_bind {f : History → Study ε α} (hf : w.Ends (f h) h good bad) :
    w.Ends (get >>= f) h good bad := hf

theorem ends_modify {f : History → History} {good : PUnit → History → Prop}
    (hf : good .unit (f h)) : w.Ends (modify f : Study ε PUnit) h good bad :=
  ⟨.ok .unit, f h, rfl, hf⟩

/-- A call of a reading ends as the world answers. -/
theorem ends_ask {c : StoreCall} {good : c.Reply → History → Prop} {bad : StoreError → Prop}
    (hok : ∀ a, (w.answer c).1 = .ok a → good a h) (herror : ∀ e, (w.answer c).1 = .error e → bad e) :
    w.Ends (Reading.ask c) h good bad := by
  refine ⟨(w.answer c).1, h, rfl, ?_⟩
  cases hanswer : (w.answer c).1 with
  | ok a => exact hok a hanswer
  | error e => exact herror e hanswer

/-- A call of a planning ends as the world answers. -/
theorem ends_planning_ask {c : StoreCall} {good : c.Reply → History → Prop} {bad : Failure → Prop}
    (hok : ∀ a, (w.answer c).1 = .ok a → good a h)
    (herror : ∀ e, (w.answer c).1 = .error e → bad (.storage e)) :
    w.Ends (Planning.ask c) h good bad := by
  refine ⟨Planning.ofAnswer (w.answer c).1, h, rfl, ?_⟩
  cases hanswer : (w.answer c).1 with
  | ok a => exact hok a hanswer
  | error e => exact herror e hanswer

theorem ends_tell {s : Signal} {good : Unit → History → Prop} {bad : Failure → Prop}
    (hs : good () h) : w.Ends (Planning.tell s) h good bad :=
  ⟨.ok (), h, rfl, hs⟩

/-- A reading within a planning ends as it does by itself. -/
theorem Ends.read {x : Reading α} {bad : Failure → Prop}
    (hx : w.Ends x h good fun e => bad (.storage e)) : w.Ends (Planning.read x) h good bad := by
  obtain ⟨r, h', hresult, hr⟩ := hx
  refine ⟨Planning.ofAnswer r, h', ?_, ?_⟩
  · change Program.result w ((x h).bind _) = _
    rw [Program.result_bind, hresult]
    rfl
  · cases r <;> exact hr

/-- Studying the members of a list one after another. -/
theorem ends_mapM {f : α → Study ε β} {I : History → Prop} {R : α → β → Prop} {l : List α}
    (hstep : ∀ a ∈ l, ∀ h, I h → w.Ends (f a) h (fun b h' => I h' ∧ R a b) bad) (hI : I h) :
    w.Ends (l.mapM f) h (fun bs h' => I h' ∧ List.Forall₂ R l bs) bad := by
  induction l generalizing h with
  | nil => exact ends_pure ⟨hI, .nil⟩
  | cons a l ih =>
    rw [List.mapM_cons]
    refine (hstep a (by simp) h hI).bind fun b h₁ hb => ?_
    refine (ih (fun a' ha' => hstep a' (by simp [ha'])) hb.1).bind fun bs h₂ hbs => ?_
    exact ends_pure ⟨hbs.1, .cons hb.2 hbs.2⟩

/-- Selecting members of a list with a test that comes to an end at each of them. -/
theorem ends_filterM {f : α → Study ε Bool} {I : History → Prop} {l : List α}
    (hstep : ∀ a ∈ l, ∀ h, I h → w.Ends (f a) h (fun _ h' => I h') bad) (hI : I h) :
    w.Ends (l.filterM f) h (fun _ h' => I h') bad := by
  have haux : ∀ (l acc : List α) (h : History),
      (∀ a ∈ l, ∀ h, I h → w.Ends (f a) h (fun _ h' => I h') bad) → I h →
        w.Ends (l.filterAuxM f acc) h (fun _ h' => I h') bad := by
    intro l
    induction l with
    | nil => exact fun acc h _ hI => ends_pure hI
    | cons a l ih =>
      intro acc h hstep hI
      refine (hstep a (by simp) h hI).bind fun b h₁ hI₁ => ?_
      exact ih _ h₁ (fun a' ha' => hstep a' (by simp [ha'])) hI₁
  exact (haux l [] h hstep hI).bind fun kept h₁ hI₁ => ends_pure hI₁

end World
end Landing
