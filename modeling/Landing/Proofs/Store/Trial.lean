import Landing.Proofs.Store.Calm

/-!
# Stores at the mercy of an adversary

A trial runs a program against a world while an adversary, who knows all calls and
answers so far, decides about the trouble of every call: the call may be refused,
the interference that it sets off may fail, and the call may fail after the
interference has taken place.  All calls are recorded with their answers, and so
are the interference and the events that were published.

* `Trial.answered` says what may happen at a call: it fails, or the world answers
  it, and either way the armed branch may have been moved before
  (`Trial.Drift`).
* `Trial.answer_compareAndSwap` and its companions say what an order may come to.
* `Trial.Ends` is the calculus for programs that end whatever the adversary does.
* `Service.run_eq_trial`: a service with arranged faults and interference is a
  trial against one particular adversary.
-/

namespace Landing

/-! ### Trials -/

/-- The errors with which the stages of a call fail, if they do. -/
structure Trouble where
  /-- The call is refused before anything happens. -/
  refused : Option StoreError
  /-- The interference that the call sets off fails. -/
  hindered : Option StoreError
  /-- The call fails after the interference. -/
  spoiled : Option StoreError

/-- The adversary decides in view of all exchanges so far, latest first. -/
abbrev Adversary := List Exchange → StoreCall → Trouble

/-- What a program has done to a world, with all that has happened on the way. -/
structure Trial where
  world : World
  /-- The interference that has not taken place yet. -/
  armed : Option Interference
  /-- The interference that has taken place. -/
  moved : Option Interference
  published : List Event
  /-- All calls with their answers, latest first. -/
  exchanges : List Exchange

namespace Trial

variable {t t' t₁ : Trial} {adversary : Adversary} {c : StoreCall}

/-- A trial before anything has happened. -/
def start (w : World) (armed : Option Interference) : Trial := ⟨w, armed, none, [], []⟩

/-- The trial after an exchange. -/
def heard (t : Trial) (x : Exchange) : Trial := { t with exchanges := x :: t.exchanges }

/-- The interference that a call sets off. -/
def triggered? (t : Trial) (c : StoreCall) : Option Interference :=
  t.armed.filter fun i => Backend.swapped? c == some i.branch

/-- The interference that a call sets off takes place, unless it fails. -/
def disturb (t : Trial) (trouble : Trouble) (c : StoreCall) : Except StoreError Unit × Trial :=
  match t.triggered? c with
  | none => (.ok (), t)
  | some i =>
    let t := { t with armed := none }
    match trouble.hindered with
    | some e => (.error e, t)
    | none =>
      match Backend.interfere t.world i with
      | .error e => (.error e, t)
      | .ok w => (.ok (), { t with world := w, moved := some i })

/-- What comes of a call, apart from its being recorded. -/
def respond (t : Trial) (trouble : Trouble) (c : StoreCall) :
    Except StoreError c.Reply × Trial :=
  match trouble.refused with
  | some e => (.error e, t)
  | none =>
    match t.disturb trouble c with
    | (.error e, t) => (.error e, t)
    | (.ok _, t) =>
      match trouble.spoiled with
      | some e => (.error e, t)
      | none =>
        let (r, w) := t.world.answer c
        (r, { t with world := w })

/-- Answer a call as the adversary wants. -/
def answer (adversary : Adversary) (t : Trial) (c : StoreCall) :
    Except StoreError c.Reply × Trial :=
  let (r, t') := t.respond (adversary t.exchanges c) c
  (r, t'.heard ⟨c, r⟩)

/-- Take note of an event. -/
def note (t : Trial) (g : Signal) : Trial := { t with published := t.published ++ g.event?.toList }

/-- Programs run against an adversary. -/
def host (adversary : Adversary) : Program.Host Trial := ⟨answer adversary, note⟩

/-! ### What may happen at a call -/

/-- What may happen to a trial besides the call itself. -/
inductive Drift (t : Trial) : Trial → Prop
  /-- Nothing, except that an interference may have been used up in vain. -/
  | stays {armed : Option Interference} (hsub : ∀ i, armed = some i → t.armed = some i) :
    Drift t { t with armed }
  /-- The armed branch was moved. -/
  | moves {i : Interference} (harmed : t.armed = some i)
    (hproject : t.world.HasProject i.branch.project) :
    Drift t { t with
      world := t.world.withTip i.branch (some i.tip)
      armed := none
      moved := some i }

/-- What may come of a call. -/
inductive Answered (t : Trial) (c : StoreCall) : Except StoreError c.Reply → Trial → Prop
  | failed {t₁ : Trial} (e : StoreError) (hdrift : t.Drift t₁) :
    Answered t c (.error e) (t₁.heard ⟨c, .error e⟩)
  | settled {t₁ : Trial} (hdrift : t.Drift t₁) (hcalm : t₁.triggered? c = none) :
    Answered t c (t₁.world.answer c).1
      { t₁.heard ⟨c, (t₁.world.answer c).1⟩ with world := (t₁.world.answer c).2 }

/-- A swap that sets nothing off is one of a branch that is not armed. -/
theorem branch_ne_of_calm {b : Branch} {old tip : Option CommitId}
    (hcalm : t.triggered? (.compareAndSwap b old tip) = none) {i : Interference}
    (harmed : t.armed = some i) : i.branch ≠ b := by
  rintro rfl
  rw [triggered?, harmed, Option.filter_eq_none_iff] at hcalm
  exact hcalm i rfl (by simp [Backend.swapped?])

theorem Drift.refl (t : Trial) : t.Drift t := Drift.stays fun _ h => h

/-- An interference moves its branch or fails. -/
theorem interfere_cases (w : World) (i : Interference) :
    (∃ e, Backend.interfere w i = .error e) ∨
      Backend.interfere w i = .ok (w.withTip i.branch (some i.tip)) ∧
        w.HasProject i.branch.project := by
  unfold Backend.interfere
  cases hcurrent : w.branchTip i.branch with
  | error e => exact .inl ⟨e, rfl⟩
  | ok current =>
    show (∃ e, w.compareAndSwap i.branch current (some i.tip) = .error e) ∨
      w.compareAndSwap i.branch current (some i.tip) = .ok _ ∧ _
    -- The swap is answered as a call for it would be.
    have hanswer : w.answer (.compareAndSwap i.branch current (some i.tip)) =
        w.settle ((w.compareAndSwap i.branch current (some i.tip)).map fun w => ((), w)) := rfl
    rcases w.answer_compareAndSwap i.branch current (some i.tip) with ⟨⟨e, hfail⟩, _⟩ | ⟨hok, hswap⟩
    · rw [hanswer] at hfail
      cases hswapped : w.compareAndSwap i.branch current (some i.tip) with
      | error e' => exact .inl ⟨e', rfl⟩
      | ok w' =>
        rw [hswapped] at hfail
        cases hfail
    · rw [hanswer] at hok
      cases hswapped : w.compareAndSwap i.branch current (some i.tip) with
      | error e' =>
        rw [hswapped] at hok
        cases hok
      | ok w' =>
        rw [hswapped] at hok
        cases hok
        exact .inr ⟨rfl, hswap.project⟩

/-- What may happen before a call: the trial drifts, and unless this fails the call sets nothing
off any more. -/
theorem disturb_cases (t : Trial) (trouble : Trouble) (c : StoreCall) :
    t.Drift (t.disturb trouble c).2 ∧
      ((∃ e, (t.disturb trouble c).1 = .error e) ∨
        (t.disturb trouble c).1 = .ok () ∧ (t.disturb trouble c).2.triggered? c = none) := by
  unfold disturb
  split
  · next hnone => exact ⟨.refl t, .inr ⟨rfl, hnone⟩⟩
  · next i hsome =>
    have harmed : t.armed = some i := (Option.filter_eq_some_iff.1 hsome).1
    have hdisarmed : t.Drift { t with armed := none } := Drift.stays fun _ h => by cases h
    dsimp only
    split
    · next e _ => exact ⟨hdisarmed, .inl ⟨e, rfl⟩⟩
    · -- The interference is used up, whether it fails or not.
      rcases interfere_cases t.world i with ⟨e, hfail⟩ | ⟨hmove, hproject⟩
      · rw [hfail]
        exact ⟨hdisarmed, .inl ⟨e, rfl⟩⟩
      · rw [hmove]
        exact ⟨Drift.moves harmed hproject, .inr ⟨rfl, rfl⟩⟩

/-- What comes of a call, whatever the adversary does. -/
theorem answered (adversary : Adversary) (t : Trial) (c : StoreCall) :
    t.Answered c (answer adversary t c).1 (answer adversary t c).2 := by
  -- What the exchanges so far are does not matter any more, once the trouble is decided on.
  have hrespond : ∀ trouble, t.Answered c (t.respond trouble c).1
      ((t.respond trouble c).2.heard ⟨c, (t.respond trouble c).1⟩) := by
    intro trouble
    unfold respond
    split
    · next e _ => exact .failed e (.refl t)
    · obtain ⟨hdrift, hend⟩ := disturb_cases t trouble c
      cases hdisturb : t.disturb trouble c with
      | mk r t₁ =>
        rw [hdisturb] at hdrift hend
        dsimp only at hdrift hend
        cases r with
        | error e => exact .failed e hdrift
        | ok u =>
          have hcalm : t₁.triggered? c = none := by
            rcases hend with ⟨e, hfail⟩ | ⟨_, hcalm⟩
            · cases hfail
            · exact hcalm
          dsimp only
          split
          · next e _ => exact .failed e hdrift
          · exact .settled hdrift hcalm
  exact hrespond (adversary t.exchanges c)

/-! ### Questions -/

/-- What a question may not touch. -/
def view (t : Trial) : World × Option Interference × Option Interference × List Event :=
  (t.world, t.armed, t.moved, t.published)

/-- An adversary can keep questions from being answered, but cannot give false answers, and nothing
changes by asking. -/
theorem answersFrom (adversary : Adversary) (t : Trial) :
    (host adversary).AnswersFrom (fun s => s.view = t.view) t.world (fun _ => True) := by
  refine ⟨fun s c hs hc => ?_, fun s g hs hg => ?_⟩
  · have hworld : s.world = t.world := congrArg Prod.fst hs
    -- Only a swap sets an interference off.
    have hnone : s.triggered? c = none := by
      unfold triggered?
      cases c with
      | compareAndSwap => exact hc.elim
      | _ => simp [Backend.swapped?]
    show ((s.respond (adversary s.exchanges c) c).2.view = t.view) ∧ _
    unfold respond disturb
    rw [hnone]
    split
    · next e _ => exact ⟨hs, .inr ⟨e, trivial, by simp [host, answer, respond, *]⟩⟩
    · dsimp only
      split
      · next e _ => exact ⟨hs, .inr ⟨e, trivial, by simp [host, answer, respond, disturb, *]⟩⟩
      · refine ⟨?_, .inl ?_⟩
        · dsimp only
          rw [← hs]
          show ((s.world.answer c).2, s.armed, s.moved, s.published) = _
          rw [s.world.answer_question hc]
          rfl
        · simp [host, answer, respond, disturb, *]
  · show (s.world, s.armed, s.moved, s.published ++ g.event?.toList) = t.view
    rw [hg, Option.toList_none, List.append_nil]
    exact hs

end Trial

/-! ### Orders -/

/-- The call fails and changes nothing, or it is possible and has the effect. -/
def StoreCall.Does (c : StoreCall) (Possible : World → Prop) (effect : World → World) : Prop :=
  ∀ w : World, (∃ e, w.answer c = (.error e, w)) ∨
    ∃ r, w.answer c = (.ok r, effect w) ∧ Possible w

namespace StoreCall

theorem insertCommit_does (project : ProjectName) (d : Draft) :
    (insertCommit project d).Does (·.HasProject project) (·.withCommit project d) := by
  intro w
  rcases w.answer_insertCommit project d with ⟨hfail, _⟩ | ⟨hok, hproject⟩
  · exact .inl hfail
  · exact .inr ⟨_, hok, hproject⟩

theorem compareAndSwap_does (b : Branch) (old tip : Option CommitId) :
    (compareAndSwap b old tip).Does (·.Swappable b old tip) (·.withTip b tip) := by
  intro w
  rcases w.answer_compareAndSwap b old tip with ⟨hfail, _⟩ | ⟨hok, hswap⟩
  · exact .inl hfail
  · exact .inr ⟨_, hok, hswap⟩

theorem markMerged_does (k : ChangeId) (tip : CommitId) (submitter : AccountId) :
    (markMerged k tip submitter).Does (fun w => (w.changes.get? k).isSome)
      (·.withChange k (·.markMerged tip submitter)) := by
  intro w
  rcases w.answer_markMerged k tip submitter with ⟨hfail, _⟩ | ⟨hok, hsome⟩
  · exact .inl hfail
  · exact .inr ⟨_, hok, hsome⟩

theorem reopen_does (k : ChangeId) :
    (reopen k).Does (fun w => (w.changes.get? k).isSome) (·.withChange k Change.reopen) := by
  intro w
  rcases w.answer_reopen k with ⟨hfail, _⟩ | ⟨hok, hsome⟩
  · exact .inl hfail
  · exact .inr ⟨_, hok, hsome⟩

end StoreCall

/-! ### Programs that end -/

namespace Trial

variable {α β : Type} {t : Trial} {adversary : Adversary} {c : StoreCall}
variable {p : Program α} {f : α → Program β} {Q : α → Trial → Prop} {R : β → Trial → Prop}

/-- The program ends with a value and a trial as required. -/
def Ends (adversary : Adversary) (p : Program α) (t : Trial) (Q : α → Trial → Prop) : Prop :=
  ∃ a t', p.run (host adversary) t = (some a, t') ∧ Q a t'

theorem ends_pure {a : α} (h : Q a t) : Ends adversary (pure a) t Q := ⟨a, t, rfl, h⟩

theorem ends_tell {g : Signal} {Q : Unit → Trial → Prop} (h : Q () (t.note g)) :
    Ends adversary (Program.tell g) t Q := ⟨(), t.note g, rfl, h⟩

theorem Ends.bind (hp : Ends adversary p t Q)
    (hf : ∀ a t', Q a t' → Ends adversary (f a) t' R) : Ends adversary (p >>= f) t R := by
  obtain ⟨a, t', hrun, hQ⟩ := hp
  obtain ⟨b, t'', hrun', hR⟩ := hf a t' hQ
  refine ⟨b, t'', ?_, hR⟩
  show (p.bind f).run (host adversary) t = _
  rw [Program.run_bind, hrun]
  exact hrun'

/-- Whether it ends or uses its budget up, the program comes to a result and a trial as required. -/
def Comes (adversary : Adversary) (p : Program α) (t : Trial) (Q : Option α → Trial → Prop) : Prop :=
  Q (p.run (host adversary) t).1 (p.run (host adversary) t).2

theorem Comes.bind {Q : Option α → Trial → Prop} {R : Option β → Trial → Prop}
    (hp : Comes adversary p t Q) (hsome : ∀ a t', Q (some a) t' → Comes adversary (f a) t' R)
    (hnone : ∀ t', Q none t' → R none t') : Comes adversary (p >>= f) t R := by
  unfold Comes at hp
  show R ((p.bind f).run (host adversary) t).1 ((p.bind f).run (host adversary) t).2
  rw [Program.run_bind]
  cases hrun : p.run (host adversary) t with
  | mk r t' =>
    rw [hrun] at hp
    cases r with
    | some a => exact hsome a t' hp
    | none => exact hnone t' hp

theorem Ends.comes {Q' : Option α → Trial → Prop} (hp : Ends adversary p t Q)
    (himp : ∀ a t', Q a t' → Q' (some a) t') : Comes adversary p t Q' := by
  obtain ⟨a, t', hrun, hQ⟩ := hp
  unfold Comes
  rw [hrun]
  exact himp a t' hQ

/-- An order fails after the trial has drifted, or it has its effect after that, if it sets nothing
off any more. -/
theorem ends_order {Possible : World → Prop} {effect : World → World} (hc : c.Does Possible effect)
    {Q : Except StoreError c.Reply → Trial → Prop}
    (hfail : ∀ e t₁, t.Drift t₁ → Q (.error e) (t₁.heard ⟨c, .error e⟩))
    (hok : ∀ r t₁, t.Drift t₁ → t₁.triggered? c = none → Possible t₁.world →
      Q (.ok r) ({ t₁ with world := effect t₁.world }.heard ⟨c, .ok r⟩)) :
    Ends adversary (Program.ask c) t Q := by
  refine ⟨(answer adversary t c).1, (answer adversary t c).2, rfl, ?_⟩
  have hanswered := answered adversary t c
  -- The type of the answer depends on the call, so the answer is named before the cases.
  generalize (answer adversary t c).1 = r at hanswered
  generalize (answer adversary t c).2 = t' at hanswered
  cases hanswered with
  | failed e hdrift => exact hfail e _ hdrift
  | settled hdrift hcalm =>
    next t₁ =>
    rcases hc t₁.world with ⟨e, herror⟩ | ⟨r, hdone, hpossible⟩
    · rw [herror]
      exact hfail e t₁ hdrift
    · rw [hdone]
      exact hok r t₁ hdrift hcalm hpossible

end Trial

/-! ### Services as trials -/

/-- The faults that are left after some exchanges. -/
def Fault.remaining (faults : List Fault) (exchanges : List Exchange) : List Fault :=
  exchanges.foldr (fun x left => (Fault.strike x.call.name left).2) faults

/-- The adversary that lets arranged faults strike and does nothing else. -/
def Adversary.ofFaults (faults : List Fault) : Adversary := fun exchanges c =>
  { refused := (Fault.strike c.name (Fault.remaining faults exchanges)).1.map .backend
    hindered := none
    spoiled := none }

namespace Service

/-- The service has done what the trial has done. -/
structure Follows (s : Service) (faults : List Fault) (before : List Event) (t : Trial) : Prop where
  world : s.backend.world = t.world
  interference : s.backend.interference = t.armed
  faults : s.backend.faults = Fault.remaining faults t.exchanges
  recorded : s.recorded = before ++ t.published

variable {α : Type} {s : Service} {faults : List Fault} {before : List Event} {t : Trial}

theorem Follows.note (h : s.Follows faults before t) (g : Signal) :
    (s.note g).Follows faults before (t.note g) := by
  refine ⟨?_, ?_, ?_, ?_⟩
  · rw [backend_note]
    exact h.world
  · rw [backend_note]
    exact h.interference
  · rw [backend_note]
    exact h.faults
  · unfold Service.note Trial.note
    cases g.event? with
    | none => simpa using h.recorded
    | some e => simp [deliver, h.recorded]

/-- A call is answered alike. -/
theorem Follows.answer (h : s.Follows faults before t) (c : StoreCall) :
    (s.answer c).1 = (Trial.answer (.ofFaults faults) t c).1 ∧
      (s.answer c).2.Follows faults before (Trial.answer (.ofFaults faults) t c).2 := by
  obtain ⟨⟨w, interference, left⟩, recorded, bus, log, metrics⟩ := s
  obtain ⟨rfl, rfl, rfl, hrecorded⟩ := h
  unfold Service.answer Backend.answer Trial.answer Trial.respond Adversary.ofFaults
  dsimp only
  cases hstrike : Fault.strike c.name (Fault.remaining faults t.exchanges) with
  | mk struck rest =>
    -- However the call is answered, it uses up the same faults.
    have hremaining : ∀ r, Fault.remaining faults (⟨c, r⟩ :: t.exchanges) = rest := by
      intro r
      show (Fault.strike c.name (Fault.remaining faults t.exchanges)).2 = rest
      rw [hstrike]
    cases struck with
    | some detail => exact ⟨rfl, rfl, rfl, (hremaining _).symm, hrecorded⟩
    | none =>
      unfold Backend.answerDisturbed Trial.disturb
      dsimp only [Option.map_none]
      have htrigger : Backend.triggered? ⟨t.world, t.armed, rest⟩ c = t.triggered? c := rfl
      rw [htrigger]
      cases t.triggered? c with
      | none => exact ⟨rfl, rfl, rfl, (hremaining _).symm, hrecorded⟩
      | some i =>
        dsimp only
        cases Backend.interfere t.world i with
        | error e => exact ⟨rfl, rfl, rfl, (hremaining _).symm, hrecorded⟩
        | ok w => exact ⟨rfl, rfl, rfl, (hremaining _).symm, hrecorded⟩

/-- A service with arranged trouble runs a program as a trial does. -/
theorem run_eq_trial (h : s.Follows faults before t) (p : Program α) :
    (s.run p).1 = (p.run (Trial.host (.ofFaults faults)) t).1 ∧
      (s.run p).2.Follows faults before (p.run (Trial.host (.ofFaults faults)) t).2 := by
  induction p generalizing s t with
  | done a => exact ⟨rfl, h⟩
  | exhausted => exact ⟨rfl, h⟩
  | signal g next ih => exact ih (h.note g)
  | call c next ih =>
    obtain ⟨hanswer, hfollows⟩ := h.answer c
    have hservice : s.run (.call c next) = (s.answer c).2.run (next (s.answer c).1) := rfl
    have htrial : (Program.call c next).run (Trial.host (.ofFaults faults)) t =
        (next (Trial.answer (.ofFaults faults) t c).1).run (Trial.host (.ofFaults faults))
          (Trial.answer (.ofFaults faults) t c).2 := rfl
    rw [hservice, htrial, hanswer]
    exact ih _ hfollows

end Service
end Landing
