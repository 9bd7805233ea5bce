import Landing.Proofs.Program.Inquiry

/-!
# What a program has heard

Seen from outside, a program is the calls that it makes and what it makes of the
answers.  `Program.Hears` relates a program to the exchanges that it has had so
far and to what is left of it then.  Nothing is said about who answers, so this
is what is known of a program that runs among others.

* `Program.Hears.bind_cases`: a program in two parts is still busy with the first
  one, or it has heard enough to go on with the second one.
* `Program.Inquires.of_hears`: a program that only asks has only asked, and if it
  has come to a success, then it was refused nothing.  `Program.Inquires.of_mayCome`
  says where its errors come from.
* `Program.MayCome` says what a program may come to when something is known about
  the answers.
* `Program.Executes` is for a program that makes calls one after another until one
  fails.  Of such a program it is enough to know which calls were accepted
  (`Executes.of_hears`).
-/

namespace Landing

/-- A call and the answer to it. -/
structure Exchange where
  call : StoreCall
  answer : Except StoreError call.Reply

/-- The call has not failed. -/
def Exchange.IsOk (x : Exchange) : Prop := ∃ reply, x.answer = .ok reply

/-- The calls that have not failed, in order. -/
def accepted (xs : List Exchange) : List StoreCall :=
  xs.filterMap fun x => match x.answer with
    | .ok _ => some x.call
    | .error _ => none

theorem accepted_append (xs ys : List Exchange) : accepted (xs ++ ys) = accepted xs ++ accepted ys :=
  List.filterMap_append

theorem mem_accepted {xs : List Exchange} {c : StoreCall} :
    c ∈ accepted xs ↔ ∃ x ∈ xs, x.call = c ∧ x.IsOk := by
  unfold accepted
  rw [List.mem_filterMap]
  constructor
  · rintro ⟨⟨c', r⟩, hx, hc⟩
    cases r with
    | error e => cases hc
    | ok reply =>
      cases hc
      exact ⟨_, hx, rfl, reply, rfl⟩
  · rintro ⟨⟨c', r⟩, hx, rfl, hok⟩
    cases r with
    | error e =>
      obtain ⟨reply, hr⟩ := hok
      cases hr
    | ok reply => exact ⟨_, hx, rfl⟩

namespace Program

variable {α β ε τ : Type}

/-- With these exchanges, first one first, the program comes to what is left of it. -/
inductive Hears : Program α → List Exchange → Program α → Prop
  | nil {p : Program α} : Hears p [] p
  | call {c : StoreCall} {next : Except StoreError c.Reply → Program α}
    {r : Except StoreError c.Reply} {xs : List Exchange} {rest : Program α} :
    Hears (next r) xs rest → Hears (call c next) (⟨c, r⟩ :: xs) rest
  | signal {s : Signal} {next rest : Program α} {xs : List Exchange} :
    Hears next xs rest → Hears (signal s next) xs rest

variable {p rest : Program α} {xs ys : List Exchange}

theorem Hears.trans {final : Program α} (hp : p.Hears xs rest) (hrest : rest.Hears ys final) :
    p.Hears (xs ++ ys) final := by
  induction hp with
  | nil => exact hrest
  | call _ ih => exact .call (ih hrest)
  | signal _ ih => exact .signal (ih hrest)

/-- A program that is done makes no calls. -/
theorem Hears.of_done {a : α} (h : (done a).Hears xs rest) : xs = [] ∧ rest = done a := by
  cases h
  exact ⟨rfl, rfl⟩

theorem Hears.of_exhausted (h : (exhausted : Program α).Hears xs rest) :
    xs = [] ∧ rest = exhausted := by
  cases h
  exact ⟨rfl, rfl⟩

/-- A program in two parts is busy with the first one, or it has come to the second one. -/
theorem Hears.bind_cases {f : α → Program β} {left : Program β}
    (h : (p.bind f).Hears xs left) :
    (∃ rest, p.Hears xs rest ∧ left = rest.bind f ∧ ∀ a, rest ≠ done a) ∨
      ∃ ys zs a, xs = ys ++ zs ∧ p.Hears ys (done a) ∧ (f a).Hears zs left := by
  induction p generalizing xs with
  | done a => exact .inr ⟨[], xs, a, rfl, .nil, h⟩
  | exhausted =>
    obtain ⟨rfl, rfl⟩ := h.of_exhausted
    exact .inl ⟨exhausted, .nil, rfl, fun _ => nofun⟩
  | call c next ih =>
    cases h with
    | nil => exact .inl ⟨.call c next, .nil, rfl, fun _ => nofun⟩
    | @call _ _ r xs _ h =>
      rcases ih r h with ⟨rest, hrest, rfl, hbusy⟩ | ⟨ys, zs, a, rfl, ha, hleft⟩
      · exact .inl ⟨rest, .call hrest, rfl, hbusy⟩
      · exact .inr ⟨⟨c, r⟩ :: ys, zs, a, rfl, .call ha, hleft⟩
  | signal s next ih =>
    cases h with
    | nil => exact .inl ⟨.signal s next, .nil, rfl, fun _ => nofun⟩
    | signal h =>
      rcases ih h with ⟨rest, hrest, rfl, hbusy⟩ | ⟨ys, zs, a, rfl, ha, hleft⟩
      · exact .inl ⟨rest, .signal hrest, rfl, hbusy⟩
      · exact .inr ⟨ys, zs, a, rfl, .signal ha, hleft⟩

/-- What is left of a program in two parts is done only after both. -/
theorem bind_ne_done {f : α → Program β} {b : β} (hbusy : ∀ a, rest ≠ done a) :
    rest.bind f ≠ done b := by
  cases rest with
  | done a => exact absurd rfl (hbusy a)
  | exhausted => nofun
  | call c next => nofun
  | signal s next => nofun

/-- A program that only asks has only asked, and it goes on asking unless it passes an error on.  If it
has come to a success, then no call has failed. -/
theorem Inquires.of_hears [Relay ε] {E : ε → Prop} {p rest : Program (Except ε α × τ)}
    (hp : p.Inquires E) (h : p.Hears xs rest) :
    (rest.Inquires E ∨ ∃ e t, rest = done (.error (Relay.relay e), t)) ∧
      (∀ x ∈ xs, x.call.IsQuestion) ∧
      ∀ a t, rest = done (.ok a, t) → ∀ x ∈ xs, x.IsOk := by
  induction h with
  | nil => exact ⟨.inl hp, by simp, by simp⟩
  | @call c next r xs rest h ih =>
    have hquestion : c.IsQuestion := hp.1
    rcases hp.next r with hnext | ⟨e, t, rfl, hrelay⟩
    · obtain ⟨hrest, hquestions, hok⟩ := ih hnext
      refine ⟨hrest, fun x hx => ?_, fun a t heq x hx => ?_⟩
      · rcases List.mem_cons.1 hx with rfl | hx
        · exact hquestion
        · exact hquestions x hx
      · rcases List.mem_cons.1 hx with rfl | hx
        · cases r with
          | ok reply => exact ⟨reply, rfl⟩
          | error e =>
            -- Otherwise this would have been the end.
            obtain ⟨t', hrelay⟩ := hp.2.1 e
            rw [hrelay] at h
            obtain ⟨_, hdone⟩ := h.of_done
            rw [heq] at hdone
            cases hdone
        · exact hok a t heq x hx
    · rw [hrelay] at h
      obtain ⟨rfl, rfl⟩ := h.of_done
      refine ⟨.inr ⟨e, t, rfl⟩, fun x hx => ?_, fun a t heq => by cases heq⟩
      rw [List.mem_singleton.1 hx]
      exact hquestion
  | signal h ih => exact ih hp.2

/-! ### What a program may come to -/

/-- Answered in some way that `A` allows, the program comes to the value. -/
def MayCome (A : (c : StoreCall) → Except StoreError c.Reply → Prop) : Program α → α → Prop
  | done a, b => b = a
  | exhausted, _ => False
  | call c next, b => ∃ r, A c r ∧ (next r).MayCome A b
  | signal _ next, b => next.MayCome A b

variable {A B : (c : StoreCall) → Except StoreError c.Reply → Prop}

theorem mayCome_bind {f : α → Program β} {b : β} :
    (p.bind f).MayCome A b ↔ ∃ a, p.MayCome A a ∧ (f a).MayCome A b := by
  induction p with
  | done a => simp [bind, MayCome]
  | exhausted => simp [bind, MayCome]
  | call c next ih =>
    simp only [bind, MayCome, ih]
    constructor
    · rintro ⟨r, hr, a, ha, hb⟩
      exact ⟨a, ⟨r, hr, ha⟩, hb⟩
    · rintro ⟨a, ⟨r, hr, ha⟩, hb⟩
      exact ⟨r, hr, a, ha, hb⟩
  | signal s next ih => exact ih

theorem MayCome.mono (hAB : ∀ c r, A c r → B c r) {a : α} (h : p.MayCome A a) : p.MayCome B a := by
  induction p with
  | done b => exact h
  | exhausted => exact h
  | call c next ih =>
    obtain ⟨r, hr, ha⟩ := h
    exact ⟨r, hAB c r hr, ih r ha⟩
  | signal s next ih => exact ih h

/-- A program that only asks comes to an error of its own, or it passes on an error that it was
answered. -/
theorem Inquires.of_mayCome [Relay ε] {E : ε → Prop} {p : Program (Except ε α × τ)}
    (hp : p.Inquires E) {e : ε} {t : τ} (h : p.MayCome A (.error e, t)) :
    E e ∨ ∃ c e', c.IsQuestion ∧ A c (.error e') ∧ e = Relay.relay e' := by
  induction p with
  | done r =>
    cases h
    exact .inl (hp e rfl)
  | exhausted => exact h.elim
  | call c next ih =>
    obtain ⟨r, hr, h⟩ := h
    rcases hp.next r with hnext | ⟨e', t', rfl, hrelay⟩
    · exact ih r hnext h
    · rw [hrelay] at h
      cases h
      exact .inr ⟨c, e', hp.1, hr, rfl⟩
  | signal s next ih => exact ih hp.2 h

/-- When a world answers, the program comes to its result there. -/
theorem mayCome_of_result {w : World} (hA : ∀ c, A c (w.answer c).1) {a : α}
    (h : p.result w = some a) : p.MayCome A a := by
  induction p with
  | done b =>
    cases h
    rfl
  | exhausted => cases h
  | call c next ih => exact ⟨(w.answer c).1, hA c, ih _ h⟩
  | signal s next ih => exact ih h

/-- When a host answers, the program comes to the result of its run. -/
theorem mayCome_of_run {σ : Type} {host : Host σ} (hA : ∀ s c, A c (host.answer s c).1) {s : σ} {a : α}
    (h : (p.run host s).1 = some a) : p.MayCome A a := by
  induction p generalizing s with
  | done b =>
    cases h
    rfl
  | exhausted => cases h
  | call c next ih => exact ⟨(host.answer s c).1, hA s c, ih _ h⟩
  | signal g next ih => exact ih h

/-- What a program has come to is what it may come to. -/
theorem Hears.mayCome {a : α} (h : p.Hears xs (done a)) (hA : ∀ x ∈ xs, A x.call x.answer) :
    p.MayCome A a := by
  generalize hend : done a = rest at h
  induction h with
  | nil =>
    rw [← hend]
    rfl
  | call _ ih =>
    exact ⟨_, hA _ List.mem_cons_self, ih (fun x hx => hA x (List.mem_cons_of_mem _ hx)) hend⟩
  | signal _ ih => exact ih hA hend

/-! ### Calls made one after another -/

/-- The program makes no more calls, and it comes to a value as required. -/
def Silent (good : α → Prop) : Program α → Prop
  | done a => good a
  | signal _ next => next.Silent good
  | _ => False

/-- The program has something left to do. -/
def IsBusy : Program α → Prop
  | call .. => True
  | signal .. => True
  | _ => False

theorem Silent.of_hears {good : α → Prop} (hp : p.Silent good) (h : p.Hears xs rest) :
    xs = [] ∧ (rest.IsBusy ∨ ∃ a, rest = done a ∧ good a) := by
  induction h with
  | @nil p =>
    refine ⟨rfl, ?_⟩
    cases p with
    | done a => exact .inr ⟨a, rfl, hp⟩
    | exhausted => exact hp.elim
    | call => exact hp.elim
    | signal => exact .inl trivial
  | call => exact hp.elim
  | signal _ ih => exact ih hp

/-- The program makes a call for every item, in order, and comes to a value as required by `good`.  As
soon as a call fails it makes no more, and what it comes to then is as required by `bad` for the
items that are done. -/
def Executes {κ : Type} (item : κ → StoreCall) (good : α → Prop) :
    (bad : List κ → α → Prop) → List κ → Program α → Prop
  | _, [], p => p.Silent good
  | bad, k :: items, p => ∃ next, p = call (item k) next ∧
      (∀ reply, Executes item good (fun finished => bad (k :: finished)) items (next (.ok reply))) ∧
      ∀ e, (next (.error e)).Silent (bad [])

theorem Silent.bind {good : α → Prop} {fine : β → Prop} {f : α → Program β} (hp : p.Silent good)
    (hf : ∀ a, good a → (f a).Silent fine) : (p.bind f).Silent fine := by
  induction p with
  | done a => exact hf a hp
  | exhausted => exact hp.elim
  | call => exact hp.elim
  | signal _ _ ih => exact ih hp

/-- The calls stay the same when no more are made afterwards. -/
theorem Executes.bind {κ : Type} {item : κ → StoreCall} {good : α → Prop} {fine : β → Prop}
    {bad : List κ → α → Prop} {ill : List κ → β → Prop} {items : List κ} {f : α → Program β}
    (hp : Executes item good bad items p) (hgood : ∀ a, good a → (f a).Silent fine)
    (hbad : ∀ finished a, bad finished a → (f a).Silent (ill finished)) :
    Executes item fine ill items (p.bind f) := by
  induction items generalizing p bad ill with
  | nil => exact Silent.bind hp hgood
  | cons k items ih =>
    obtain ⟨next, rfl, hok, herror⟩ := hp
    refine ⟨_, rfl, fun reply => ?_, fun e => (herror e).bind (hbad [])⟩
    exact ih (hok reply) fun finished => hbad (k :: finished)

/-- What such a program has heard: the calls for some of the items were accepted, in order, and if it
has come to a bad value, the call for the next item has failed. -/
theorem Executes.of_hears {κ : Type} {item : κ → StoreCall} {good : α → Prop}
    {bad : List κ → α → Prop} {items : List κ} (hp : Executes item good bad items p)
    (h : p.Hears xs rest) :
    ∃ finished left, items = finished ++ left ∧ accepted xs = finished.map item ∧
      (rest.IsBusy ∨ (∃ a, rest = done a ∧ left = [] ∧ good a) ∨
        ∃ a, rest = done a ∧ bad finished a ∧
          ∃ k ks e, left = k :: ks ∧ ⟨item k, .error e⟩ ∈ xs) := by
  induction items generalizing p xs bad with
  | nil =>
    obtain ⟨rfl, hend⟩ := Silent.of_hears hp h
    refine ⟨[], [], rfl, rfl, hend.imp_right fun hdone => .inl ?_⟩
    obtain ⟨a, ha, hgood⟩ := hdone
    exact ⟨a, ha, rfl, hgood⟩
  | cons k items ih =>
    obtain ⟨next, rfl, hok, herror⟩ := hp
    cases h with
    | nil => exact ⟨[], k :: items, rfl, rfl, .inl trivial⟩
    | @call _ _ r xs _ h =>
      cases r with
      | ok reply =>
        obtain ⟨finished, left, rfl, hfinished, hend⟩ := ih (hok reply) h
        refine ⟨k :: finished, left, rfl, ?_, hend.imp_right (.imp_right ?_)⟩
        · rw [List.map_cons, ← hfinished]
          rfl
        · rintro ⟨a, ha, hbad, k', ks, e, hleft, hfailed⟩
          exact ⟨a, ha, hbad, k', ks, e, hleft, List.mem_cons_of_mem _ hfailed⟩
      | error e =>
        obtain ⟨rfl, hend⟩ := (herror e).of_hears h
        refine ⟨[], k :: items, rfl, rfl, hend.imp_right fun hdone => .inr ?_⟩
        obtain ⟨a, ha, hbad⟩ := hdone
        exact ⟨a, ha, hbad, k, items, e, rfl, List.mem_cons_self⟩

/-- Unless it has come to its end, such a program has something left to do. -/
theorem Executes.isBusy {κ : Type} {item : κ → StoreCall} {good : α → Prop}
    {bad : List κ → α → Prop} {items : List κ} (hp : Executes item good bad items p)
    (h : p.Hears xs rest) (hrest : ∀ a, rest ≠ done a) : rest.IsBusy := by
  obtain ⟨_, _, _, _, hend⟩ := hp.of_hears h
  rcases hend with hbusy | ⟨a, ha, _⟩ | ⟨a, ha, _⟩
  · exact hbusy
  · exact absurd ha (hrest a)
  · exact absurd ha (hrest a)

end Program
end Landing
