import Landing.Proofs.Program.Trace
import Landing.Submission.Planning
import Mathlib.Data.List.Forall2

/-!
# Computations over histories

A study is a computation that consults a history and may call the stores: a
reading, which fails with errors of the stores, or a planning, which fails with
reasons for the requester.

* `Study.Yields` relates a study to the values and histories that it may end with
  when something is known about the answers.  Its rules follow the do-notation, so
  a successful study is taken apart from the first step to the last.
* `World.Shows` is what is known when commits and branches are read in one world,
  and `World.Yields` goes with it when nothing is known about change records.
* `Study.IsInquiry` lifts `Program.Inquires` to studies, with one rule for every
  way in which the studies of this library are put together.  It says besides that
  a list of branches, once read, is remembered and not read again.
-/

namespace Landing

/-- A computation that consults a history and may call the stores. -/
abbrev Study (ε : Type) (α : Type) := ExceptT ε (StateT History Program) α

variable {ε α β : Type}

/-! ### Lists that correspond member by member -/

/-- Every member of the second list has a partner in the first. -/
theorem exists_left_of_forall₂ {R : α → β → Prop} {l : List α} {bs : List β}
    (hall : List.Forall₂ R l bs) {b : β} (hb : b ∈ bs) : ∃ a ∈ l, R a b := by
  induction hall with
  | nil => cases hb
  | cons hab hrest ih =>
    rcases List.mem_cons.1 hb with rfl | hb
    · exact ⟨_, by simp, hab⟩
    · obtain ⟨a, ha, hR⟩ := ih hb
      exact ⟨a, by simp [ha], hR⟩

/-- Every member of the first list has a partner in the second. -/
theorem exists_right_of_forall₂ {R : α → β → Prop} {l : List α} {bs : List β}
    (hall : List.Forall₂ R l bs) {a : α} (ha : a ∈ l) : ∃ b ∈ bs, R a b :=
  exists_left_of_forall₂ hall.flip ha

/-- Partners are members of the lists. -/
theorem mem_of_forall₂ {R : α → β → Prop} {l : List α} {bs : List β} (hall : List.Forall₂ R l bs) :
    List.Forall₂ (fun a b => a ∈ l ∧ b ∈ bs ∧ R a b) l bs := by
  induction hall with
  | nil => exact .nil
  | cons hab _ ih =>
    refine .cons ⟨List.mem_cons_self, List.mem_cons_self, hab⟩ (ih.imp fun a b h => ?_)
    exact ⟨List.mem_cons_of_mem _ h.1, List.mem_cons_of_mem _ h.2.1, h.2.2⟩

/-- Where partners agree in a feature, the lists agree in it. -/
theorem map_eq_map_of_forall₂ {γ : Type} {f : α → γ} {g : β → γ} {l : List α} {bs : List β}
    (hall : List.Forall₂ (fun a b => f a = g b) l bs) : l.map f = bs.map g := by
  induction hall with
  | nil => rfl
  | cons hab hrest ih => rw [List.map_cons, List.map_cons, hab, ih]

/-- A study that looks at the history goes on from it. -/
theorem Study.get_bind (f : History → Study ε α) (h : History) : (get >>= f) h = f h h := rfl

/-! ### Successful studies -/

/-- With answers that `A` allows, the study `x` may take the history `h` to the value `a` and the
history `h'`. -/
def Study.Yields (A : (c : StoreCall) → Except StoreError c.Reply → Prop) (x : Study ε α)
    (h : History) (a : α) (h' : History) : Prop :=
  Program.MayCome A (x h) (.ok a, h')

/-- A study in two steps comes to a value when both steps do, one after the other. -/
theorem Study.result_bind_ok {w : World} {x : Study ε α} {f : α → Study ε β} {h h' : History} {b : β}
    (hresult : Program.result w ((x >>= f) h) = some (.ok b, h')) :
    ∃ a h₁, Program.result w (x h) = some (.ok a, h₁) ∧
      Program.result w (f a h₁) = some (.ok b, h') := by
  change Program.result w ((x h).bind _) = _ at hresult
  rw [Program.result_bind, Option.bind_eq_some_iff] at hresult
  obtain ⟨⟨r, h₁⟩, hfirst, hrest⟩ := hresult
  cases r with
  | error e => cases hrest
  | ok a => exact ⟨a, h₁, hfirst, hrest⟩

/-- The commits and the branches are those of `w`, and every change that is shown satisfies `P`. -/
def World.Shows (w : World) (P : Change → Prop) :
    (c : StoreCall) → Except StoreError c.Reply → Prop
  | .commit project id, r => w.readCommit project id = r
  | .branches project, r => w.branches project = r
  | .get _, .ok (some c) => P c
  | .byCommit project _, .ok cs => ∀ c ∈ cs, P c ∧ c.dest.project = project
  | .openByTopic _, .ok cs => ∀ c ∈ cs, P c ∧ c.isOpen = true
  | _, _ => True

/-- With commits and branches read in `w`, the study `x` may take the history `h` to the value `a` and
the history `h'`. -/
abbrev World.Yields (w : World) (x : Study ε α) (h : History) (a : α) (h' : History) : Prop :=
  Study.Yields (w.Shows fun _ => True) x h a h'

namespace World

variable {w : World} {h h' : History} {P : Change → Prop}
variable {A B : (c : StoreCall) → Except StoreError c.Reply → Prop}

/-- What a world shows is no less when less is asked of the changes. -/
theorem Shows.loosen {c : StoreCall} {r : Except StoreError c.Reply} (hr : w.Shows P c r) :
    w.Shows (fun _ => True) c r := by
  cases c with
  | commit project id => exact hr
  | branches project => exact hr
  | byCommit project id =>
    cases r with
    | error e => trivial
    | ok cs => exact fun c hc => ⟨trivial, (hr c hc).2⟩
  | openByTopic topic =>
    cases r with
    | error e => trivial
    | ok cs => exact fun c hc => ⟨trivial, (hr c hc).2⟩
  | get id =>
    cases r with
    | error e => trivial
    | ok o =>
      cases o with
      | none => trivial
      | some c => trivial
  | _ => trivial

/-- A world shows what it answers. -/
theorem shows_answer (hP : ∀ c ∈ w.changes.values, P c) (c : StoreCall) :
    w.Shows P c (w.answer c).1 := by
  cases c with
  | commit project id => rfl
  | branches project => rfl
  | get id =>
    show w.Shows P (.get id) (.ok (w.changes.get? id))
    cases hget : w.changes.get? id with
    | none => trivial
    | some c => exact hP c (Table.mem_values.2 ⟨id, hget⟩)
  | byCommit project id =>
    intro c hc
    obtain ⟨hlisted, hproject⟩ := List.mem_filter.1 hc
    rw [Bool.and_eq_true, beq_iff_eq] at hproject
    exact ⟨hP c hlisted, hproject.1⟩
  | openByTopic topic =>
    intro c hc
    obtain ⟨hlisted, hmate⟩ := List.mem_filter.1 hc
    rw [Bool.and_eq_true] at hmate
    exact ⟨hP c hlisted, hmate.1⟩
  | _ => trivial

theorem yields_of_shows {x : Study ε α} {a : α} (hy : Study.Yields (w.Shows P) x h a h') :
    w.Yields x h a h' :=
  Program.MayCome.mono (fun _ _ hr => hr.loosen) hy

@[simp] theorem yields_pure {a b : α} :
    Study.Yields A (pure a : Study ε α) h b h' ↔ b = a ∧ h' = h := by
  show (Except.ok b, h') = (Except.ok a, h) ↔ _
  simp

/-- A study in two steps succeeds exactly when both steps do, one after the other. -/
theorem yields_bind {x : Study ε α} {f : α → Study ε β} {b : β} :
    Study.Yields A (x >>= f) h b h' ↔
      ∃ a h₁, Study.Yields A x h a h₁ ∧ Study.Yields A (f a) h₁ b h' := by
  have hbind : Program.MayCome A ((x >>= f) h) (.ok b, h') ↔
      ∃ r, Program.MayCome A (x h) r ∧ Program.MayCome A (match r with
        | (.ok a, h₁) => f a h₁
        | (.error e, h₁) => .done (.error e, h₁)) (.ok b, h') := by
    rw [← Program.mayCome_bind]
    show Program.MayCome A ((x h).bind _) _ ↔ _
    apply iff_of_eq
    congr 2
    funext r
    obtain ⟨r, h₁⟩ := r
    cases r <;> rfl
  rw [Study.Yields, hbind]
  constructor
  · rintro ⟨⟨r, h₁⟩, hx, hf⟩
    cases r with
    | error e => cases hf
    | ok a => exact ⟨a, h₁, hx, hf⟩
  · rintro ⟨a, h₁, hx, hf⟩
    exact ⟨(.ok a, h₁), hx, hf⟩

theorem yields_map {x : Study ε α} {f : α → β} {b : β} :
    Study.Yields A (f <$> x) h b h' ↔ ∃ a, Study.Yields A x h a h' ∧ b = f a := by
  rw [map_eq_pure_bind, yields_bind]
  simp only [yields_pure]
  constructor
  · rintro ⟨a, h₁, hx, rfl, rfl⟩
    exact ⟨a, hx, rfl⟩
  · rintro ⟨a, hx, rfl⟩
    exact ⟨a, h', hx, rfl, rfl⟩

@[simp] theorem yields_get {a : History} :
    Study.Yields A (get : Study ε History) h a h' ↔ a = h ∧ h' = h := by
  show (Except.ok a, h') = (Except.ok h, h) ↔ _
  simp

@[simp] theorem yields_modify {f : History → History} {a : PUnit} :
    Study.Yields A (modify f : Study ε PUnit) h a h' ↔ h' = f h := by
  show (Except.ok a, h') = (Except.ok PUnit.unit, f h) ↔ _
  simp

@[simp] theorem yields_throw {e : ε} {a : α} :
    ¬ Study.Yields A (throw e : Study ε α) h a h' := by
  intro hthrow
  cases hthrow

@[simp] theorem yields_exhausted {a : α} :
    ¬ Study.Yields A (Reading.exhausted : Reading α) h a h' := fun hnone => hnone

/-- A call of a reading is answered as is allowed and leaves the history as it is. -/
@[simp] theorem yields_ask {c : StoreCall} {a : c.Reply} :
    Study.Yields A (Reading.ask c) h a h' ↔ A c (.ok a) ∧ h' = h := by
  show (∃ r, A c r ∧ (Except.ok a, h') = (r, h)) ↔ _
  constructor
  · rintro ⟨r, hr, heq⟩
    cases heq
    exact ⟨hr, rfl⟩
  · rintro ⟨hr, rfl⟩
    exact ⟨.ok a, hr, rfl⟩

/-- A call of a planning is answered as is allowed and leaves the history as it is. -/
@[simp] theorem yields_planning_ask {c : StoreCall} {a : c.Reply} :
    Study.Yields A (Planning.ask c) h a h' ↔ A c (.ok a) ∧ h' = h := by
  show (∃ r, A c r ∧ (Except.ok a, h') = (Planning.ofAnswer r, h)) ↔ _
  constructor
  · rintro ⟨r, hr, heq⟩
    cases r with
    | error e => cases heq
    | ok b =>
      cases heq
      exact ⟨hr, rfl⟩
  · rintro ⟨hr, rfl⟩
    exact ⟨.ok a, hr, rfl⟩

@[simp] theorem yields_tell {s : Signal} {a : Unit} :
    Study.Yields A (Planning.tell s) h a h' ↔ h' = h := by
  show (Except.ok a, h') = (Except.ok (), h) ↔ _
  simp

/-- A reading within a planning succeeds as it does by itself. -/
@[simp] theorem yields_read {x : Reading α} {a : α} :
    Study.Yields A (Planning.read x) h a h' ↔ Study.Yields A x h a h' := by
  have hread : Program.MayCome A (Planning.read x h) (.ok a, h') ↔
      ∃ r, Program.MayCome A (x h) r ∧ (Except.ok a, h') = (Planning.ofAnswer r.1, r.2) :=
    Program.mayCome_bind
  rw [Study.Yields, hread]
  constructor
  · rintro ⟨⟨r, h₁⟩, hx, hr⟩
    cases r with
    | error e => cases hr
    | ok b =>
      cases hr
      exact hx
  · intro hx
    exact ⟨(.ok a, h'), hx, rfl⟩

@[simp] theorem yields_lift {x : Reading α} {a : α} :
    Study.Yields A (liftM x : Planning α) h a h' ↔ Study.Yields A x h a h' :=
  yields_read

/-- Studying the members of a list one after another: what every step establishes holds for all of
them, and what every step keeps is kept. -/
theorem yields_mapM {f : α → Study ε β} {I : History → Prop} {R : α → β → Prop} {l : List α}
    (hstep : ∀ a ∈ l, ∀ h b h', I h → Study.Yields A (f a) h b h' → I h' ∧ R a b)
    {bs : List β} (hI : I h) (hyields : Study.Yields A (l.mapM f) h bs h') :
    I h' ∧ List.Forall₂ R l bs := by
  induction l generalizing h bs with
  | nil =>
    rw [List.mapM_nil, yields_pure] at hyields
    obtain ⟨rfl, rfl⟩ := hyields
    exact ⟨hI, .nil⟩
  | cons a l ih =>
    simp only [List.mapM_cons, yields_bind, yields_pure] at hyields
    obtain ⟨b, h₁, hb, bs', h₂, hbs, rfl, rfl⟩ := hyields
    obtain ⟨hI₁, hab⟩ := hstep a (by simp) h b h₁ hI hb
    obtain ⟨hI₂, hall⟩ := ih (fun a' ha' => hstep a' (by simp [ha'])) hI₁ hbs
    exact ⟨hI₂, .cons hab hall⟩

-- The auxiliary function collects what it keeps in reverse, after what was kept before.
private theorem yields_filterAuxM {f : α → Study ε Bool} {I : History → Prop}
    {P : α → Bool → Prop} {l : List α}
    (hstep : ∀ a ∈ l, ∀ h b h', I h → Study.Yields A (f a) h b h' → I h' ∧ P a b)
    {acc kept : List α} (hI : I h) (hyields : Study.Yields A (l.filterAuxM f acc) h kept h') :
    I h' ∧ ∃ more : List α, kept.reverse = acc.reverse ++ more ∧ more.Sublist l ∧
      (∀ a ∈ more, P a true) ∧ ∀ a ∈ l, a ∈ more ∨ P a false := by
  induction l generalizing h acc with
  | nil =>
    simp only [List.filterAuxM, yields_pure] at hyields
    obtain ⟨rfl, rfl⟩ := hyields
    exact ⟨hI, [], by simp, .slnil, by simp, by simp⟩
  | cons a l ih =>
    simp only [List.filterAuxM, yields_bind] at hyields
    obtain ⟨b, h₁, hb, hrest⟩ := hyields
    obtain ⟨hI₁, hab⟩ := hstep a (by simp) h b h₁ hI hb
    obtain ⟨hI₂, more, hmore, hsub, hkept, hleft⟩ :=
      ih (fun a' ha' => hstep a' (by simp [ha'])) hI₁ hrest
    cases b with
    | false =>
      refine ⟨hI₂, more, hmore, hsub.cons a, hkept, fun a' ha' => ?_⟩
      rcases List.mem_cons.1 ha' with rfl | ha'
      · exact .inr hab
      · exact hleft a' ha'
    | true =>
      refine ⟨hI₂, a :: more, by simpa using hmore, hsub.cons_cons a, ?_, fun a' ha' => ?_⟩
      · intro a' ha'
        rcases List.mem_cons.1 ha' with rfl | ha'
        · exact hab
        · exact hkept a' ha'
      · rcases List.mem_cons.1 ha' with rfl | ha'
        · exact .inl (by simp)
        · exact (hleft a' ha').imp_left fun h => by simp [h]

/-- Selecting members of a list: the selected ones passed the test and the others failed it. -/
theorem yields_filterM {f : α → Study ε Bool} {I : History → Prop} {P : α → Bool → Prop}
    {l : List α} (hstep : ∀ a ∈ l, ∀ h b h', I h → Study.Yields A (f a) h b h' → I h' ∧ P a b)
    {kept : List α} (hI : I h) (hyields : Study.Yields A (l.filterM f) h kept h') :
    I h' ∧ kept.Sublist l ∧ (∀ a ∈ kept, P a true) ∧ ∀ a ∈ l, a ∈ kept ∨ P a false := by
  simp only [List.filterM, yields_bind, yields_pure] at hyields
  obtain ⟨found, h₁, hfound, rfl, rfl⟩ := hyields
  obtain ⟨hI', more, hmore, hrest⟩ := yields_filterAuxM hstep hI hfound
  rw [List.reverse_nil, List.nil_append] at hmore
  rw [hmore]
  exact ⟨hI', hrest⟩

end World

/-! ### Studies that only ask -/

/-- The call asks for something other than the branches of a project. -/
def StoreCall.IsLookUp : StoreCall → Prop
  | commit .. | get .. | byCommit .. | openByTopic .. | isVisible .. => True
  | branches .. | insertCommit .. | compareAndSwap .. | markMerged .. | reopen .. => False

theorem StoreCall.IsLookUp.isQuestion {c : StoreCall} (hc : c.IsLookUp) : c.IsQuestion := by
  cases c with
  | branches | insertCommit | compareAndSwap | markMerged | reopen => exact hc.elim
  | _ => trivial

theorem History.view_setView {h : History} {project : ProjectName} (q : ProjectName)
    (v : ProjectView) : (h.setView project v).view q = if q = project then v else h.view q := by
  unfold setView view
  by_cases hq : q = project
  · subst hq
    simp
  · simp [Table.get?_insert_of_ne _ _ hq, hq]

/-- Tips that the first history remembers are remembered by the second one. -/
def History.Keeps (h h' : History) : Prop :=
  ∀ project tips, (h.view project).tips = some tips → (h'.view project).tips = some tips

theorem History.Keeps.refl (h : History) : h.Keeps h := fun _ _ htips => htips

theorem History.Keeps.trans {h h₁ h₂ : History} (h₀₁ : h.Keeps h₁) (h₁₂ : h₁.Keeps h₂) : h.Keeps h₂ :=
  fun project tips htips => h₁₂ project tips (h₀₁ project tips htips)

/-- What is known about a project changes, but not the tips. -/
theorem History.keeps_setView {h : History} {project : ProjectName} {v : ProjectView}
    (hv : v.tips = (h.view project).tips) : h.Keeps (h.setView project v) := by
  intro q tips htips
  rw [view_setView]
  split
  · next hq =>
    rw [hv, ← hq]
    exact htips
  · exact htips

namespace Study

/-- Whatever tips a successful study has read and whatever tips were remembered before, the history
remembers them at the end.  So no list of branches was read twice. -/
def Steady (x : Study ε α) : Prop :=
  ∀ h xs a h', (x h).Hears xs (.done (.ok a, h')) →
    h.Keeps h' ∧
      ∀ project tips, ⟨.branches project, .ok tips⟩ ∈ xs → (h'.view project).tips = some tips

/-- From every history the study asks and publishes nothing, and passes the error of the first call
that fails on; every error of its own satisfies `E`.  And it is steady. -/
structure IsInquiry [Relay ε] (E : ε → Prop) (x : Study ε α) : Prop where
  inquires : ∀ h, Program.Inquires E (x h)
  steady : x.Steady

/-- A study that makes no calls is steady if it keeps the tips that are remembered. -/
theorem steady_of_silent {x : Study ε α} (f : History → Except ε α × History)
    (hx : ∀ h, x h = .done (f h)) (hkeeps : ∀ h, History.Keeps h (f h).2) : x.Steady := by
  intro h xs a h' hheard
  rw [hx] at hheard
  obtain ⟨rfl, hdone⟩ := hheard.of_done
  have hend : h' = (f h).2 := congrArg Prod.snd (Program.done.inj hdone)
  rw [hend]
  exact ⟨hkeeps h, by simp⟩

/-- A study that makes one call, and not for a list of branches, is steady. -/
theorem steady_of_call {x : Study ε α} {c : StoreCall} (hc : c.IsLookUp)
    (f : Except StoreError c.Reply → Except ε α)
    (hx : ∀ h, x h = .call c fun r => .done (f r, h)) : x.Steady := by
  intro h xs a h' hheard
  rw [hx] at hheard
  cases hheard with
  | call hrest =>
    obtain ⟨rfl, hdone⟩ := hrest.of_done
    obtain ⟨_, rfl⟩ := Prod.mk.inj (Program.done.inj hdone)
    refine ⟨.refl h', fun project tips hmem => ?_⟩
    cases List.mem_singleton.1 hmem
    exact hc.elim

variable [Relay ε] {E : ε → Prop}

theorem isInquiry_pure (a : α) : IsInquiry E (pure a) where
  inquires h e he := by cases he
  steady := steady_of_silent (fun h => (.ok a, h)) (fun _ => rfl) .refl

theorem IsInquiry.bind {x : Study ε α} {f : α → Study ε β} (hx : x.IsInquiry E)
    (hf : ∀ a, (f a).IsInquiry E) : (x >>= f).IsInquiry E where
  inquires h := (hx.inquires h).andThen (fun _ _ => rfl) fun a h₁ => (hf a).inquires h₁
  steady := by
    intro h xs b h' hheard
    rcases Program.Hears.bind_cases (p := x h) hheard with
      ⟨rest, _, hdone, hbusy⟩ | ⟨ys, zs, ⟨r, h₁⟩, rfl, hfirst, hrest⟩
    · exact absurd hdone.symm (Program.bind_ne_done hbusy)
    cases r with
    | error e => cases hrest.of_done.2
    | ok a =>
      obtain ⟨hkeeps, hread⟩ := hx.steady h ys a h₁ hfirst
      obtain ⟨hkeeps', hread'⟩ := (hf a).steady h₁ zs b h' hrest
      refine ⟨hkeeps.trans hkeeps', fun project tips hmem => ?_⟩
      rcases List.mem_append.1 hmem with hmem | hmem
      · exact hkeeps' project tips (hread project tips hmem)
      · exact hread' project tips hmem

theorem IsInquiry.map {x : Study ε α} (hx : x.IsInquiry E) (f : α → β) :
    (f <$> x).IsInquiry E := by
  rw [map_eq_pure_bind]
  exact hx.bind fun a => isInquiry_pure (f a)

theorem isInquiry_get : IsInquiry E (get : Study ε History) where
  inquires h e he := by cases he
  steady := steady_of_silent (fun h => (.ok h, h)) (fun _ => rfl) .refl

theorem isInquiry_modify {f : History → History} (hf : ∀ h, History.Keeps h (f h)) :
    IsInquiry E (modify f : Study ε PUnit) where
  inquires h e he := by cases he
  steady := steady_of_silent (fun h => (.ok PUnit.unit, f h)) (fun _ => rfl) hf

theorem isInquiry_throw {e : ε} (he : E e) : IsInquiry E (throw e : Study ε α) where
  inquires h e' he' := by
    cases he'
    exact he
  steady := steady_of_silent (fun h => (.error e, h)) (fun _ => rfl) .refl

theorem isInquiry_mapM {f : α → Study ε β} {l : List α} (hf : ∀ a ∈ l, (f a).IsInquiry E) :
    (l.mapM f).IsInquiry E := by
  induction l with
  | nil => exact isInquiry_pure []
  | cons a l ih =>
    rw [List.mapM_cons]
    refine (hf a (by simp)).bind fun b => ?_
    exact (ih fun a' ha' => hf a' (by simp [ha'])).bind fun bs => isInquiry_pure (b :: bs)

theorem isInquiry_filterM {f : α → Study ε Bool} {l : List α} (hf : ∀ a, (f a).IsInquiry E) :
    (l.filterM f).IsInquiry E := by
  have haux : ∀ (l acc : List α), (l.filterAuxM f acc).IsInquiry E := by
    intro l
    induction l with
    | nil => exact fun acc => isInquiry_pure acc
    | cons a l ih => exact fun acc => (hf a).bind fun b => ih _
  exact (haux l []).bind fun kept => isInquiry_pure kept.reverse

end Study

/-- A reading that only asks; it has no errors but those of the stores. -/
abbrev Reading.IsInquiry (x : Reading α) : Prop := Study.IsInquiry (fun _ => False) x

/-- A planning that only asks; it never fails because something could not be taken back. -/
abbrev Planning.IsInquiry (x : Planning α) : Prop :=
  Study.IsInquiry (fun e => ∀ step cause, e ≠ .rollbackFailed step cause) x

open Study

theorem Reading.isInquiry_exhausted : IsInquiry (α := α) Reading.exhausted where
  inquires _ := trivial
  steady := fun h xs a h' hheard => by cases hheard.of_exhausted.2

theorem Reading.isInquiry_ask {c : StoreCall} (hc : c.IsLookUp) : IsInquiry (Reading.ask c) where
  inquires h := ⟨hc.isQuestion, fun e => ⟨h, rfl⟩, fun a e he => by cases he⟩
  steady := steady_of_call hc (fun r => r) fun _ => rfl

theorem Planning.isInquiry_ask {E : Failure → Prop} {c : StoreCall} (hc : c.IsLookUp) :
    Study.IsInquiry E (Planning.ask c) where
  inquires h := ⟨hc.isQuestion, fun e => ⟨h, rfl⟩, fun a e he => by cases he⟩
  steady := steady_of_call hc ofAnswer fun _ => rfl

theorem Planning.isInquiry_tell {E : Failure → Prop} {s : Signal} (hs : s.event? = none) :
    Study.IsInquiry E (Planning.tell s) where
  inquires h := ⟨hs, fun e he => by cases he⟩
  steady := by
    intro h xs a h' hheard
    cases hheard with
    | signal hrest =>
      obtain ⟨rfl, hdone⟩ := hrest.of_done
      cases hdone
      exact ⟨.refl h, by simp⟩

/-- Errors of the stores are passed on as such. -/
theorem Planning.isInquiry_read {E : Failure → Prop} {x : Reading α} (hx : x.IsInquiry) :
    Study.IsInquiry E (Planning.read x) := by
  -- The errors are renamed at the leaves of the program.
  have hread : ∀ p : Program (Except StoreError α × History), p.Inquires (fun _ => False) →
      (p.bind fun r => .done (ofAnswer r.1, r.2)).Inquires E := by
    intro p hp
    induction p with
    | done r =>
      intro e he
      obtain ⟨r, h₁⟩ := r
      cases r with
      | ok a => cases he
      | error e' => exact (hp e' rfl).elim
    | exhausted => trivial
    | signal s next ih => exact ⟨hp.1, ih hp.2⟩
    | call c next ih =>
      refine ⟨hp.1, fun e => ?_, fun a => ih (.ok a) (hp.2.2 a)⟩
      obtain ⟨h₁, hrelay⟩ := hp.2.1 e
      refine ⟨h₁, ?_⟩
      show (next (.error e)).bind _ = _
      rw [hrelay]
      rfl
  refine ⟨fun h => hread (x h) (hx.inquires h), fun h xs a h' hheard => ?_⟩
  rcases Program.Hears.bind_cases (p := x h) hheard with
    ⟨rest, _, hdone, hbusy⟩ | ⟨ys, zs, ⟨r, h₁⟩, rfl, hfirst, hrest⟩
  · exact absurd hdone.symm (Program.bind_ne_done hbusy)
  obtain ⟨rfl, hdone⟩ := hrest.of_done
  cases r with
  | error e => cases hdone
  | ok b =>
    cases hdone
    rw [List.append_nil]
    exact hx.steady h ys a h' hfirst

theorem Planning.isInquiry_lift {E : Failure → Prop} {x : Reading α} (hx : x.IsInquiry) :
    Study.IsInquiry E (liftM x : Planning α) := Planning.isInquiry_read hx

end Landing
