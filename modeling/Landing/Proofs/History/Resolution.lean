import Landing.Proofs.History.Ending

/-!
# Histories of any world

Nothing is asked of the world here: names may be stored under which other contents are
drafted later, parents may be missing, and commits may lead back to themselves.  A
history then has a graph of its own.  A name stands for the commit that the history
knows under it, and otherwise for the stored one (`ProjectView.resolve`); the branches
are where they were seen first (`ProjectView.observed`).

* `History.Follows` says that a history comes after another one through questions: it
  knows more, and its graph is the same.  Every question about a history, answered or
  refused, leaves such a history behind (`World.Informs`).
* `History.Sound` says that what is remembered is so: known commits are stored or
  drafted, and the accepted commits are what the tips led to when they were listed.
  The listing went through known commits only, which is why it stays right when
  more is drafted (`ProjectView.Gathered.mem_iff`).
* `History.Arises` is for the histories that come about when questions are asked and
  commits are drafted in turns, while others store commits and move branches.
-/

namespace Landing

open Relation

variable {ε α β : Type}

/-! ### The graph of a history -/

namespace ProjectView

variable {w : World} {project : ProjectName} {v v' : ProjectView} {id : CommitId} {c : Commit}

/-- The commit that a name stands for. -/
def resolve (w : World) (project : ProjectName) (v : ProjectView) (id : CommitId) : Option Commit :=
  (v.commits.get? id).or (w.commit? project id)

/-- The tips of the branches as first seen, or as they are if nobody has looked yet. -/
def observed (w : World) (project : ProjectName) (v : ProjectView) : List CommitId :=
  ((v.tips.or (w.branches project).toOption).getD []).map (·.2)

/-- `y` is among the parents of the commit that `x` stands for. -/
def Link (w : World) (project : ProjectName) (v : ProjectView) (x y : CommitId) : Prop :=
  ∃ c, v.resolve w project x = some c ∧ y ∈ c.parents

theorem resolve_of_known (hknown : v.commits.get? id = some c) :
    v.resolve w project id = some c := by
  rw [resolve, hknown, Option.some_or]

theorem resolve_of_unknown (hunknown : v.commits.get? id = none) :
    v.resolve w project id = w.commit? project id := by
  rw [resolve, hunknown, Option.none_or]

theorem observed_of_tips {tips : List (Branch × CommitId)} (htips : v.tips = some tips) :
    v.observed w project = tips.map (·.2) := by
  rw [observed, htips, Option.some_or, Option.getD_some]

/-- `ids` are what `starts` lead to through known commits. -/
structure Gathered (v : ProjectView) (starts ids : List CommitId) : Prop where
  begun : ∀ s ∈ starts, s ∈ ids
  closed : ∀ x ∈ ids, ∃ c, v.commits.get? x = some c ∧ ∀ y ∈ c.parents, y ∈ ids
  led : ∀ x ∈ ids, ∃ s ∈ starts,
    ReflTransGen (fun x y => ∃ c, v.commits.get? x = some c ∧ y ∈ c.parents) s x

/-- Knowing more changes nothing about what was gathered. -/
theorem Gathered.mono {starts ids : List CommitId} (hg : v.Gathered starts ids)
    (hmore : ∀ id c, v.commits.get? id = some c → v'.commits.get? id = some c) :
    v'.Gathered starts ids where
  begun := hg.begun
  closed x hx := by
    obtain ⟨c, hc, hparents⟩ := hg.closed x hx
    exact ⟨c, hmore x c hc, hparents⟩
  led x hx := by
    obtain ⟨s, hs, hway⟩ := hg.led x hx
    exact ⟨s, hs, ReflTransGen.mono (fun a b ⟨c, hc, hb⟩ => ⟨c, hmore a c hc, hb⟩) _ _ hway⟩

/-- What was gathered from some commits is exactly what they lead to. -/
theorem Gathered.mem_iff {starts ids : List CommitId} (hg : v.Gathered starts ids) :
    id ∈ ids ↔ ∃ s ∈ starts, ReflTransGen (v.Link w project) s id := by
  constructor
  · intro hid
    obtain ⟨s, hs, hway⟩ := hg.led id hid
    exact ⟨s, hs, ReflTransGen.mono (fun a b ⟨c, hc, hb⟩ => ⟨c, resolve_of_known hc, hb⟩) _ _ hway⟩
  · rintro ⟨s, hs, hway⟩
    induction hway with
    | refl => exact hg.begun s hs
    | tail _ hlast ih =>
      obtain ⟨c, hc, hparents⟩ := hg.closed _ ih
      obtain ⟨c', hc', hy⟩ := hlast
      rw [resolve_of_known hc] at hc'
      cases hc'
      exact hparents _ hy

/-- What is remembered of a project is so. -/
structure Sound (w : World) (project : ProjectName) (v : ProjectView) : Prop where
  known : ∀ id c, v.commits.get? id = some c → w.Known v.created project id c
  accepted : ∀ ids, v.accepted = some ids →
    ∃ tips, v.tips = some tips ∧ v.Gathered (tips.map (·.2)) ids

/-- What a name stands for is stored or drafted. -/
theorem Sound.known_of_resolve (hs : v.Sound w project) (hc : v.resolve w project id = some c) :
    w.Known v.created project id c := by
  rcases Option.or_eq_some_iff.1 hc with hknown | ⟨_, hstored⟩
  · exact hs.known id c hknown
  · exact .inl hstored

/-- Through questions about the project `v` has become `v'`. -/
structure Follows (w : World) (project : ProjectName) (v v' : ProjectView) : Prop where
  commits : ∀ id c, v.commits.get? id = some c → v'.commits.get? id = some c
  resolve : ∀ id, v'.resolve w project id = v.resolve w project id
  tips : ∀ tips, v.tips = some tips → v'.tips = some tips
  observed : v'.observed w project = v.observed w project
  created : v'.created = v.created
  sound : v.Sound w project → v'.Sound w project

theorem Follows.refl (v : ProjectView) : v.Follows w project v :=
  ⟨fun _ _ hc => hc, fun _ => rfl, fun _ htips => htips, rfl, rfl, fun hs => hs⟩

theorem Follows.trans {v'' : ProjectView} (h : v.Follows w project v')
    (h' : v'.Follows w project v'') : v.Follows w project v'' where
  commits id c hc := h'.commits id c (h.commits id c hc)
  resolve id := (h'.resolve id).trans (h.resolve id)
  tips tips htips := h'.tips tips (h.tips tips htips)
  observed := h'.observed.trans h.observed
  created := h'.created.trans h.created
  sound hs := h'.sound (h.sound hs)

/-- Remembering what is stored under a name of which nothing was known. -/
theorem follows_remember (hunknown : v.commits.get? id = none) (hc : w.commit? project id = some c) :
    v.Follows w project { v with commits := v.commits.insert id c } := by
  have hkept : ∀ id' c', v.commits.get? id' = some c' →
      (v.commits.insert id c).get? id' = some c' := by
    intro id' c' hc'
    rw [Table.get?_insert_of_ne]
    · exact hc'
    · rintro rfl
      rw [hunknown] at hc'
      cases hc'
  refine ⟨hkept, fun id' => ?_, fun _ htips => htips, rfl, rfl, fun hs => ⟨fun id' c' hc' => ?_, ?_⟩⟩
  · by_cases hid : id' = id
    · rw [hid, resolve_of_unknown hunknown, hc]
      exact resolve_of_known (Table.get?_insert_self ..)
    · rw [resolve, Table.get?_insert_of_ne _ _ hid, resolve]
  · by_cases hid : id' = id
    · rw [hid, Table.get?_insert_self] at hc'
      cases hc'
      rw [hid]
      exact .inl hc
    · rw [Table.get?_insert_of_ne _ _ hid] at hc'
      exact hs.known id' c' hc'
  · intro ids hids
    obtain ⟨tips, htips, hg⟩ := hs.accepted ids hids
    exact ⟨tips, htips, hg.mono hkept⟩

/-- Remembering tips when there were none. -/
theorem follows_see {tips : List (Branch × CommitId)} (hunseen : v.tips = none)
    (htips : w.branches project = .ok tips) : v.Follows w project { v with tips := some tips } where
  commits _ _ hc := hc
  resolve _ := rfl
  tips _ hold := by rw [hunseen] at hold; cases hold
  observed := by
    unfold observed
    rw [hunseen, htips]
    rfl
  created := rfl
  sound hs := by
    refine ⟨hs.known, fun ids hids => ?_⟩
    -- Nothing was listed before there were tips.
    obtain ⟨old, hold, _⟩ := hs.accepted ids hids
    rw [hunseen] at hold
    cases hold

/-- Remembering which commits the tips lead to. -/
theorem follows_accept {tips : List (Branch × CommitId)} {ids : List CommitId}
    (htips : v.tips = some tips) (hg : v.Gathered (tips.map (·.2)) ids) :
    v.Follows w project { v with accepted := some ids } where
  commits _ _ hc := hc
  resolve _ := rfl
  tips _ hold := hold
  observed := rfl
  created := rfl
  sound hs := by
    refine ⟨hs.known, fun ids' hids => ?_⟩
    cases hids
    exact ⟨tips, htips, hg.mono fun _ _ hc => hc⟩

end ProjectView

namespace History

variable {w w' : World} {h h' : History} {project : ProjectName} {id : CommitId} {c : Commit}

/-- The commit that a name stands for in a project. -/
def resolve (w : World) (h : History) (project : ProjectName) (id : CommitId) : Option Commit :=
  (h.view project).resolve w project id

/-- `y` is a parent of `x` in a project. -/
def Link (w : World) (h : History) (project : ProjectName) : CommitId → CommitId → Prop :=
  (h.view project).Link w project

theorem link_iff {x y : CommitId} :
    h.Link w project x y ↔ (h.resolve w project x).any (·.parents.contains y) := by
  simp [Link, ProjectView.Link, resolve, Option.any_eq_true]

instance (x y : CommitId) : Decidable (h.Link w project x y) := decidable_of_iff' _ link_iff

/-- `y` is found from `x` by zero or more parent links. -/
def Reaches (w : World) (h : History) (project : ProjectName) : (x y : CommitId) → Prop :=
  ReflTransGen (h.Link w project)

/-- Some tip of the project as observed leads to the commit. -/
def Accepts (w : World) (h : History) (project : ProjectName) (id : CommitId) : Prop :=
  ∃ tip ∈ (h.view project).observed w project, h.Reaches w project tip id

/-- What is remembered is so. -/
def Sound (w : World) (h : History) : Prop := ∀ project, (h.view project).Sound w project

/-- Through questions `h` has become `h'`. -/
structure Follows (w : World) (h h' : History) : Prop where
  view : ∀ project, (h.view project).Follows w project (h'.view project)
  budget : h'.budget = h.budget

/-- The budget is larger than the number of commits of any project, when `more` are drafted yet. -/
def Roomy (w : World) (more : Nat) (h : History) : Prop :=
  ∀ project, w.commitCount project + (h.view project).created.length + more < h.budget

theorem Follows.refl (h : History) : h.Follows w h := ⟨fun _ => .refl _, rfl⟩

theorem Follows.trans {h'' : History} (hfirst : h.Follows w h') (hsecond : h'.Follows w h'') :
    h.Follows w h'' :=
  ⟨fun project => (hfirst.view project).trans (hsecond.view project),
    hsecond.budget.trans hfirst.budget⟩

theorem Follows.sound (hf : h.Follows w h') (hs : h.Sound w) : h'.Sound w :=
  fun project => (hf.view project).sound (hs project)

theorem Follows.resolve (hf : h.Follows w h') (project : ProjectName) (id : CommitId) :
    h'.resolve w project id = h.resolve w project id := (hf.view project).resolve id

theorem Follows.link (hf : h.Follows w h') : h'.Link w project = h.Link w project := by
  funext x y
  simp only [Link, ProjectView.Link, (hf.view project).resolve]

theorem Follows.reaches (hf : h.Follows w h') : h'.Reaches w project = h.Reaches w project := by
  rw [Reaches, hf.link, Reaches]

theorem Follows.accepts (hf : h.Follows w h') : h'.Accepts w project = h.Accepts w project := by
  funext id
  rw [Accepts, hf.reaches, (hf.view project).observed, Accepts]

theorem Follows.roomy {more : Nat} (hf : h.Follows w h') (hroom : h.Roomy w more) :
    h'.Roomy w more := by
  intro project
  rw [(hf.view project).created, hf.budget]
  exact hroom project

theorem Roomy.mono {more less : Nat} (hroom : h.Roomy w more) (hle : less ≤ more) :
    h.Roomy w less :=
  fun project => Nat.lt_of_le_of_lt (Nat.add_le_add_left hle _) (hroom project)

/-- The view of one project follows its former one. -/
theorem Follows.setView {v : ProjectView} (hv : (h.view project).Follows w project v) :
    h.Follows w (h.setView project v) := by
  refine ⟨fun q => ?_, rfl⟩
  rw [view_setView]
  split
  · next hq => exact hq ▸ hv
  · exact .refl _

theorem Sound.setView {v : ProjectView} (hs : h.Sound w) (hv : v.Sound w project) :
    (h.setView project v).Sound w := by
  intro q
  rw [view_setView]
  split
  · next hq => exact hq ▸ hv
  · exact hs q

theorem sound_start (w : World) (budget : Nat) : (start budget).Sound w := by
  refine fun project => ⟨fun id c hc => ?_, fun ids hids => ?_⟩
  · cases hc
  · cases hids

/-- Drafting a commit; what was gathered before is not touched by it. -/
theorem Sound.draft (hs : h.Sound w) (d : Draft) : (h.draft project d).Sound w := by
  unfold History.draft
  dsimp only
  split
  · exact hs
  · next hunknown =>
    have hnone : (h.view project).commits.get? d.id = none := by
      simpa [Table.contains] using hunknown
    have hkept : ∀ id c, (h.view project).commits.get? id = some c →
        ((h.view project).commits.insert d.id d.commit).get? id = some c := by
      intro id c hc
      rw [Table.get?_insert_of_ne]
      · exact hc
      · rintro rfl
        rw [hnone] at hc
        cases hc
    refine hs.setView ⟨fun id c hc => ?_, fun ids hids => ?_⟩
    · by_cases hid : id = d.id
      · rw [hid, Table.get?_insert_self] at hc
        cases hc
        exact .inr ⟨d, by simp, hid.symm, rfl⟩
      · rw [Table.get?_insert_of_ne _ _ hid] at hc
        exact ((hs project).known id c hc).mono (List.subset_append_left _ _)
    · obtain ⟨tips, htips, hg⟩ := (hs project).accepted ids hids
      exact ⟨tips, htips, hg.mono hkept⟩

/-- With a budget that exceeds the reach of the world, two commits may be drafted for every change, and
some more. -/
theorem roomy_start {budget more : Nat} (hbudget : w.reach + more ≤ budget) :
    (start budget).Roomy w (2 * w.changes.size + more) := by
  intro project
  have hcount := w.commitCount_add_lt_reach project
  have hnone : ((start budget).view project).created = [] := rfl
  rw [hnone, List.length_nil]
  change _ < budget
  omega

/-- A draft takes one place. -/
theorem Roomy.draft {more : Nat} (hroom : h.Roomy w (more + 1)) (project : ProjectName) (d : Draft) :
    (h.draft project d).Roomy w more := by
  unfold History.draft
  dsimp only
  split
  · exact hroom.mono (Nat.le_succ more)
  · intro q
    have hq := hroom q
    rw [view_setView]
    change _ < h.budget
    split
    · next heq =>
      rw [← heq, List.length_append, List.length_singleton]
      omega
    · omega

/-- What is remembered stays so while commits are stored and branches are moved. -/
theorem Sound.storedIn (hs : h.Sound w) (hstored : w.StoredIn w') : h.Sound w' := by
  refine fun project => ⟨fun id c hc => ?_, (hs project).accepted⟩
  exact ((hs project).known id c hc).imp_left (hstored project id c)

/-- A commit that is known is not read. -/
theorem commit_of_known (hknown : (h.view project).commits.get? id = some c) :
    commit project id h = .done (.ok c, h) := by
  rw [commit, Study.get_bind, hknown]
  rfl

/-- A commit that is read is known from then on. -/
theorem commit_of_unknown (hunknown : (h.view project).commits.get? id = none) :
    commit project id h = .call (.commit project id) fun r =>
      .done (r, r.toOption.elim h (h.remember project id)) := by
  rw [commit, Study.get_bind, hunknown]
  show Program.call _ _ = Program.call _ _
  congr 1
  funext r
  cases r with
  | ok c => rfl
  | error e => rfl

end History

/-! ### Studies that change nothing -/

/-- Whatever comes of the study, a value or an error, the history has come about through questions. -/
def World.Informs (w : World) (x : Study ε α) : Prop :=
  ∀ h r h', Program.MayCome (w.Shows fun _ => True) (x h) (r, h') → h.Follows w h'

/-- A study in two steps ends with the error of its first step, or as its second step does. -/
theorem Study.mayCome_bind_cases {A : (c : StoreCall) → Except StoreError c.Reply → Prop}
    {x : Study ε α} {f : α → Study ε β} {h h' : History} {r : Except ε β}
    (hcome : Program.MayCome A ((x >>= f) h) (r, h')) :
    (∃ e, Program.MayCome A (x h) (.error e, h')) ∨
      ∃ a h₁, Study.Yields A x h a h₁ ∧ Program.MayCome A (f a h₁) (r, h') := by
  obtain ⟨⟨r₁, h₁⟩, hx, hf⟩ := (Program.mayCome_bind (p := x h)).1 hcome
  cases r₁ with
  | error e =>
    cases hf
    exact .inl ⟨e, hx⟩
  | ok a => exact .inr ⟨a, h₁, hx, hf⟩

namespace World

variable {w : World} {h h' : History} {project : ProjectName} {id : CommitId}

theorem Informs.follows {x : Study ε α} (hx : w.Informs x) {a : α} (hy : w.Yields x h a h') :
    h.Follows w h' := hx h (.ok a) h' hy

theorem informs_pure (a : α) : w.Informs (pure a : Study ε α) := by
  intro h r h' hcome
  cases hcome
  exact .refl h

theorem informs_throw (e : ε) : w.Informs (throw e : Study ε α) := by
  intro h r h' hcome
  cases hcome
  exact .refl h

theorem Informs.bind {x : Study ε α} {f : α → Study ε β} (hx : w.Informs x)
    (hf : ∀ a, w.Informs (f a)) : w.Informs (x >>= f) := by
  intro h r h' hcome
  rcases Study.mayCome_bind_cases hcome with ⟨e, hfirst⟩ | ⟨a, h₁, hfirst, hsecond⟩
  · exact hx h _ h' hfirst
  · exact (hx.follows hfirst).trans (hf a h₁ r h' hsecond)

theorem informs_get : w.Informs (get : Study ε History) := by
  intro h r h' hcome
  cases hcome
  exact .refl h

theorem informs_exhausted : w.Informs (Reading.exhausted : Reading α) :=
  fun _ _ _ hcome => hcome.elim

theorem informs_ask (c : StoreCall) : w.Informs (Reading.ask c) := by
  rintro h r h' ⟨r', _, hcome⟩
  cases hcome
  exact .refl h

theorem informs_planning_ask (c : StoreCall) : w.Informs (Planning.ask c) := by
  rintro h r h' ⟨r', _, hcome⟩
  cases hcome
  exact .refl h

theorem Informs.read {x : Reading α} (hx : w.Informs x) : w.Informs (Planning.read x) := by
  intro h r h' hcome
  obtain ⟨⟨r₁, h₁⟩, hfirst, hend⟩ := (Program.mayCome_bind (p := x h)).1 hcome
  cases hend
  exact hx h r₁ h' hfirst

theorem informs_mapM {f : α → Study ε β} {l : List α} (hf : ∀ a ∈ l, w.Informs (f a)) :
    w.Informs (l.mapM f) := by
  induction l with
  | nil => exact informs_pure []
  | cons a l ih =>
    rw [List.mapM_cons]
    refine (hf a (by simp)).bind fun b => ?_
    exact (ih fun a' ha' => hf a' (by simp [ha'])).bind fun bs => informs_pure (b :: bs)

/-! ### Questions about commits and tips -/

/-- Reading a commit gives what its name stands for, and the history knows it then. -/
theorem yields_commit_resolve {c : Commit} (hy : w.Yields (History.commit project id) h c h') :
    h.Follows w h' ∧ h.resolve w project id = some c ∧ (h'.view project).commits.get? id = some c := by
  simp only [History.commit, yields_bind, yields_get] at hy
  obtain ⟨_, _, ⟨rfl, rfl⟩, hy⟩ := hy
  split at hy
  · next c' hknown =>
    obtain ⟨rfl, rfl⟩ := yields_pure.1 hy
    exact ⟨.refl h', ProjectView.resolve_of_known hknown, hknown⟩
  · next hunknown =>
    simp only [yields_bind, yields_ask (c := .commit project id), yields_modify, yields_pure] at hy
    obtain ⟨c', _, ⟨hread, rfl⟩, _, _, rfl, rfl, rfl⟩ := hy
    have hstored : w.commit? project id = some c := commit?_of_readCommit hread
    refine ⟨.setView (ProjectView.follows_remember hunknown hstored), ?_, ?_⟩
    · rw [History.resolve, ProjectView.resolve_of_unknown hunknown, hstored]
    · rw [History.remember, History.view_setView, if_pos rfl]
      exact Table.get?_insert_self ..

theorem informs_commit : w.Informs (History.commit project id) := by
  intro h r h' hcome
  cases r with
  | ok c => exact (yields_commit_resolve hcome).1
  | error e =>
    cases hknown : (h.view project).commits.get? id with
    | some c =>
      rw [History.commit_of_known hknown] at hcome
      cases hcome
    | none =>
      rw [History.commit_of_unknown hknown] at hcome
      obtain ⟨r, _, hend⟩ := hcome
      cases hend
      exact .refl h

/-- Reading the parents of a commit gives those of the commit that its name stands for. -/
theorem yields_parents_resolve {ps : List CommitId}
    (hy : w.Yields (History.parents project id) h ps h') :
    h.Follows w h' ∧ ((h'.view project).commits.get? id).isSome ∧
      ∃ c, h.resolve w project id = some c ∧ c.parents = ps := by
  simp only [History.parents, yields_bind, yields_pure] at hy
  obtain ⟨c, _, hc, rfl, rfl⟩ := hy
  obtain ⟨hf, hresolve, hknown⟩ := yields_commit_resolve hc
  exact ⟨hf, Option.isSome_of_eq_some hknown, c, hresolve, rfl⟩

theorem informs_parents : w.Informs (History.parents project id) :=
  informs_commit.bind fun c => informs_pure c.parents

/-- Listing the branches gives the observed tips, and the history remembers them then. -/
theorem yields_tips_observed {tips : List (Branch × CommitId)}
    (hy : w.Yields (History.tips project) h tips h') :
    h.Follows w h' ∧ (h'.view project).tips = some tips := by
  simp only [History.tips, yields_bind, yields_get] at hy
  obtain ⟨_, _, ⟨rfl, rfl⟩, hy⟩ := hy
  split at hy
  · next tips' hseen =>
    obtain ⟨rfl, rfl⟩ := yields_pure.1 hy
    exact ⟨.refl h', hseen⟩
  · next hunseen =>
    simp only [yields_bind, yields_ask (c := .branches project), yields_modify, yields_pure] at hy
    obtain ⟨tips', _, ⟨hread, rfl⟩, _, _, rfl, rfl, rfl⟩ := hy
    refine ⟨.setView (ProjectView.follows_see hunseen hread), ?_⟩
    rw [History.view_setView, if_pos rfl]

theorem informs_tips : w.Informs (History.tips project) := by
  intro h r h' hcome
  cases r with
  | ok tips => exact (yields_tips_observed hcome).1
  | error e =>
    cases hseen : (h.view project).tips with
    | some tips =>
      rw [History.tips_of_known hseen] at hcome
      cases hcome
    | none =>
      rw [History.tips_of_unknown hseen] at hcome
      obtain ⟨r, _, hend⟩ := hcome
      cases hend
      exact .refl h

theorem informs_tip? {branch : Branch} : w.Informs (History.tip? branch) :=
  informs_tips.bind fun _ => informs_pure _

end World
end Landing
