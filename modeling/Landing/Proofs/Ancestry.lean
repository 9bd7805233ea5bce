import Landing.Store.Answer
import Mathlib.Data.Fintype.Order
import Mathlib.Data.Set.Function
import Mathlib.Logic.Relation

/-!
# What leads to what

The commits of a project form a graph along parent links.  The graph is taken
over the stored commits together with some drafts, since a plan speaks about
merge commits that no store has yet.

* `World.Leads` is the reflexive and transitive closure of parent links.
* `World.Accepted` says that some branch of the project leads to a commit.
* `World.exists_above` says that above every member of a finite collection there
  is one that no other member is above, provided the history has no circle.

The remaining definitions say what is required of a world: that commits are
stored under the names of their content, that full names are used for refs, and
that change records are stored under their own numbers.
-/

namespace Landing
namespace World

variable {w : World} {drafts more : List Draft} {project : ProjectName}
variable {a b c id : CommitId} {c' : Commit}

/-! ### The graph of a project -/

/-- A commit of that name is stored in the project or is among the drafts. -/
def Known (w : World) (drafts : List Draft) (project : ProjectName) (id : CommitId)
    (c : Commit) : Prop :=
  w.commit? project id = some c ∨ ∃ d ∈ drafts, d.id = id ∧ c = d.commit

/-- A commit named `child` has `parent` among its parents. -/
def Parent (w : World) (drafts : List Draft) (project : ProjectName)
    (child parent : CommitId) : Prop :=
  ∃ c, w.Known drafts project child c ∧ parent ∈ c.parents

/-- `ancestor` is found from `descendant` by zero or more parent links. -/
def Leads (w : World) (drafts : List Draft) (project : ProjectName) :
    (descendant ancestor : CommitId) → Prop :=
  Relation.ReflTransGen (w.Parent drafts project)

/-- Some branch of the project leads to the commit. -/
def Accepted (w : World) (project : ProjectName) (id : CommitId) : Prop :=
  ∃ name tip, w.tip? ⟨project, name⟩ = some tip ∧ w.Leads [] project tip id

/-- The commit is stored, and so is every commit that it leads to. -/
def Whole (w : World) (project : ProjectName) (id : CommitId) : Prop :=
  ∀ x, w.Leads [] project id x → (w.commit? project x).isSome

/-- Everything that the commit leads to is known, stored or drafted. -/
def Resolvable (w : World) (drafts : List Draft) (project : ProjectName) (id : CommitId) : Prop :=
  ∀ x, w.Leads drafts project id x → ∃ c, w.Known drafts project x c

/-- Every accepted commit of the project is stored. -/
def AcceptedStored (w : World) (project : ProjectName) : Prop :=
  ∀ x, w.Accepted project x → (w.commit? project x).isSome

/-- No commit leads back to itself. -/
def Acyclic (w : World) : Prop :=
  ∀ project id, ¬ Relation.TransGen (w.Parent [] project) id id

theorem Known.mono {c : Commit} (hsub : drafts ⊆ more) (h : w.Known drafts project id c) :
    w.Known more project id c := by
  rcases h with hstored | ⟨d, hd, hid, hc⟩
  · exact .inl hstored
  · exact .inr ⟨d, hsub hd, hid, hc⟩

@[simp] theorem known_nil {c : Commit} :
    w.Known [] project id c ↔ w.commit? project id = some c := by
  simp [Known]

theorem Parent.mono (hsub : drafts ⊆ more) (h : w.Parent drafts project a b) :
    w.Parent more project a b := by
  obtain ⟨c, hc, hb⟩ := h
  exact ⟨c, hc.mono hsub, hb⟩

theorem Leads.refl : w.Leads drafts project a a := Relation.ReflTransGen.refl

theorem Leads.trans (hab : w.Leads drafts project a b) (hbc : w.Leads drafts project b c) :
    w.Leads drafts project a c :=
  Relation.ReflTransGen.trans hab hbc

theorem Parent.leads (h : w.Parent drafts project a b) : w.Leads drafts project a b :=
  Relation.ReflTransGen.single h

/-- With more drafts a commit leads to at least as much. -/
theorem Leads.mono (hsub : drafts ⊆ more) (h : w.Leads drafts project a b) :
    w.Leads more project a b :=
  Relation.ReflTransGen.mono (fun _ _ hp => Parent.mono hsub hp) _ _ h

/-- A set that holds the parents of its members holds everything that its members lead to. -/
theorem Leads.closed {S : CommitId → Prop}
    (hS : ∀ x y, S x → w.Parent drafts project x y → S y)
    (h : w.Leads drafts project a b) (ha : S a) : S b := by
  induction h with
  | refl => exact ha
  | tail _ hlast ih => exact hS _ _ ih hlast

/-- A commit without parents leads to itself only. -/
theorem Leads.eq_of_no_parents {c : Commit} (hc : w.commit? project a = some c)
    (hparents : c.parents = []) (hleads : w.Leads [] project a b) : b = a := by
  refine hleads.closed (S := fun x => x = a) ?_ rfl
  rintro x y rfl ⟨c', hc', hy⟩
  have hsame : c' = c := Option.some.inj ((known_nil.1 hc').symm.trans hc)
  rw [hsame, hparents] at hy
  cases hy

/-- What an accepted commit leads to is accepted. -/
theorem Accepted.leads (h : w.Accepted project a) (hab : w.Leads [] project a b) :
    w.Accepted project b := by
  obtain ⟨name, tip, htip, hta⟩ := h
  exact ⟨name, tip, htip, hta.trans hab⟩

/-- Where the accepted commits are stored, so is all that an accepted commit leads to. -/
theorem AcceptedStored.whole (h : w.AcceptedStored project) (ha : w.Accepted project a) :
    w.Whole project a :=
  fun x hx => h x (ha.leads hx)

theorem Whole.leads (h : w.Whole project a) (hab : w.Leads [] project a b) :
    w.Whole project b :=
  fun x hx => h x (hab.trans hx)

theorem Whole.stored (h : w.Whole project a) : (w.commit? project a).isSome :=
  h a .refl

/-- Every commit of `w` is stored in `w'` as well. -/
def StoredIn (w w' : World) : Prop :=
  ∀ project id c, w.commit? project id = some c → w'.commit? project id = some c

theorem StoredIn.refl (w : World) : w.StoredIn w := fun _ _ _ hc => hc

theorem StoredIn.trans {w' w'' : World} (h : w.StoredIn w') (h' : w'.StoredIn w'') :
    w.StoredIn w'' :=
  fun project id c hc => h' project id c (h project id c hc)

theorem StoredIn.isSome {w' : World} (h : w.StoredIn w') (hid : (w.commit? project id).isSome) :
    (w'.commit? project id).isSome := by
  obtain ⟨c, hc⟩ := Option.isSome_iff_exists.1 hid
  rw [h project id c hc]
  rfl

theorem StoredIn.parent {w' : World} (h : w.StoredIn w') (hab : w.Parent drafts project a b) :
    w'.Parent drafts project a b := by
  obtain ⟨c, hc, hb⟩ := hab
  exact ⟨c, hc.imp_left (h project a c), hb⟩

theorem StoredIn.leads {w' : World} (h : w.StoredIn w') (hab : w.Leads drafts project a b) :
    w'.Leads drafts project a b :=
  Relation.ReflTransGen.mono (fun _ _ hparent => h.parent hparent) _ _ hab

/-- Where there is no circle, there is none among fewer commits. -/
theorem Acyclic.of_storedIn {w' : World} (h : w.Acyclic) (hstored : w'.StoredIn w) : w'.Acyclic :=
  fun project id hcircle =>
    h project id (Relation.TransGen.mono (fun _ _ hparent => hstored.parent hparent) _ _ hcircle)

/-- A way where all links but those from `z` are of another kind is of this kind, or it visits `z`. -/
theorem transGen_or_visits {α : Type} {R S : α → α → Prop} {x y z : α}
    (hlink : ∀ x y, R x y → x = z ∨ S x y) (h : Relation.TransGen R x y) :
    Relation.TransGen S x y ∨ Relation.ReflTransGen R x z ∧ Relation.TransGen R z y := by
  induction h with
  | single hlast =>
    rcases hlink _ _ hlast with rfl | hS
    · exact .inr ⟨.refl, .single hlast⟩
    · exact .inl (.single hS)
  | tail hfirst hlast ih =>
    rcases hlink _ _ hlast with rfl | hS
    · exact .inr ⟨hfirst.to_reflTransGen, .single hlast⟩
    · exact ih.imp (·.tail hS) fun hvisit => ⟨hvisit.1, hvisit.2.tail hlast⟩

/-- Where everything behind a commit is stored, nothing is added by storing more. -/
theorem Whole.leads_of_storedIn {w' : World} (h : w.StoredIn w') (ha : w.Whole project a)
    (hab : w'.Leads [] project a b) : w.Leads [] project a b := by
  induction hab with
  | refl => exact .refl
  | @tail x y _ hparent ih =>
    obtain ⟨c, hc, hy⟩ := hparent
    obtain ⟨c', hc'⟩ := Option.isSome_iff_exists.1 (ha x ih)
    have hsame : c' = c :=
      Option.some.inj ((h project x c' hc').symm.trans (known_nil.1 hc))
    rw [← hsame] at hy
    exact ih.trans (Parent.leads ⟨c', known_nil.2 hc', hy⟩)

theorem Whole.storedIn {w' : World} (ha : w.Whole project a) (h : w.StoredIn w') :
    w'.Whole project a :=
  fun x hx => h.isSome (ha x (ha.leads_of_storedIn h hx))

/-- A name has one list of parents, whether its commit is stored or drafted. -/
def Definite (w : World) (drafts : List Draft) (project : ProjectName) : Prop :=
  ∀ id c c', w.Known drafts project id c → w.Known drafts project id c' → c.parents = c'.parents

theorem Definite.mono (h : w.Definite more project) (hsub : drafts ⊆ more) :
    w.Definite drafts project :=
  fun id c c' hc hc' => h id c c' (hc.mono hsub) (hc'.mono hsub)

/-- Where everything behind a commit is known, more drafts add nothing to it. -/
theorem Resolvable.leads_of_more (ha : w.Resolvable drafts project a)
    (hdefinite : w.Definite more project) (hsub : drafts ⊆ more)
    (hab : w.Leads more project a b) : w.Leads drafts project a b := by
  induction hab with
  | refl => exact .refl
  | @tail x y _ hparent ih =>
    obtain ⟨c, hc, hy⟩ := hparent
    obtain ⟨c', hc'⟩ := ha x ih
    rw [hdefinite x c c' hc (hc'.mono hsub)] at hy
    exact ih.trans (Parent.leads ⟨c', hc', hy⟩)

/-- The drafts take no part in what the branches lead to. -/
structure Settled (w : World) (drafts : List Draft) (project : ProjectName) : Prop where
  definite : w.Definite drafts project
  stored : drafts = [] ∨ w.AcceptedStored project

theorem definite_nil (w : World) (project : ProjectName) : w.Definite [] project := by
  intro id c c' hc hc'
  rw [known_nil] at hc hc'
  rw [hc] at hc'
  cases hc'
  rfl

theorem settled_nil (w : World) (project : ProjectName) : w.Settled [] project :=
  ⟨definite_nil w project, .inl rfl⟩

theorem Settled.mono (h : w.Settled more project) (hsub : drafts ⊆ more) :
    w.Settled drafts project := by
  refine ⟨h.definite.mono hsub, h.stored.imp_left ?_⟩
  rintro rfl
  exact List.subset_nil.1 hsub

/-- What an accepted commit leads to is accepted, drafts or no drafts. -/
theorem Settled.accepted (h : w.Settled drafts project) (ha : w.Accepted project a)
    (hab : w.Leads drafts project a b) : w.Accepted project b := by
  refine hab.closed (S := w.Accepted project) (fun x y hx hparent => ?_) ha
  rcases h.stored with rfl | hstored
  · exact hx.leads hparent.leads
  · -- The parents are those of the stored commit.
    obtain ⟨c, hc, hy⟩ := hparent
    obtain ⟨c', hc'⟩ := Option.isSome_iff_exists.1 (hstored x hx)
    rw [h.definite x c c' hc (.inl hc')] at hy
    exact hx.leads (Parent.leads ⟨c', known_nil.2 hc', hy⟩)

/-- The listed branches of a project are its refs under their full names. -/
theorem exists_project_of_branches {tips : List (Branch × CommitId)}
    (htips : w.branches project = .ok tips) : ∃ p, w.projects.get? project = some p ∧
      p.refs.entries.map (fun r => (Branch.named project r.1, r.2)) = tips := by
  cases hp : w.projects.get? project with
  | none => simp [branches, project?, hp, Except.map] at htips
  | some p =>
    refine ⟨p, rfl, ?_⟩
    simpa [branches, project?, hp, Except.map] using htips

/-- The accepted commits of a project are those that its listed tips lead to. -/
theorem accepted_iff {tips : List (Branch × CommitId)} (htips : w.branches project = .ok tips) :
    w.Accepted project id ↔ ∃ tip ∈ tips.map (·.2), w.Leads [] project tip id := by
  obtain ⟨p, hp, rfl⟩ := exists_project_of_branches htips
  constructor
  · rintro ⟨name, tip, htip, hleads⟩
    have hentry : (name, tip) ∈ p.refs.entries := by
      rw [← Table.get?_eq_some_iff]
      simpa [tip?, hp] using htip
    exact ⟨tip, by simpa using ⟨name, hentry⟩, hleads⟩
  · rintro ⟨tip, htip, hleads⟩
    obtain ⟨name, hentry⟩ : ∃ name, (name, tip) ∈ p.refs.entries := by simpa using htip
    rw [← Table.get?_eq_some_iff] at hentry
    exact ⟨name, tip, by simpa [tip?, hp] using hentry, hleads⟩

/-- The listed commits are those that a look-up finds. -/
theorem exists_project_of_commit? : w.commit? project id = some c' ↔
    ∃ p, (project, p) ∈ w.projects.entries ∧ (id, c') ∈ p.commits.entries := by
  simp only [commit?, Option.bind_eq_some_iff, Table.get?_eq_some_iff]

/-- A history has no circle if numbers can be given to its commits so that every parent has a
smaller number than its child. -/
theorem acyclic_of_rank (rank : CommitId → Nat)
    (hrank : ∀ e ∈ w.projects.entries, ∀ e' ∈ e.2.commits.entries, ∀ parent ∈ e'.2.parents,
      rank parent < rank e'.1) : w.Acyclic := by
  intro project id hcircle
  -- The number falls along every way, so no way leads back to its start.
  have hless : ∀ x y, Relation.TransGen (w.Parent [] project) x y → rank y < rank x := by
    intro x y hxy
    have hlink : ∀ x y, w.Parent [] project x y → rank y < rank x := by
      rintro x y ⟨c, hc, hy⟩
      obtain ⟨p, hp, he⟩ := exists_project_of_commit?.1 (known_nil.1 hc)
      exact hrank (project, p) hp (x, c) he y hy
    induction hxy with
    | single hparent => exact hlink x _ hparent
    | tail _ hparent ih => exact lt_trans (hlink _ _ hparent) ih
  exact absurd (hless id id hcircle) (Nat.lt_irrefl _)

/-! ### Members of a collection above each other -/

/-- Going up from one member to another always comes to an end, since the collection is finite and
the history has no circle. -/
theorem exists_above {α : Type} {members : List α} (commit : α → CommitId) {top : α → Prop}
    (hacyclic : w.Acyclic)
    (hstep : ∀ m ∈ members, top m ∨ ∃ u ∈ members,
      commit m ≠ commit u ∧ w.Leads [] project (commit u) (commit m)) :
    ∀ m ∈ members, ∃ t ∈ members, top t ∧ w.Leads [] project (commit t) (commit m) := by
  let Above : {m // m ∈ members} → {m // m ∈ members} → Prop := fun u m =>
    Relation.TransGen (w.Parent [] project) (commit u.1) (commit m.1)
  have hfinite : Finite {m // m ∈ members} := List.finite_toSet members
  have htrans : IsTrans _ Above := ⟨fun _ _ _ hxy hyz => Relation.TransGen.trans hxy hyz⟩
  have hirrefl : Std.Irrefl Above := ⟨fun m => hacyclic project (commit m.1)⟩
  have hwf : WellFounded Above := Finite.wellFounded_of_trans_of_irrefl Above
  intro m hm
  induction h : (⟨m, hm⟩ : {m // m ∈ members}) using hwf.induction generalizing m with
  | _ x ih =>
    subst h
    rcases hstep m hm with htop | ⟨u, hu, hne, hleads⟩
    · exact ⟨m, hm, htop, .refl⟩
    · -- The member above is the smaller one here, so it has a top above it already.
      have habove : Above ⟨u, hu⟩ ⟨m, hm⟩ := by
        rcases Relation.reflTransGen_iff_eq_or_transGen.1 hleads with heq | htg
        · exact absurd heq hne
        · exact htg
      obtain ⟨t, ht, htop, htu⟩ := ih ⟨u, hu⟩ habove u hu rfl
      exact ⟨t, ht, htop, htu.trans hleads⟩

/-! ### What is required of a world -/

/-- Every commit is stored under the name of its content. -/
def ContentAddressed (w : World) : Prop :=
  ∀ project id c, w.commit? project id = some c → c.toDraft.id = id

theorem contentAddressed_iff : w.ContentAddressed ↔
    ∀ e ∈ w.projects.entries, ∀ e' ∈ e.2.commits.entries, e'.2.toDraft.id = e'.1 := by
  constructor
  · intro haddressed e he e' he'
    exact haddressed e.1 e'.1 e'.2 (exists_project_of_commit?.2 ⟨e.2, he, he'⟩)
  · intro hall project id c hc
    obtain ⟨p, hp, he⟩ := exists_project_of_commit?.1 hc
    exact hall (project, p) hp (id, c) he

instance : Decidable w.ContentAddressed := decidable_of_iff _ contentAddressed_iff.symm

/-- The names of commits that are stored in many places need to be compared with the contents only
once. -/
theorem contentAddressed_of_named {commits : List Commit}
    (hnamed : ∀ c ∈ commits, c.toDraft.id = c.id)
    (hstored : ∀ e ∈ w.projects.entries, ∀ e' ∈ e.2.commits.entries,
      e'.2 ∈ commits ∧ e'.2.id = e'.1) : w.ContentAddressed := by
  refine contentAddressed_iff.2 fun e he e' he' => ?_
  obtain ⟨hmem, hid⟩ := hstored e he e' he'
  rw [← hid]
  exact hnamed e'.2 hmem

/-- The contents of the stored commits. -/
def storedDrafts (w : World) : Set Draft :=
  {d | ∃ project id c, w.commit? project id = some c ∧ d = c.toDraft}

theorem StoredIn.storedDrafts {w' : World} (h : w.StoredIn w') :
    w.storedDrafts ⊆ w'.storedDrafts := by
  rintro d ⟨project, id, c, hc, rfl⟩
  exact ⟨project, id, c, h project id c hc, rfl⟩

/-- Where no two contents have one name, names are definite. -/
theorem definite_of_injOn (haddressed : w.ContentAddressed) {S : Set Draft}
    (hfree : Set.InjOn Draft.id S) (hstored : w.storedDrafts ⊆ S) (hdrafts : ∀ d ∈ drafts, d ∈ S) :
    w.Definite drafts project := by
  have hcontent : ∀ id c, w.Known drafts project id c → c.toDraft ∈ S ∧ c.toDraft.id = id := by
    rintro id c (hc | ⟨d, hd, hid, rfl⟩)
    · exact ⟨hstored ⟨project, id, c, hc, rfl⟩, haddressed project id c hc⟩
    · exact ⟨hdrafts d hd, hid⟩
  intro id c c' hc hc'
  obtain ⟨hmem, hname⟩ := hcontent id c hc
  obtain ⟨hmem', hname'⟩ := hcontent id c' hc'
  have hsame : c.toDraft = c'.toDraft := hfree hmem hmem' (hname.trans hname'.symm)
  exact congrArg Draft.parents hsame

/-- Every ref is stored under a full name. -/
def RefsQualified (w : World) : Prop :=
  ∀ b tip, w.tip? b = some tip → b.IsQualified

/-- The listed refs are those that a look-up finds. -/
theorem mem_refs {b : Branch} {tip : CommitId} : (b, tip) ∈ w.refs ↔ w.tip? b = some tip := by
  unfold refs tip?
  simp only [List.mem_flatMap, List.mem_map, Option.bind_eq_some_iff, Table.get?_eq_some_iff]
  constructor
  · rintro ⟨⟨project, p⟩, hp, ⟨name, t⟩, hr, heq⟩
    cases heq
    exact ⟨p, hp, hr⟩
  · rintro ⟨p, hp, hr⟩
    exact ⟨(b.project, p), hp, (b.name, tip), hr, rfl⟩

theorem refsQualified_iff : w.RefsQualified ↔ ∀ r ∈ w.refs, r.1.IsQualified := by
  constructor
  · intro hrefs r hr
    exact hrefs r.1 r.2 (mem_refs.1 hr)
  · intro hall b tip htip
    exact hall (b, tip) (mem_refs.2 htip)

instance : Decidable w.RefsQualified := decidable_of_iff _ refsQualified_iff.symm

/-- Where refs have full names, these are the names in the list of branches. -/
theorem RefsQualified.named_eq (hrefs : w.RefsQualified) {p : Project}
    (hp : w.projects.get? project = some p) {r : String × CommitId} (hr : r ∈ p.refs.entries) :
    Branch.named project r.1 = ⟨project, r.1⟩ ∧ w.tip? ⟨project, r.1⟩ = some r.2 := by
  have htip : w.tip? ⟨project, r.1⟩ = some r.2 := by
    simpa [tip?, hp] using (Table.get?_eq_some_iff ..).2 hr
  have hqualified : Branch.qualify r.1 = r.1 := hrefs _ _ htip
  exact ⟨by rw [Branch.named, hqualified], htip⟩

/-- Where refs have full names, the listed branches are where the list says. -/
theorem RefsQualified.tip?_of_mem_branches (hrefs : w.RefsQualified) {branch : Branch} {tip : CommitId}
    {tips : List (Branch × CommitId)} (htips : w.branches project = .ok tips)
    (hmem : (branch, tip) ∈ tips) : w.tip? branch = some tip := by
  obtain ⟨p, hp, rfl⟩ := exists_project_of_branches htips
  obtain ⟨r, hr, heq⟩ := List.mem_map.1 hmem
  obtain ⟨hname, htip⟩ := hrefs.named_eq hp hr
  cases heq
  rw [hname]
  exact htip

/-- Where refs have full names, looking a branch up in the list of branches finds its tip. -/
theorem RefsQualified.find?_branches (hrefs : w.RefsQualified) {branch : Branch}
    {tips : List (Branch × CommitId)} (htips : w.branches branch.project = .ok tips) :
    (tips.find? (·.1 == branch)).map (·.2) = w.tip? branch := by
  obtain ⟨p, hp, rfl⟩ := exists_project_of_branches htips
  have hnamed : ∀ r ∈ p.refs.entries, Branch.named branch.project r.1 = ⟨branch.project, r.1⟩ :=
    fun r hr => (hrefs.named_eq hp hr).1
  have htip : w.tip? branch = Table.lookup branch.name p.refs.entries := by
    rw [tip?, hp]
    rfl
  rw [htip]
  generalize p.refs.entries = entries at hnamed
  induction entries with
  | nil => rfl
  | cons r entries ih =>
    rw [List.map_cons, hnamed r (by simp), List.find?_cons, Table.lookup]
    by_cases hname : branch.name = r.1
    · have hsame : ((⟨branch.project, r.1⟩ : Branch) == branch) = true := by
        rw [← hname]
        simp
      rw [hsame]
      simp [hname, Std.ReflCmp.compare_self]
    · have hother : ((⟨branch.project, r.1⟩ : Branch) == branch) = false := by
        rw [beq_eq_false_iff_ne]
        intro heq
        exact hname (by rw [← heq])
      have hne : compare branch.name r.1 ≠ .eq := fun heq =>
        hname (Std.LawfulEqCmp.eq_of_compare heq)
      rw [hother, if_neg hne]
      exact ih fun r' hr' => hnamed r' (by simp [hr'])

/-- Every change record is stored under its own number. -/
def Keyed (w : World) : Prop := ∀ id c, w.changes.get? id = some c → c.id = id

instance : Decidable w.Keyed :=
  decidable_of_iff' (∀ e ∈ w.changes.entries, e.2.id = e.1) Table.forall_get?_iff

/-- A listed change is stored under its number. -/
theorem Keyed.get?_of_mem (hkeyed : w.Keyed) {c : Change} (hc : c ∈ w.changes.values) :
    w.changes.get? c.id = some c := by
  obtain ⟨⟨k, c'⟩, hentry, rfl⟩ := List.mem_map.1 hc
  have hget : w.changes.get? k = some c' := (Table.get?_eq_some_iff ..).2 hentry
  have hid : c'.id = k := hkeyed k c' hget
  rw [← hid] at hget
  exact hget

theorem keyed_empty : empty.Keyed := by
  intro id c hget
  cases hget

theorem Keyed.insertChange (hkeyed : w.Keyed) (c : Change) : (w.insertChange c).Keyed := by
  intro id c' hget
  change (w.changes.insert c.id c).get? id = some c' at hget
  rcases Table.get?_insert_cases hget with ⟨rfl, rfl⟩ | hold
  · rfl
  · exact hkeyed id c' hold

/-- No open change carries traces of a submission. -/
def Unsubmitted (w : World) : Prop :=
  ∀ id c, w.changes.get? id = some c → c.isOpen = true → c.submitter = none ∧ c.mergedAs = none

instance : Decidable w.Unsubmitted :=
  decidable_of_iff' (∀ e ∈ w.changes.entries,
    e.2.isOpen = true → e.2.submitter = none ∧ e.2.mergedAs = none) Table.forall_get?_iff

end World
end Landing
