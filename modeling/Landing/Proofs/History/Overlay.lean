import Landing.Proofs.History.MergeBase
import Landing.Proofs.Program.Returning
import Landing.Proofs.Submission.Budget

/-!
# Drafts of others

A history holds the drafts of everything that was planned with it.  A question that is
about commits behind which only some of the drafts are should not depend on the others.

`History.Carries` says that a history is faithful, that it holds nothing but contents
which can be told apart by their names, and that some drafts of a project are known to
it.  What those drafts and the stored commits lead to is the same in every such history
(`Carries.leads_iff`, `Carries.firstCommon_iff`), and so every question about it has one
answer (`World.returns_isAncestor`, `World.exists_returns_mergeBase?` and the lemmas
beside them).
-/

namespace Landing

variable {w : World} {U : Set Draft} {h h' : History}
variable {project : ProjectName} {mine left right : List Draft} {n : Nat}
variable {a b c : CommitId}

namespace World

open History

/-! ### Contents and their names -/

/-- No two of the contents have the same name, and the stored ones, which are stored under their names,
are among them. -/
structure TellsApart (w : World) (U : Set Draft) : Prop where
  addressed : w.ContentAddressed
  injOn : Set.InjOn Draft.id U
  stored : w.storedDrafts ⊆ U

namespace TellsApart

theorem content (hU : w.TellsApart U) (hin : ∀ d ∈ left, d ∈ U) {k : Commit}
    (hk : w.Known left project a k) : k.toDraft ∈ U ∧ k.toDraft.id = a := by
  rcases hk with hstored | ⟨d, hd, hid, rfl⟩
  · exact ⟨hU.stored ⟨project, a, k, hstored, rfl⟩, hU.addressed project a k hstored⟩
  · exact ⟨hin d hd, hid⟩

/-- A name has one content, whatever the drafts are. -/
theorem toDraft_eq (hU : w.TellsApart U) (hin : ∀ d ∈ left, d ∈ U) (hin' : ∀ d ∈ right, d ∈ U)
    {k k' : Commit} (hk : w.Known left project a k) (hk' : w.Known right project a k') :
    k.toDraft = k'.toDraft := by
  obtain ⟨hmem, hid⟩ := hU.content hin hk
  obtain ⟨hmem', hid'⟩ := hU.content hin' hk'
  exact hU.injOn hmem hmem' (hid.trans hid'.symm)

theorem definite (hU : w.TellsApart U) (hin : ∀ d ∈ left, d ∈ U) : w.Definite left project :=
  definite_of_injOn hU.addressed hU.injOn hU.stored hin

/-- Where everything behind a commit is known, it is so with more drafts. -/
theorem resolvable (hU : w.TellsApart U) (hin : ∀ d ∈ right, d ∈ U) (hsub : left ⊆ right)
    (ha : w.Resolvable left project a) : w.Resolvable right project a := by
  intro x hx
  obtain ⟨k, hk⟩ := ha x (ha.leads_of_more (hU.definite hin) hsub hx)
  exact ⟨k, hk.mono hsub⟩

/-- Where everything behind a commit is stored, it is known whatever the drafts are. -/
theorem resolvable_of_whole (hU : w.TellsApart U) (hin : ∀ d ∈ left, d ∈ U)
    (ha : w.Whole project a) : w.Resolvable left project a := by
  have hnil : w.Resolvable [] project a := fun x hx => by
    obtain ⟨k, hk⟩ := Option.isSome_iff_exists.1 (ha x hx)
    exact ⟨k, known_nil.2 hk⟩
  exact hU.resolvable hin (List.nil_subset left) hnil

/-- A merge commit leads to known commits only if its parents do. -/
theorem resolvable_draft (hU : w.TellsApart U) {d : Draft}
    (hin : ∀ d' ∈ left ++ [d], d' ∈ U) (hparents : ∀ p ∈ d.parents, w.Resolvable left project p) :
    w.Resolvable (left ++ [d]) project d.id := by
  have hd : w.Known (left ++ [d]) project d.id d.commit := .inr ⟨d, by simp, rfl, rfl⟩
  intro x hx
  rcases Relation.ReflTransGen.cases_head hx with rfl | ⟨y, ⟨k, hk, hy⟩, hyx⟩
  · exact ⟨d.commit, hd⟩
  · have hsame := congrArg Draft.parents (hU.toDraft_eq hin hin hk hd)
    have hmem : y ∈ d.parents := hsame ▸ hy
    exact hU.resolvable hin (List.subset_append_left _ _) (hparents y hmem) x hyx

end TellsApart

end World

/-! ### What a history carries -/

/-- The drafts of a project that the history holds. -/
def History.drafts (h : History) (project : ProjectName) : List Draft := (h.view project).created

/-- The history is faithful and has room for `n` further drafts.  All its drafts are among the contents
`U`, and so are those in `mine`, which are known in the project: the history holds them, or they are
stored. -/
structure History.Carries (w : World) (U : Set Draft) (project : ProjectName) (mine : List Draft)
    (n : Nat) (h : History) : Prop where
  faithful : h.Faithful w h.drafts
  held : h.HoldsDrafts
  within : ∀ q, ∀ d ∈ h.drafts q, d ∈ U
  room : ∀ q, w.commitCount q + (h.drafts q).length + n < h.budget
  own : ∀ d ∈ mine, d ∈ U
  known : ∀ d ∈ mine, ∃ k, w.Known (h.drafts project) project d.id k

namespace History.Carries

open World

theorem ready (hh : h.Carries w U project mine n) : h.Ready w h.drafts where
  faithful := hh.faithful
  room q := Nat.lt_of_le_of_lt (Nat.le_add_right _ n) (hh.room q)
  held := hh.held

/-- Nothing need be said of any drafts of a project. -/
theorem forget (hh : h.Carries w U project mine n) (q : ProjectName) : h.Carries w U q [] n :=
  { hh with own := fun _ hd => (nomatch hd), known := fun _ hd => (nomatch hd) }

/-- A history without drafts carries none. -/
theorem of_fresh (hf : h.Fresh w) (hroom : ∀ q, w.commitCount q + n < h.budget) :
    h.Carries w U project [] n := by
  have hnone : h.drafts = fun _ => [] := funext hf.drafts
  refine ⟨hnone ▸ hf, holdsDrafts_of_fresh hf, fun q d hd => ?_, fun q => ?_, fun _ hd => (nomatch hd),
    fun _ hd => (nomatch hd)⟩
  · rw [hnone] at hd
    cases hd
  · rw [hnone]
    exact hroom q

theorem start (w : World) (U : Set Draft) (project : ProjectName) (n : Nat) :
    (History.start (w.reach + n)).Carries w U project [] n := by
  refine of_fresh (History.faithful_start w _) fun q => ?_
  have hcount := w.commitCount_add_lt_reach q
  show w.commitCount q + n < w.reach + n
  omega

theorem less (hh : h.Carries w U project mine n) {m : Nat} (hle : m ≤ n) :
    h.Carries w U project mine m :=
  { hh with room := fun r => Nat.lt_of_le_of_lt (Nat.add_le_add_left hle _) (hh.room r) }

/-- A history with the same drafts and the same budget carries the same. -/
theorem kept (hh : h.Carries w U project mine n) (hready : h'.Ready w h.drafts)
    (hbudget : h'.budget = h.budget) : h'.Carries w U project mine n := by
  have hsame : h'.drafts = h.drafts := funext hready.faithful.drafts
  refine ⟨hsame ▸ hready.faithful, hready.held, ?_, ?_, hh.own, ?_⟩
  · rw [hsame]
    exact hh.within
  · rw [hsame, hbudget]
    exact hh.room
  · rw [hsame]
    exact hh.known

theorem definite (hh : h.Carries w U project mine n) (hU : w.TellsApart U) :
    w.Definite (h.drafts project) project :=
  hU.definite (hh.within project)

theorem settled (hh : h.Carries w U project mine n) (hU : w.TellsApart U)
    (hstocked : w.Stocked project) : w.Settled (h.drafts project) project :=
  ⟨hh.definite hU, .inr hstocked.2⟩

/-- What is known of the drafts `mine` is known with the same content. -/
theorem exists_known (hh : h.Carries w U project mine n) (hU : w.TellsApart U) {k : Commit}
    (hk : w.Known mine project a k) :
    ∃ k', w.Known (h.drafts project) project a k' ∧ k'.toDraft = k.toDraft := by
  rcases hk with hstored | ⟨d, hd, rfl, rfl⟩
  · exact ⟨k, .inl hstored, rfl⟩
  · obtain ⟨k', hk'⟩ := hh.known d hd
    exact ⟨k', hk', hU.toDraft_eq (hh.within project) hh.own hk' (.inr ⟨d, hd, rfl, rfl⟩)⟩

theorem parent (hh : h.Carries w U project mine n) (hU : w.TellsApart U)
    (hab : w.Parent mine project a b) : w.Parent (h.drafts project) project a b := by
  obtain ⟨k, hk, hb⟩ := hab
  obtain ⟨k', hk', hsame⟩ := hh.exists_known hU hk
  exact ⟨k', hk', (congrArg Draft.parents hsame).symm ▸ hb⟩

/-- Behind a commit where everything is known of the drafts `mine`, the other drafts are of no
consequence. -/
theorem leads_iff (hh : h.Carries w U project mine n) (hU : w.TellsApart U)
    (ha : w.Resolvable mine project a) :
    w.Leads (h.drafts project) project a b ↔ w.Leads mine project a b := by
  constructor
  · intro hab
    induction hab with
    | refl => exact .refl
    | @tail x y _ hxy ih =>
      obtain ⟨k, hk, hy⟩ := hxy
      obtain ⟨k', hk'⟩ := ha x ih
      have hsame := hU.toDraft_eq (hh.within project) hh.own hk hk'
      exact ih.tail ⟨k', hk', congrArg Draft.parents hsame ▸ hy⟩
  · exact fun hab => Relation.ReflTransGen.mono (fun _ _ hxy => hh.parent hU hxy) _ _ hab

theorem resolvable (hh : h.Carries w U project mine n) (hU : w.TellsApart U)
    (ha : w.Resolvable mine project a) : w.Resolvable (h.drafts project) project a := by
  intro x hx
  obtain ⟨k, hk⟩ := ha x ((hh.leads_iff hU ha).1 hx)
  obtain ⟨k', hk', _⟩ := hh.exists_known hU hk
  exact ⟨k', hk'⟩

/-- The generations of such a commit are made of the drafts `mine` and of stored commits. -/
theorem generation_eq (hh : h.Carries w U project mine n) (hU : w.TellsApart U)
    (hb : w.Resolvable mine project b) (m : Nat) :
    w.generation (h.drafts project) project b m = w.generation mine project b m := by
  induction m with
  | zero => rfl
  | succ m ih =>
    rw [generation, generation, ih]
    refine List.flatMap_congr fun x hx => ?_
    obtain ⟨k, hk⟩ := hb x ((exists_generation_iff (hU.definite hh.own)).1 ⟨m, hx⟩)
    obtain ⟨k', hk', hsame⟩ := hh.exists_known hU hk
    rw [ParentsAre.parentsOf_eq (hU.definite hh.own) ⟨k, hk, rfl⟩]
    exact ParentsAre.parentsOf_eq (hh.definite hU) ⟨k', hk', congrArg Draft.parents hsame⟩

theorem firstCommon_iff (hh : h.Carries w U project mine n) (hU : w.TellsApart U)
    (ha : w.Resolvable mine project a) (hb : w.Resolvable mine project b) :
    w.FirstCommon (h.drafts project) project a b c ↔ w.FirstCommon mine project a b c := by
  have hleads : w.Leads (h.drafts project) project a = w.Leads mine project a :=
    funext fun x => propext (hh.leads_iff hU ha)
  have hgeneration : w.generation (h.drafts project) project b = w.generation mine project b :=
    funext (hh.generation_eq hU hb)
  unfold FirstCommon Nearest
  rw [hleads, hgeneration]

end History.Carries

namespace World

open History

/-! ### Questions with one answer -/

/-- A question that ends with this value, without an error and without touching the drafts, returns
it. -/
theorem returns_of_carries {ε α : Type} {x : Study ε α} (hx : x.Elastic) {v : α}
    (hends : ∀ h, h.Carries w U project mine n →
      w.Ends x h (fun y h' => h'.Ready w h.drafts ∧ y = v) fun _ => False) :
    w.Returns (Carries w U project mine n) x v (Carries w U project mine n) := by
  refine returns_of_ends fun h hh => ?_
  refine ((hends h hh).and_yields fun y h' hy => hx.budget_eq hy).mono ?_ fun _ hfalse => hfalse
  rintro y h' ⟨⟨hready, heq⟩, hbudget⟩
  exact ⟨heq, hh.kept hready hbudget⟩

/-- Looking a branch up. -/
theorem exists_returns_tip? {branch : Branch} (hstocked : w.Stocked branch.project) (U : Set Draft)
    (mine : List Draft) (n : Nat) :
    ∃ tip, (∀ t, tip = some t → w.Accepted branch.project t) ∧
      w.Returns (Carries w U branch.project mine n) (History.tip? branch) tip
        (Carries w U branch.project mine n) := by
  obtain ⟨p, hp⟩ := Option.isSome_iff_exists.1 hstocked.1
  obtain ⟨ts, hbranches⟩ : ∃ ts, w.branches branch.project = .ok ts := by
    simp [branches, project?, hp, Except.map]
  refine ⟨(ts.find? (·.1 == branch)).map (·.2), fun t ht => ?_,
    returns_of_carries (elastic_tip? branch) fun h hh => ?_⟩
  · obtain ⟨r, hr, rfl⟩ := Option.map_eq_some_iff.1 ht
    exact (accepted_iff hbranches).2 ⟨r.2, List.mem_map_of_mem (List.mem_of_find?_eq_some hr), .refl⟩
  · refine ((Ready.ends_tips hh.ready).mono (fun _ _ hts => hts)
      fun e hmissing => hmissing hstocked).bind fun ts' h' hts => ?_
    obtain ⟨hready, hts⟩ := hts
    rw [hbranches] at hts
    cases hts
    exact ends_pure ⟨hready, rfl⟩

open Classical in
/-- Asking whether a commit leads to another. -/
theorem returns_isAncestor (hU : w.TellsApart U) (hstocked : w.Stocked project)
    (hb : w.Resolvable mine project b) :
    w.Returns (Carries w U project mine n) (isAncestor project a b)
      (decide (w.Leads mine project b a)) (Carries w U project mine n) := by
  refine returns_of_carries (elastic_isAncestor project a b) fun h hh => ?_
  have hsettled := hh.settled hU hstocked
  refine ((ends_isAncestor hsettled hh.ready).and_yields fun y h' hy =>
    yields_isAncestor_exact hh.faithful hy).mono ?_ ?_
  · rintro y h' ⟨hready, -, hsound, hcomplete⟩
    refine ⟨hready, ?_⟩
    rw [Bool.eq_iff_iff, decide_eq_true_iff, ← hh.leads_iff hU hb]
    exact ⟨hsound, hcomplete hsettled⟩
  · rintro e (hmissing | ⟨x, hleads, hx⟩)
    · exact hmissing hstocked
    · obtain ⟨k, hk⟩ := hh.resolvable hU hb x hleads
      exact hx k hk

/-- Reading something that is in the content of a known commit. -/
theorem returns_commit {α : Type} (hU : w.TellsApart U) {f : Commit → α}
    (hf : ∀ k k' : Commit, k.toDraft = k'.toDraft → f k = f k') {k : Commit}
    (hk : w.Known mine project a k) :
    w.Returns (Carries w U project mine n) (do pure (f (← commit project a)))
      (f k) (Carries w U project mine n) := by
  have helastic : Study.Elastic (do pure (f (← commit project a)) : Reading α) :=
    (elastic_commit project a).bind fun _ => Study.elastic_pure _
  refine returns_of_carries helastic fun h hh => ?_
  obtain ⟨k₀, hk₀, hsame⟩ := hh.exists_known hU hk
  refine ((ends_commit.and_yields fun k' h' hy => yields_commit hh.faithful hy).mono
    (fun _ _ hread => hread) fun e he => ?_).bind fun k' h' hread => ?_
  · -- A known commit is stored or remembered.
    obtain ⟨hnone, hunknown⟩ := he
    rcases hk₀ with hstored | ⟨d, hd, rfl, _⟩
    · rw [hnone] at hstored
      cases hstored
    · have hsome := hh.held project d hd
      rw [hunknown] at hsome
      cases hsome
  · obtain ⟨⟨hbudget, hkept⟩, hf', hk'⟩ := hread
    refine ends_pure ⟨⟨hh.ready.of_budget hf' (fun _ => rfl) hbudget, hkept hh.held⟩, hf _ _ ?_⟩
    exact (hU.toDraft_eq (hh.within project) (hh.within project) hk' hk₀).trans hsame

/-- Searching a merge base. -/
theorem exists_returns_mergeBase? (hU : w.TellsApart U) (hown : ∀ d ∈ mine, d ∈ U)
    (ha : w.Resolvable mine project a) (hb : w.Resolvable mine project b) :
    ∃ base, (∀ c, base = some c → w.Leads mine project b c) ∧
      w.Returns (Carries w U project mine n) (mergeBase? project a b) base
        (Carries w U project mine n) := by
  classical
  have hbase : ∃ base, ∀ c, base = some c ↔ w.FirstCommon mine project a b c := by
    by_cases hsome : ∃ c, w.FirstCommon mine project a b c
    · obtain ⟨c, hc⟩ := hsome
      refine ⟨some c, fun c' => ⟨?_, fun hc' => congrArg some (hc.unique hc')⟩⟩
      rintro ⟨⟩
      exact hc
    · exact ⟨none, fun c => ⟨fun hc => (nomatch hc), fun hc => absurd ⟨c, hc⟩ hsome⟩⟩
  obtain ⟨base, hbase⟩ := hbase
  refine ⟨base, fun c hc => ((hbase c).1 hc).leads (hU.definite hown), ?_⟩
  refine returns_of_carries (elastic_mergeBase? project a b) fun h hh => ?_
  have hdefinite := hh.definite hU
  have hsame : ∀ c, w.FirstCommon (h.drafts project) project a b c ↔ base = some c :=
    fun c => (hh.firstCommon_iff hU ha hb).trans (hbase c).symm
  refine ((ends_mergeBase? hh.ready.toAmple hh.held (hh.resolvable hU ha)
    (hh.resolvable hU hb)).and_yields fun found h' hy =>
      yields_mergeBase?_first hdefinite hh.faithful hy).mono ?_ fun _ hfalse => hfalse
  rintro found h' ⟨hready, ⟨c, rfl, hc⟩ | ⟨rfl, hnone⟩⟩
  · exact ⟨hready, ((hsame c).1 hc).symm⟩
  · refine ⟨hready, (Option.eq_none_iff_forall_ne_some.2 fun c hc => ?_).symm⟩
    exact hnone c (((hsame c).2 hc).common hdefinite)

/-- Drafting a commit.  The history carries the draft then, or what is stored or drafted already under
the name of it; if the draft is one of the contents that are told apart, this is the same. -/
theorem returns_addDraft (hstocked : w.Stocked project) (d : Draft) :
    w.Returns (Carries w U project mine (n + 1)) (addDraft project d) d.id
      (fun h' => d ∈ U → h'.Carries w U project (mine ++ [d]) n) := by
  intro h hh
  refine ⟨h.draft project d, rfl, fun hd => ?_⟩
  have hy : w.Yields (addDraft project d) h d.id (h.draft project d) := rfl
  obtain ⟨ds', hf', hother, hadded⟩ := yields_addDraft hh.faithful hstocked.1 hy
  have hdrafts : (h.draft project d).drafts = ds' := funext hf'.drafts
  have hbudget := (elastic_addDraft project d).budget_eq hy
  have hgrown : ∀ q, h.drafts q ⊆ ds' q ∧ (∀ d' ∈ ds' q, d' ∈ h.drafts q ∨ d' = d) ∧
      (ds' q).length ≤ (h.drafts q).length + 1 := by
    intro q
    by_cases hq : q = project
    · subst hq
      rcases hadded with heq | ⟨heq, _⟩
      · rw [heq]
        exact ⟨List.subset_append_left _ _, by simp, by simp⟩
      · rw [heq]
        exact ⟨fun _ hd' => hd', fun _ hd' => .inl hd', Nat.le_succ _⟩
    · rw [hother q hq]
      exact ⟨fun _ hd' => hd', fun _ hd' => .inl hd', Nat.le_succ _⟩
  refine ⟨hdrafts ▸ hf', hh.held.draft, fun q d' hd' => ?_, fun q => ?_, ?_, ?_⟩
  · rw [hdrafts] at hd'
    rcases (hgrown q).2.1 d' hd' with hold | rfl
    · exact hh.within q d' hold
    · exact hd
  · rw [hdrafts, hbudget]
    have hroom := hh.room q
    have hlength := (hgrown q).2.2
    omega
  · intro d' hd'
    rcases List.mem_append.1 hd' with hold | hnew
    · exact hh.own d' hold
    · exact List.mem_singleton.1 hnew ▸ hd
  · intro d' hd'
    rw [hdrafts]
    rcases List.mem_append.1 hd' with hold | hnew
    · obtain ⟨k, hk⟩ := hh.known d' hold
      exact ⟨k, hk.mono (hgrown project).1⟩
    · rw [List.mem_singleton.1 hnew]
      rcases hadded with heq | ⟨heq, k, hk⟩
      · exact ⟨d.commit, .inr ⟨d, by simp [heq], rfl, rfl⟩⟩
      · exact ⟨k, hk.mono (hgrown project).1⟩

end World
end Landing
