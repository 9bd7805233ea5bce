import Landing.Proofs.History.Ending
import Landing.Proofs.Store.Effects
import Landing.Proofs.World.Snapshot

/-!
# Two views of the refs

The branches of a project can be listed, and a single branch can be looked up.  The
list gives full names whatever the refs are stored under, and the look-up takes a
name as it is.  So the views agree exactly where refs are stored under full names
(`World.refsQualified_iff_viewsAgree`).

Writes under full names touch no ref that has a short one (`RefWrite.tip?_eq`), so
whether the views agree is settled by the world that a run starts from, which may
have been loaded from any text (`World.views_agree_iff`).
-/

namespace Landing
namespace World

variable {w w' w₀ : World}

/-- The list of branches and the look-up agree on a branch, and it is listed at most once. -/
structure ViewsAgree (w : World) (b : Branch) : Prop where
  listed_iff : ∀ tip, (∃ l, w.branches b.project = .ok l ∧ (b, tip) ∈ l) ↔
    w.branchTip b = .ok (some tip)
  once : ∀ l, w.branches b.project = .ok l → (l.map (·.1)).count b ≤ 1

/-- A ref is written under a full name, in place of what is there or of what is expected there. -/
inductive RefWrite (w : World) : World → Prop
  | set {project : ProjectName} {name : String} {tip : CommitId} {w' : World}
      (h : w.setBranch (.named project name) tip = .ok w') : RefWrite w w'
  | swap {project : ProjectName} {name : String} {expected new : Option CommitId} {w' : World}
      (h : w.compareAndSwap (.named project name) expected new = .ok w') : RefWrite w w'

/-! ### Where the views agree -/

theorem branchTip_eq_some_iff {b : Branch} {tip : CommitId} :
    w.branchTip b = .ok (some tip) ↔ w.tip? b = some tip := by
  unfold branchTip project? tip?
  cases w.projects.get? b.project with
  | none => simp [Except.map]
  | some p => simp [Except.map]

theorem branches_of_project {project : ProjectName} {p : Project}
    (hp : w.projects.get? project = some p) :
    w.branches project = .ok (p.refs.entries.map fun r => (Branch.named project r.1, r.2)) := by
  simp [branches, project?, hp, Except.map]

theorem isQualified_named (project : ProjectName) (name : String) :
    (Branch.named project name).IsQualified :=
  Branch.qualify_qualify name

/-- Where refs have full names the views agree. -/
theorem RefsQualified.viewsAgree (h : w.RefsQualified) (b : Branch) : w.ViewsAgree b where
  listed_iff tip := by
    rw [branchTip_eq_some_iff]
    constructor
    · rintro ⟨l, hl, hmem⟩
      exact h.tip?_of_mem_branches hl hmem
    · intro htip
      obtain ⟨p, hp, hget⟩ := Option.bind_eq_some_iff.1 htip
      have hentry := (Table.get?_eq_some_iff ..).1 hget
      refine ⟨_, branches_of_project hp, List.mem_map.2 ⟨_, hentry, ?_⟩⟩
      rw [(h.named_eq hp hentry).1]
  once l hl := by
    obtain ⟨p, hp, rfl⟩ := exists_project_of_branches hl
    have hnames : (p.refs.entries.map fun r => (Branch.named b.project r.1, r.2)).map (·.1) =
        p.refs.keys.map (Branch.mk b.project) := by
      rw [Table.keys, List.map_map, List.map_map]
      exact List.map_congr_left fun r hr => (h.named_eq hp hr).1
    rw [hnames]
    refine List.nodup_iff_count_le_one.1 (p.refs.nodup_keys.map fun a a' heq => ?_) b
    exact (Branch.mk.inj heq).2

/-- Where the views agree on full names, there are no other names: the full name of a short one
would be listed for both. -/
theorem refsQualified_of_viewsAgree
    (h : ∀ project name, w.ViewsAgree (.named project name)) : w.RefsQualified := by
  intro b tip htip
  by_contra hshort
  obtain ⟨p, hp, hget⟩ := Option.bind_eq_some_iff.1 htip
  have hentry := (Table.get?_eq_some_iff ..).1 hget
  have hbranches := branches_of_project hp
  have hagree := h b.project b.name
  have hfull : w.tip? (.named b.project b.name) = some tip :=
    branchTip_eq_some_iff.1 ((hagree.listed_iff tip).1
      ⟨_, hbranches, List.mem_map.2 ⟨_, hentry, rfl⟩⟩)
  have hentry' : (Branch.qualify b.name, tip) ∈ p.refs.entries := by
    refine (Table.get?_eq_some_iff ..).1 ?_
    simpa [tip?, Branch.named, hp] using hfull
  have honce := hagree.once _ hbranches
  -- Its own entry stands apart from the one under the short name.
  obtain ⟨before, after, hentries⟩ := List.append_of_mem hentry
  have hother : (Branch.qualify b.name, tip) ∈ before ++ after := by
    rw [hentries, List.mem_append, List.mem_cons] at hentry'
    obtain hmem | heq | hmem := hentry'
    · exact List.mem_append_left after hmem
    · exact absurd (Prod.mk.inj heq).1 hshort
    · exact List.mem_append_right before hmem
  have hcount : 0 < ((before ++ after).map fun r => Branch.named b.project r.1).count
      (.named b.project b.name) := by
    exact List.count_pos_iff.2
      (List.mem_map.2 ⟨_, hother, Branch.named_named b.project b.name⟩)
  rw [hentries, List.map_map] at honce
  simp only [List.map_append, List.map_cons, List.count_append, Function.comp_def,
    List.count_cons_self] at honce hcount
  omega

theorem refsQualified_iff_viewsAgree : w.RefsQualified ↔ ∀ b, w.ViewsAgree b :=
  ⟨fun h => h.viewsAgree, fun h => refsQualified_of_viewsAgree fun _ _ => h _⟩

/-! ### Writes -/

theorem eq_withTip_of_compareAndSwap {b : Branch} {expected new : Option CommitId}
    (h : w.compareAndSwap b expected new = .ok w') :
    w.HasProject b.project ∧ w' = w.withTip b new := by
  have hanswer : w.answer (.compareAndSwap b expected new) = (.ok (), w') := by
    simp only [answer, h, Except.map, settle]
  obtain ⟨⟨e, herror⟩, -⟩ | ⟨hok, hswap⟩ := answer_compareAndSwap w b expected new
  · rw [hanswer] at herror
    cases herror
  · rw [hanswer] at hok
    exact ⟨hswap.project, (Prod.mk.inj hok).2⟩

namespace RefWrite

/-- What a write does is to point one branch with a full name. -/
theorem exists_eq_withTip (h : w.RefWrite w') :
    ∃ b tip, b.IsQualified ∧ w.HasProject b.project ∧ w' = w.withTip b tip := by
  cases h with
  | set h => exact ⟨_, _, isQualified_named _ _, eq_withTip_of_setBranch h⟩
  | swap h => exact ⟨_, _, isQualified_named _ _, eq_withTip_of_compareAndSwap h⟩

/-- A write leaves refs with short names alone. -/
theorem tip?_eq (h : w.RefWrite w') {b : Branch} (hb : ¬ b.IsQualified) :
    w'.tip? b = w.tip? b := by
  obtain ⟨b', tip, hqualified, hproject, rfl⟩ := h.exists_eq_withTip
  rw [tip?_withTip hproject, if_neg]
  rintro rfl
  exact hb hqualified

theorem refsQualified_iff (h : w.RefWrite w') : w'.RefsQualified ↔ w.RefsQualified := by
  have hshort : ∀ v : World, v.RefsQualified ↔ ∀ b, ¬ b.IsQualified → v.tip? b = none := by
    intro v
    constructor
    · intro hv b hb
      exact Option.eq_none_iff_forall_ne_some.2 fun tip htip => hb (hv b tip htip)
    · intro hv b tip htip
      by_contra hb
      rw [hv b hb] at htip
      cases htip
  rw [hshort, hshort]
  exact forall₂_congr fun b hb => by rw [h.tip?_eq hb]

end RefWrite

/-- No run of writes makes names full or short. -/
theorem refsQualified_iff_of_writes (hrun : Relation.ReflTransGen RefWrite w₀ w) :
    w.RefsQualified ↔ w₀.RefsQualified := by
  induction hrun with
  | refl => rfl
  | tail _ hwrite ih => exact hwrite.refsQualified_iff.trans ih

/-! ### What is observed while planning -/

/-- A swap that expects what is there is refused at most because the new commit is not stored. -/
theorem commitNotFound_of_expected {b : Branch} {tip new : Option CommitId} {e : StoreError}
    (htip : w.branchTip b = .ok tip) (herror : w.compareAndSwap b tip new = .error e) :
    ∃ id, e = .commitNotFound b.project id := by
  unfold branchTip at htip
  cases hp : w.project? b.project with
  | error e' =>
    rw [hp] at htip
    cases htip
  | ok p =>
    rw [hp] at htip
    cases htip
    simp only [compareAndSwap, hp, ne_eq, not_true_eq_false, if_false] at herror
    cases new with
    | none => cases herror
    | some t =>
      dsimp only at herror
      split at herror
      · cases herror
      · cases herror
        exact ⟨t, rfl⟩

/-- The tip that a history shows is found, and a swap that expects it meets it. -/
theorem RefsQualified.observed (hrefs : w.RefsQualified) {b : Branch}
    (hproject : w.HasProject b.project) {ds : ProjectName → List Draft} {h : History}
    (hf : h.Faithful w ds) :
    ∃ tip h', Program.result w (History.tip? b h) = some (.ok tip, h') ∧
      w.branchTip b = .ok tip ∧
      ∀ new e, w.compareAndSwap b tip new = .error e → ∃ id, e = .commitNotFound b.project id := by
  obtain ⟨p, hp⟩ := Option.isSome_iff_exists.1 hproject
  have hends : w.Ends (History.tip? b) h (fun _ _ => True) (fun _ => False) := by
    have htips : w.Ends (History.tips b.project) h (fun _ _ => True) (fun _ => False) := by
      refine ends_tips.mono (fun _ _ _ => trivial) fun e he => ?_
      rw [hp] at he
      cases he
    exact htips.bind fun _ _ _ => ends_pure trivial
  obtain ⟨r, h', hresult, hr⟩ := hends.and_yields fun tip h' hy => (yields_tip? hf hy).2
  cases r with
  | error e => exact hr.elim
  | ok tip =>
    obtain ⟨-, tips, htips, rfl⟩ := hr
    rw [hrefs.find?_branches htips] at hresult
    have htip : w.branchTip b = .ok (w.tip? b) := by
      simp [branchTip, project?, tip?, hp, Except.map]
    exact ⟨_, h', hresult, htip, fun new e herror => commitNotFound_of_expected htip herror⟩

/-- The two views of the refs agree, from whatever world a run of writes started, exactly if that
world stores its refs under full names: on every branch, and already if they agree on the branches
with full names.  Then every history that was read from the world shows the tip that a swap meets,
which is refused at most because the new commit is not stored. -/
theorem views_agree_iff (hrun : Relation.ReflTransGen RefWrite w₀ w) :
    ((∀ b, w.ViewsAgree b) ↔ w₀.RefsQualified) ∧
    ((∀ project name, w.ViewsAgree (.named project name)) ↔ w₀.RefsQualified) ∧
    (w₀.RefsQualified → ∀ b, w.HasProject b.project → ∀ ds h, h.Faithful w ds →
      ∃ tip h', Program.result w (History.tip? b h) = some (.ok tip, h') ∧
        w.branchTip b = .ok tip ∧
        ∀ new e, w.compareAndSwap b tip new = .error e →
          ∃ id, e = .commitNotFound b.project id) := by
  have hkept := refsQualified_iff_of_writes hrun
  refine ⟨refsQualified_iff_viewsAgree.symm.trans hkept, ?_, fun hrefs b hproject ds h hf =>
    (hkept.2 hrefs).observed hproject hf⟩
  rw [← hkept]
  exact ⟨refsQualified_of_viewsAgree, fun h project name => h.viewsAgree _⟩

def oneCommit : Table CommitId Commit :=
  Table.empty.insert ⟨1⟩ ⟨⟨[], .empty, ⟨"", ""⟩, ⟨"", ""⟩, ""⟩, ⟨1⟩⟩

/-- A world with one project, one commit and one branch of this name at it. -/
def oneRef (name : String) : World :=
  empty.setProject "p" ⟨oneCommit, Table.empty.insert name ⟨1⟩⟩

theorem filed_oneRef (name : String) : (oneRef name).Filed := by
  have hnone : ∀ id c, (Table.empty : Table CommitId Commit).get? id = some c → c.id = id :=
    fun _ _ hget => by cases hget
  have hcommits : ∀ refs, Project.Filed ⟨oneCommit, refs⟩ :=
    fun _ => Table.key_of_get?_insert Commit.id hnone ⟨⟨[], .empty, ⟨"", ""⟩, ⟨"", ""⟩, ""⟩, ⟨1⟩⟩
  exact filed_empty.setProject (hcommits _) "p"

/-- A full name may be as short as this; the branch is removed, and another one is made. -/
theorem views_agree_moved :
    Relation.ReflTransGen RefWrite (oneRef "refs/x") (oneRef "refs/heads/x") ∧
    (oneRef "refs/x").RefsQualified ∧ ∀ b, (oneRef "refs/heads/x").ViewsAgree b := by
  have hremoved : (oneRef "refs/x").compareAndSwap (.named "p" "refs/x") (some ⟨1⟩) none =
      .ok (empty.setProject "p" ⟨oneCommit, .empty⟩) := rfl
  have hmade : (empty.setProject "p" ⟨oneCommit, .empty⟩).setBranch (.named "p" "x") ⟨1⟩ =
      .ok (oneRef "refs/heads/x") := rfl
  have hrun := (Relation.ReflTransGen.single (RefWrite.swap hremoved)).tail (.set hmade)
  have hrefs : (oneRef "refs/x").RefsQualified := by decide
  exact ⟨hrun, hrefs, (views_agree_iff hrun).1.2 hrefs⟩

/-- A short name is saved, and taken from a saved world, as it stands.  The branch is listed under
its full name then, and is not found there. -/
theorem short_name_not_found :
    load? (oneRef "master").save = some (oneRef "master") ∧
    (oneRef "master").branches "p" = .ok [(.named "p" "master", ⟨1⟩)] ∧
    (oneRef "master").branchTip (.named "p" "master") = .ok none ∧
    ¬ (oneRef "master").ViewsAgree (.named "p" "master") := by
  have hload : load? (oneRef "master").save = some (oneRef "master") :=
    (filed_oneRef "master").load?_save_eq
  have hlist : (oneRef "master").branches "p" = .ok [(.named "p" "master", ⟨1⟩)] := by
    decide
  have htip : (oneRef "master").branchTip (.named "p" "master") = .ok none := by decide
  refine ⟨hload, hlist, htip, fun hagree => ?_⟩
  have hfound := (hagree.listed_iff ⟨1⟩).1 ⟨_, hlist, List.mem_cons_self⟩
  rw [htip] at hfound
  cases hfound

end World
end Landing
