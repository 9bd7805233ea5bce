import Landing.Proofs.History.Ending
import Landing.Proofs.History.Generations
import Landing.Proofs.Submission.Submit

/-!
# Merge bases

The merge base of two commits is meant to be a best common ancestor, one that no other
common ancestor leads to (`World.BestCommon`).  What is found is the common ancestor
that comes first in the generations of the second commit, and that need not be a best
one: where the history of the second commit has a merge, a short way may lead past a
common ancestor to one that is behind it (`World.mergeBase_behind_best`).

`World.mergeBase_best_iff` says what is found and exactly when it is a best one.  That
is so wherever no commit is in two generations (`World.mergeBase?_best_of_level`), as in
histories without merges and in those where the sides of every merge are equally long.
-/

namespace Landing
namespace World

open History

variable {w : World} {drafts : List Draft} {ds : ProjectName → List Draft} {h h' : History}
variable {project : ProjectName} {a b c d : CommitId}

/-- Both commits lead to this one; a commit leads to itself. -/
def Common (w : World) (drafts : List Draft) (project : ProjectName) (a b c : CommitId) : Prop :=
  w.Leads drafts project a c ∧ w.Leads drafts project b c

/-- A common ancestor that no other one leads to. -/
def BestCommon (w : World) (drafts : List Draft) (project : ProjectName) (a b c : CommitId) :
    Prop :=
  w.Common drafts project a b c ∧
    ∀ d, w.Common drafts project a b d → d ≠ c → ¬ w.Leads drafts project d c

/-- Of the common ancestors, this one comes first in the generations of `b`. -/
def FirstCommon (w : World) (drafts : List Draft) (project : ProjectName) (a b c : CommitId) :
    Prop :=
  w.Nearest drafts project b (w.Leads drafts project a) c

/-- Where the parents of all stored commits are stored, a stored commit leads to stored ones only. -/
theorem resolvable_of_closed
    (hclosed : ∀ e ∈ w.projects.entries, ∀ e' ∈ e.2.commits.entries, ∀ parent ∈ e'.2.parents,
      (e.2.commits.get? parent).isSome)
    (ha : ∃ c, w.commit? project a = some c) : w.Resolvable [] project a := by
  obtain ⟨c', hc'⟩ := ha
  intro x hleads
  refine hleads.closed (S := fun x => ∃ c, w.Known [] project x c) ?_ ⟨c', known_nil.2 hc'⟩
  rintro y z - ⟨c, hc, hz⟩
  obtain ⟨p, hp, he⟩ := exists_project_of_commit?.1 (known_nil.1 hc)
  obtain ⟨c₁, hc₁⟩ := Option.isSome_iff_exists.1 (hclosed _ hp _ he z hz)
  exact ⟨c₁, known_nil.2 (exists_project_of_commit?.2 ⟨p, hp, (Table.get?_eq_some_iff ..).1 hc₁⟩)⟩

theorem FirstCommon.common (hdefinite : w.Definite drafts project)
    (h : w.FirstCommon drafts project a b c) : w.Common drafts project a b c :=
  ⟨h.kind, h.leads hdefinite⟩

/-! ### What is found -/

/-- Searching a merge base finds the first common ancestor, and none only if there is none. -/
theorem yields_mergeBase?_first (hdefinite : w.Definite (ds project) project)
    (hf : h.Faithful w ds) {base : Option CommitId}
    (hy : w.Yields (mergeBase? project a b) h base h') :
    (∃ c, base = some c ∧ w.FirstCommon (ds project) project a b c) ∨
      base = none ∧ ∀ c, ¬ w.Common (ds project) project a b c := by
  simp only [mergeBase?, yields_bind, yields_pure] at hy
  obtain ⟨t, h₁, hbehind, t', _, hwalk, rfl, rfl⟩ := hy
  obtain ⟨hf₁, hend⟩ := yields_walkFrom (I := fun h => h.Faithful w ds)
    (P := fun _ v => v = .enter) (Q := w.ParentsAre (ds project) project)
    (fun c h v h' hI hv => by
      obtain ⟨rfl, rfl⟩ := yields_pure.1 hv
      exact ⟨hI, rfl⟩)
    (fun c h ps h' hI hps => yields_parents hI hps) hf hbehind
  have hinv := (hend.resolve_left (by rintro ⟨x, _, hstop, _⟩; cases hstop)).2
  have hmem : ∀ x, t.entered.contains x = true ↔ w.Leads (ds project) project a x := by
    intro x
    rw [List.contains_iff_mem, mem_entered_iff_leads hdefinite hinv]
    simp
  rcases (yields_walkFrom_nearest hdefinite hf₁ hwalk).2 with ⟨x, hfound, hnearest⟩ | ⟨hnone, hall⟩
  · refine .inl ⟨x, hfound, ?_⟩
    have hkind : (fun x => t.entered.contains x = true) = w.Leads (ds project) project a :=
      funext fun x => propext (hmem x)
    rw [hkind] at hnearest
    exact hnearest
  · refine .inr ⟨hnone, fun c hc => ?_⟩
    have htest := hall c hc.2
    rw [(hmem c).2 hc.1] at htest
    cases htest

/-- Searching a merge base succeeds where everything is known that the commits lead to. -/
theorem ends_mergeBase? (ha : h.Ample w ds) (hheld : h.HoldsDrafts)
    (hknown : w.Resolvable (ds project) project a) (hknown' : w.Resolvable (ds project) project b) :
    w.Ends (mergeBase? project a b) h (fun _ h' => h'.Ready w ds) (fun _ => False) := by
  refine (ends_walkFrom_of_known (fun _ => .enter) (fun _ henter => by cases henter) ?_
    ⟨ha, hheld⟩).bind fun t h₁ hr₁ => ?_
  · intro s hs
    rw [List.mem_singleton.1 hs]
    exact hknown
  · refine (ends_walkFrom_of_known (fun c => if t.entered.contains c then .stop else .enter)
      (fun c hpass => ?_) ?_ hr₁).bind fun t' h₂ hr₂ => ends_pure hr₂
    · split at hpass <;> cases hpass
    · intro s hs
      rw [List.mem_singleton.1 hs]
      exact hknown'

/-- For two commits behind which everything is known, the first common ancestor is found, or there is
none. -/
theorem exists_mergeBase? (ha : h.Ample w ds) (hheld : h.HoldsDrafts)
    (hdefinite : w.Definite (ds project) project)
    (hknown : w.Resolvable (ds project) project a)
    (hknown' : w.Resolvable (ds project) project b) :
    ∃ base h', Program.result w (mergeBase? project a b h) = some (.ok base, h') ∧
      ((∃ c, base = some c ∧ w.FirstCommon (ds project) project a b c) ∨
        base = none ∧ ∀ c, ¬ w.Common (ds project) project a b c) := by
  obtain ⟨r, h', hresult, hr⟩ := (ends_mergeBase? ha hheld hknown hknown').and_yields
    fun base h' hy => yields_mergeBase?_first hdefinite ha.faithful hy
  cases r with
  | error e => exact hr.elim
  | ok base => exact ⟨base, h', hresult, hr.2⟩

/-- **What a merge base is.**  For two commits behind which everything is known, searching a merge
base succeeds, and none is found exactly if there is no common ancestor.  What is found is the common
ancestor that comes first in the generations of the second commit.  So it is a best one exactly if no
other common ancestor leads to that one. -/
theorem mergeBase_best_iff (ha : h.Ample w ds) (hheld : h.HoldsDrafts)
    (hdefinite : w.Definite (ds project) project)
    (hknown : w.Resolvable (ds project) project a)
    (hknown' : w.Resolvable (ds project) project b) :
    ∃ base h', Program.result w (mergeBase? project a b h) = some (.ok base, h') ∧
      (base = none ↔ ¬ ∃ c, w.Common (ds project) project a b c) ∧
      (∀ c, base = some c ↔ w.FirstCommon (ds project) project a b c) ∧
      ((∀ c, base = some c → w.BestCommon (ds project) project a b c) ↔
        ∀ c d, w.FirstCommon (ds project) project a b c → w.Common (ds project) project a b d →
          d ≠ c → ¬ w.Leads (ds project) project d c) := by
  obtain ⟨base, h', hresult, hfound⟩ := exists_mergeBase? ha hheld hdefinite hknown hknown'
  have hfirst : ∀ c, base = some c ↔ w.FirstCommon (ds project) project a b c := by
    intro c
    rcases hfound with ⟨c', rfl, hc'⟩ | ⟨rfl, hnone⟩
    · constructor
      · intro heq
        cases heq
        exact hc'
      · intro hc
        rw [hc'.unique hc]
    · exact ⟨fun heq => (nomatch heq), fun hc => absurd (hc.common hdefinite) (hnone c)⟩
  refine ⟨base, h', hresult, ?_, hfirst, ?_⟩
  · rcases hfound with ⟨c', rfl, hc'⟩ | ⟨rfl, hnone⟩
    · exact ⟨fun heq => (nomatch heq), fun hnone => absurd ⟨c', hc'.common hdefinite⟩ hnone⟩
    · exact ⟨fun _ hsome => hnone _ hsome.choose_spec, fun _ => rfl⟩
  · constructor
    · exact fun hbest c d hc => (hbest c ((hfirst c).2 hc)).2 d
    · intro hnone c hc
      exact ⟨((hfirst c).1 hc).common hdefinite, fun d => hnone c d ((hfirst c).1 hc)⟩

/-- The merge base of the siblings is the first commit, which is the best that they have in common. -/
theorem mergeBase_of_siblings :
    let w := Sample.siblings.world
    let h := History.start w.reach
    h.Ample w (fun _ => []) ∧ h.HoldsDrafts ∧ w.Definite [] "p" ∧
      w.Resolvable [] "p" Sample.x ∧ w.Resolvable [] "p" Sample.y ∧
      (∃ h', Program.result w (mergeBase? "p" Sample.x Sample.y h) =
        some (.ok (some Sample.root), h')) ∧
      (∀ c, w.FirstCommon [] "p" Sample.x Sample.y c ↔ c = Sample.root) ∧
      w.BestCommon [] "p" Sample.x Sample.y Sample.root := by
  intro w h
  have hfresh : h.Faithful w fun _ => [] := faithful_start w _
  have hample : h.Ample w fun _ => [] := History.ample_of_reach hfresh (Nat.le_refl _)
  have hclosed : ∀ e ∈ w.projects.entries, ∀ e' ∈ e.2.commits.entries, ∀ parent ∈ e'.2.parents,
      (e.2.commits.get? parent).isSome := by decide +kernel
  have hx : w.Resolvable [] "p" Sample.x :=
    resolvable_of_closed hclosed (Option.isSome_iff_exists.1 (by decide +kernel))
  have hy : w.Resolvable [] "p" Sample.y :=
    resolvable_of_closed hclosed (Option.isSome_iff_exists.1 (by decide +kernel))
  obtain ⟨base, h', hresult, -, hfirst, hbest⟩ := mergeBase_best_iff hample
    (holdsDrafts_of_fresh hfresh) (definite_nil w "p") hx hy
  have hbase : (Program.result w (mergeBase? "p" Sample.x Sample.y h)).map (·.1) =
      some (.ok (some Sample.root)) := by decide +kernel
  obtain rfl : base = some Sample.root := by
    rw [hresult] at hbase
    cases hbase
    rfl
  -- Nothing but the first commit is behind both.
  have honly : ∀ d, w.Common [] "p" Sample.x Sample.y d → d = Sample.root := by
    rintro d ⟨hxd, hyd⟩
    have hcommit : w.commit? "p" Sample.x = some (Sample.second Sample.root "x" Sample.x) ∧
        w.commit? "p" Sample.y = some (Sample.second Sample.root "y" Sample.y) := by
      decide +kernel
    rcases Sample.eq_or_eq_root_of_leads hcommit.1 hxd with rfl | rfl
    · exact absurd (Sample.eq_or_eq_root_of_leads hcommit.2 hyd) (by decide)
    · rfl
  have hroot : ∀ c, w.FirstCommon [] "p" Sample.x Sample.y c ↔ c = Sample.root := by
    intro c
    rw [← hfirst c, Option.some.injEq, eq_comm]
  refine ⟨hample, holdsDrafts_of_fresh hfresh, definite_nil w "p", hx, hy, ⟨h', hresult⟩, hroot,
    hbest.2 (fun c d hc hd hne => ?_) Sample.root rfl⟩
  exact absurd ((honly d hd).trans ((hroot c).1 hc).symm) hne

/-! ### Where no commit is in two generations -/

/-- What a commit of a generation leads to is in that generation or in a later one, and only the
commit itself may be reached in no steps. -/
theorem exists_generation_of_leads (hdefinite : w.Definite drafts project) {n : Nat}
    (hc : c ∈ w.generation drafts project b n) (hleads : w.Leads drafts project c d) :
    d = c ∨ ∃ m, n < m ∧ d ∈ w.generation drafts project b m := by
  induction hleads with
  | refl => exact .inl rfl
  | @tail y z _ hparent ih =>
    refine .inr ?_
    have hz := (mem_parentsOf hdefinite).2 hparent
    rcases ih with rfl | ⟨m, hm, hy⟩
    · exact ⟨n + 1, Nat.lt_succ_self n, List.mem_flatMap.2 ⟨_, hc, hz⟩⟩
    · exact ⟨m + 1, Nat.lt_succ_of_lt hm, List.mem_flatMap.2 ⟨y, hy, hz⟩⟩

/-- Where no commit is in two generations of `b`, the first common ancestor is a best one. -/
theorem FirstCommon.best_of_level (hfirst : w.FirstCommon drafts project a b c)
    (hdefinite : w.Definite drafts project)
    (hlevel : ∀ m n x, x ∈ w.generation drafts project b m → x ∈ w.generation drafts project b n →
      m = n) : w.BestCommon drafts project a b c := by
  refine ⟨hfirst.common hdefinite, fun d hd hne hleads => ?_⟩
  obtain ⟨n, pre, post, heq, -, hearlier, -⟩ := hfirst
  obtain ⟨m, hm⟩ := (exists_generation_iff hdefinite).2 hd.2
  rcases exists_generation_of_leads hdefinite hm hleads with rfl | ⟨k, hk, hc⟩
  · exact hne rfl
  · have hkn : k = n := hlevel k n c hc (by simp [heq])
    exact hearlier m (hkn ▸ hk) d hm hd.1

/-- **Merge bases are best ones** where no commit is in two generations of the second commit: what is
found then is a best common ancestor, and nothing is found only if there is none. -/
theorem mergeBase?_best_of_level (ha : h.Ample w ds) (hheld : h.HoldsDrafts)
    (hdefinite : w.Definite (ds project) project)
    (hknown : w.Resolvable (ds project) project a)
    (hknown' : w.Resolvable (ds project) project b)
    (hlevel : ∀ m n x, x ∈ w.generation (ds project) project b m →
      x ∈ w.generation (ds project) project b n → m = n) :
    ∃ base h', Program.result w (mergeBase? project a b h) = some (.ok base, h') ∧
      ((∃ c, base = some c ∧ w.BestCommon (ds project) project a b c) ∨
        base = none ∧ ∀ c, ¬ w.Common (ds project) project a b c) := by
  obtain ⟨base, h', hresult, hfound⟩ := exists_mergeBase? ha hheld hdefinite hknown hknown'
  refine ⟨base, h', hresult, hfound.imp_left ?_⟩
  rintro ⟨c, hc, hfirst⟩
  exact ⟨c, hc, hfirst.best_of_level hdefinite hlevel⟩

/-! ### A base behind the best one -/

end World

namespace Sample

/-- The name of a merge of the first commit and `x`. -/
def bypass : CommitId := ⟨0xd6a33416a3e841ce16d97921aba4353f0d14c296150a340be0ad9b7eb7fc3e2f#256⟩

def bypassing : Commit := { second root "m" bypass with parents := [root, x] }

/-- One commit is on top of `x`, and another one merges `x` into the first commit. -/
def bypassed : World :=
  { World.empty with
    projects := Table.ofList [("p", project [second root "x" x, second x "u" upper, bypassing])] }

theorem bypassed_contentAddressed : bypassed.ContentAddressed := by
  have hnamed : ∀ c ∈ bypassing :: commits, c.toDraft.id = c.id :=
    List.forall_mem_cons.2 ⟨by decide +kernel, named⟩
  exact World.contentAddressed_of_named hnamed (by decide +kernel)

end Sample

namespace World

open History

/-- The merge base is the first commit, although both sides have the commit `x` on top of it. -/
theorem mergeBase_behind_best :
    let w := Sample.bypassed
    w.Acyclic ∧ w.ContentAddressed ∧
      w.Resolvable [] "p" Sample.upper ∧ w.Resolvable [] "p" Sample.bypass ∧
      (∃ h', Program.result w (mergeBase? "p" Sample.upper Sample.bypass (History.start w.reach)) =
        some (.ok (some Sample.root), h')) ∧
      w.Common [] "p" Sample.upper Sample.bypass Sample.x ∧
      w.Leads [] "p" Sample.x Sample.root ∧
      ¬ w.BestCommon [] "p" Sample.upper Sample.bypass Sample.root := by
  intro w
  have hclosed : ∀ e ∈ w.projects.entries, ∀ e' ∈ e.2.commits.entries, ∀ parent ∈ e'.2.parents,
      (e.2.commits.get? parent).isSome := by decide +kernel
  have hx : w.commit? "p" Sample.x = some (Sample.second Sample.root "x" Sample.x) := by
    decide +kernel
  have hupper : w.commit? "p" Sample.upper = some (Sample.second Sample.x "u" Sample.upper) := by
    decide +kernel
  have hbypass : w.commit? "p" Sample.bypass = some Sample.bypassing := by decide +kernel
  have hcommon : w.Common [] "p" Sample.upper Sample.bypass Sample.x :=
    ⟨Parent.leads ⟨_, known_nil.2 hupper, by simp [Sample.second]⟩,
      Parent.leads ⟨_, known_nil.2 hbypass, by simp [Sample.bypassing]⟩⟩
  have hleads : w.Leads [] "p" Sample.x Sample.root :=
    Parent.leads ⟨_, known_nil.2 hx, by simp [Sample.second]⟩
  refine ⟨acyclic_of_rank (fun id => if id = Sample.bypass then 3 else Sample.rank id)
      (by decide +kernel), Sample.bypassed_contentAddressed, resolvable_of_closed hclosed ⟨_, hupper⟩,
    resolvable_of_closed hclosed ⟨_, hbypass⟩, ?_, hcommon, hleads, fun hbest => ?_⟩
  · have hfound : (Program.result w (mergeBase? "p" Sample.upper Sample.bypass
        (History.start w.reach))).map (·.1) = some (.ok (some Sample.root)) := by decide +kernel
    obtain ⟨⟨r, h'⟩, hresult, rfl⟩ := Option.map_eq_some_iff.1 hfound
    exact ⟨h', hresult⟩
  · exact hbest.2 Sample.x hcommon (by decide) hleads

end World
end Landing
