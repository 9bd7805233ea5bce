import Landing.Proofs.History.MergeBase
import Landing.Proofs.History.Pruning
import Mathlib.Data.List.Dedup

/-!
# When a listing with parents first comes to an end

The descent behind a listing puts a commit aside until its parents are listed, and it
may meet the commit again in the meantime.  Everything that is met then is behind the
commit (`History.Nested`).  So where the members do not lead back to themselves, no
commit is put aside twice; each takes one unit of the budget, and the descent ends
(`World.parentsFirst_sorts`).

Where a member leads back to itself through members there is no order to be found,
and the descent goes on for ever (`World.result_parentsFirst_of_knotted`).
-/

namespace Landing

open Relation World

namespace History

variable {w : World} {h h' : History} {project : ProjectName}
variable {members listed ids ps : List CommitId} {stack rest : List Frame} {f : Frame}
variable {R : CommitId → CommitId → Prop} {c x y : CommitId}

/-- Some member leads back to itself through members. -/
def Knotted (members : List CommitId) (R : CommitId → CommitId → Prop) : Prop :=
  ∃ c ∈ members, TransGen (fun x y => R x y ∧ y ∈ members) c c

/-- Where nothing leads back to itself there are no knots. -/
theorem not_knotted_of_acyclic (hacyclic : ∀ c, ¬ TransGen R c c) : ¬ Knotted members R := by
  rintro ⟨c, _, hcircle⟩
  exact hacyclic c (TransGen.mono (fun _ _ hlink => hlink.1) _ _ hcircle)

/-- A single commit is knotted if it is its own parent. -/
theorem knotted_singleton : Knotted [c] R ↔ R c c := by
  constructor
  · rintro ⟨d, hd, hcircle⟩
    obtain rfl := List.mem_singleton.1 hd
    obtain ⟨y, ⟨hlink, hy⟩, _⟩ := TransGen.head'_iff.1 hcircle
    exact List.mem_singleton.1 hy ▸ hlink
  · exact fun hself => ⟨c, List.mem_singleton_self c, .single ⟨hself, List.mem_singleton_self c⟩⟩

/-! ### Commits put aside -/

/-- The commits that wait to be placed, top first. -/
def aside : List Frame → List CommitId
  | [] => []
  | .visit _ :: rest => aside rest
  | .place c :: rest => c :: aside rest

/-- Whatever is above a commit put aside is behind that commit. -/
def Nested (R : CommitId → CommitId → Prop) : List Frame → Prop
  | [] => True
  | f :: rest => (∀ c ∈ aside rest, TransGen R c f.commit) ∧ Nested R rest

theorem aside_visits (visits : List CommitId) (stack : List Frame) :
    aside (visits.map .visit ++ stack) = aside stack := by
  induction visits with
  | nil => rfl
  | cons v visits ih => exact ih

/-- What is put aside waits on the stack. -/
theorem mem_commits_of_mem_aside (hc : c ∈ aside stack) : c ∈ stack.map Frame.commit := by
  induction stack with
  | nil => cases hc
  | cons f rest ih =>
    cases f with
    | visit v => exact List.mem_cons_of_mem _ (ih hc)
    | place v =>
      rcases List.mem_cons.1 hc with rfl | hrest
      · exact List.mem_cons_self
      · exact List.mem_cons_of_mem _ (ih hrest)

/-- At the beginning nothing is put aside. -/
theorem nested_visits (visits : List CommitId) :
    Nested R (visits.map .visit) ∧ aside (visits.map .visit) = [] := by
  have haside : ∀ visits : List CommitId, aside (visits.map .visit) = [] := by
    intro visits
    have hall := aside_visits visits []
    rwa [List.append_nil] at hall
  refine ⟨?_, haside visits⟩
  induction visits with
  | nil => trivial
  | cons v visits ih =>
    refine ⟨fun c hc => ?_, ih⟩
    rw [haside] at hc
    cases hc

/-- What is put on top is behind all that is put aside. -/
theorem nested_append_visits {visits : List CommitId} (hstack : Nested R stack)
    (hvisits : ∀ v ∈ visits, ∀ c ∈ aside stack, TransGen R c v) :
    Nested R (visits.map .visit ++ stack) := by
  induction visits with
  | nil => exact hstack
  | cons v visits ih =>
    refine ⟨fun c hc => ?_, ih fun v' hv' => hvisits v' (by simp [hv'])⟩
    exact hvisits v (by simp) c (aside_visits visits stack ▸ hc)

/-- A visit puts its commit aside and the parents on top, which are behind it. -/
theorem Nested.descend (h : Nested (fun x y => R x y ∧ y ∈ members) (.visit c :: rest))
    (hps : ∀ y ∈ ps, R c y) :
    Nested (fun x y => R x y ∧ y ∈ members) (History.descend members listed c ps ++ rest) := by
  rw [History.descend, List.append_assoc]
  refine nested_append_visits ⟨h.1, h.2⟩ fun v hv c' hc' => ?_
  have hlink : R c v ∧ v ∈ members := by
    simp only [List.mem_reverse, List.mem_filter, Bool.and_eq_true, List.contains_iff_mem] at hv
    exact ⟨hps v hv.1, hv.2.1⟩
  rcases List.mem_cons.1 hc' with rfl | hrest
  · exact .single hlink
  · exact (h.1 c' hrest).tail hlink

theorem aside_descend : aside (descend members listed c ps ++ rest) = c :: aside rest := by
  rw [descend, List.append_assoc, aside_visits]
  rfl

/-- Handling the frames that need no reading lists what was put aside, and changes nothing else. -/
theorem Nested.settle (h : Nested R stack) (hnodup : (listed ++ aside stack).Nodup) :
    Nested R (History.settle stack listed).1 ∧
      (History.settle stack listed).2 ++ aside (History.settle stack listed).1 =
        listed ++ aside stack ∧
      ∀ c rest, (History.settle stack listed).1 = .visit c :: rest →
        c ∉ (History.settle stack listed).2 := by
  induction stack generalizing listed with
  | nil => exact ⟨h, rfl, fun c rest heq => by cases heq⟩
  | cons f rest ih =>
    cases f with
    | place c =>
      have hnew : c ∉ listed := fun hold =>
        (List.disjoint_of_nodup_append hnodup) hold List.mem_cons_self
      have hlist : list listed c = listed ++ [c] := by
        rw [list, if_neg]
        simpa using hnew
      have hsame : list listed c ++ aside rest = listed ++ aside (.place c :: rest) := by
        rw [hlist, List.append_assoc]
        rfl
      rw [History.settle, ← hsame]
      exact ih h.2 (hsame ▸ hnodup)
    | visit c =>
      rw [History.settle]
      split
      · exact ih h.2 hnodup
      · next hnew =>
        refine ⟨h, rfl, fun c' rest' heq => ?_⟩
        cases heq
        simpa using hnew

/-- The commits that are listed or put aside. -/
def taken (stack : List Frame) (listed : List CommitId) : List CommitId := listed ++ aside stack

/-- Where there are no knots, a commit that is visited is neither listed nor put aside.  So after the
visit there is one member less to be dealt with. -/
theorem Descent.next (hd : Descent members R stack listed) (hfree : ¬ Knotted members R)
    (hnested : Nested (fun x y => R x y ∧ y ∈ members) stack) (hnodup : (taken stack listed).Nodup) :
    (∃ ids, History.settle stack listed = ([], ids)) ∨
      ∃ c rest listed', History.settle stack listed = (.visit c :: rest, listed') ∧
        Descent members R (.visit c :: rest) listed' ∧
        Nested (fun x y => R x y ∧ y ∈ members) (.visit c :: rest) ∧
        (taken (.place c :: rest) listed').Nodup ∧
        (taken (.place c :: rest) listed').length = (taken stack listed).length + 1 ∧
        (taken (.place c :: rest) listed').length ≤ members.dedup.length := by
  have hsettle := hnested.settle hnodup
  rcases hd.settle with ⟨ids, hnone, _⟩ | ⟨c, rest, listed', hvisit, hnext⟩
  · exact .inl ⟨ids, hnone⟩
  rw [hvisit] at hsettle
  obtain ⟨hnested', hsame, hnew⟩ := hsettle
  have hmember : c ∈ members := hnext.within c (.inr (by simp [Frame.commit]))
  have hfresh : c ∉ listed' ++ aside rest := by
    rw [List.mem_append]
    rintro (hlisted | haside)
    · exact hnew c rest rfl hlisted
    · exact hfree ⟨c, hmember, hnested'.1 c haside⟩
  have hrest : (listed' ++ aside rest).Nodup := by
    rw [taken, ← hsame] at hnodup
    exact hnodup
  have honce : (listed' ++ c :: aside rest).Nodup :=
    List.nodup_middle.2 (List.nodup_cons.2 ⟨hfresh, hrest⟩)
  refine .inr ⟨c, rest, listed', hvisit, hnext, hnested', honce, ?_, ?_⟩
  · rw [taken, taken, ← hsame]
    simp only [List.length_append, aside, List.length_cons]
    omega
  · refine (honce.subperm fun x hx => List.mem_dedup.2 ?_).length_le
    rcases List.mem_append.1 hx with hlisted | hx
    · exact hnext.within x (.inl hlisted)
    · rcases List.mem_cons.1 hx with rfl | haside
      · exact hmember
      · exact hnext.within x (.inr (List.mem_cons_of_mem _ (mem_commits_of_mem_aside haside)))

/-! ### Orders and knots -/

/-- In a list with parents first, parents among the members come earlier. -/
theorem InOrder.idxOf_lt (h : InOrder members R ids) (hx : x ∈ ids) (hy : y ∈ members)
    (hxy : R x y) : ids.idxOf y < ids.idxOf x := by
  obtain ⟨earlier, later, heq, hfirst⟩ := List.eq_append_cons_of_mem hx
  have hearlier : y ∈ earlier := h earlier x later heq y hy hxy
  rw [heq, List.idxOf_append_of_mem hearlier, List.idxOf_append_of_notMem hfirst, List.idxOf_cons_self]
  have := List.idxOf_lt_length_of_mem hearlier
  omega

/-- Where some member leads back to itself, the members cannot be listed with parents first. -/
theorem InOrder.not_knotted (h : InOrder members R ids) (hall : ∀ c ∈ members, c ∈ ids) :
    ¬ Knotted members R := by
  rintro ⟨c, hc, hcircle⟩
  have hless : ∀ x, TransGen (fun x y => R x y ∧ y ∈ members) c x →
      x ∈ members ∧ ids.idxOf x < ids.idxOf c := by
    intro x hway
    induction hway with
    | single hlink => exact ⟨hlink.2, h.idxOf_lt (hall c hc) hlink.2 hlink.1⟩
    | tail _ hlink ih =>
      have hstep := h.idxOf_lt (hall _ ih.1) hlink.2 hlink.1
      exact ⟨hlink.2, hstep.trans ih.2⟩
  exact Nat.lt_irrefl _ (hless c hcircle).2

end History

/-! ### The descent -/

namespace World

open History

variable {w : World} {h h' h₀ : History} {project : ProjectName} {id : CommitId}
variable {members commits : List CommitId}

/-- Reading the parents of a commit fails only if its name stands for nothing. -/
theorem resolve_of_parents_refused {e : StoreError}
    (hcome : Program.MayCome (w.Shows fun _ => True) (parents project id h) (.error e, h')) :
    h.resolve w project id = none := by
  rcases Study.mayCome_bind_cases (x := History.commit project id) hcome with
    ⟨e', hfirst⟩ | ⟨c, h₁, _, hsecond⟩
  · cases hknown : (h.view project).commits.get? id with
    | some c =>
      rw [commit_of_known hknown] at hfirst
      cases hfirst
    | none =>
      rw [commit_of_unknown hknown] at hfirst
      obtain ⟨r, hread, hend⟩ := hfirst
      cases hend
      rw [History.resolve, ProjectView.resolve_of_unknown hknown]
      cases hstored : w.commit? project id with
      | none => rfl
      | some c =>
        obtain ⟨p, hp, hget⟩ := Option.bind_eq_some_iff.1 hstored
        change w.readCommit project id = _ at hread
        simp [readCommit, project?, hp, hget] at hread
  · cases hsecond

/-- If a descent comes to an end, every member is dealt with, or one of them stands for nothing. -/
theorem mayCome_arrange (hf : h₀.Follows w h) {budget : Nat} {stack : List Frame}
    {listed : List CommitId} (hd : Descent members (h₀.Link w project) stack listed)
    {r : Except StoreError (List CommitId)}
    (hcome : Program.MayCome (w.Shows fun _ => True) (arrange project members budget stack listed h)
      (r, h')) :
    (∃ ids, r = .ok ids ∧ Descent members (h₀.Link w project) [] ids) ∨
      ∃ c ∈ members, h₀.resolve w project c = none := by
  induction budget generalizing h stack listed with
  | zero =>
    rw [arrange] at hcome
    rcases hd.settle with ⟨ids, hnone, hend⟩ | ⟨c, rest, listed', hvisit, _⟩
    · rw [hnone] at hcome
      cases hcome
      exact .inl ⟨ids, rfl, hend⟩
    · rw [hvisit] at hcome
      exact hcome.elim
  | succ budget ih =>
    rw [arrange] at hcome
    rcases hd.settle with ⟨ids, hnone, hend⟩ | ⟨c, rest, listed', hvisit, hnext⟩
    · rw [hnone] at hcome
      cases hcome
      exact .inl ⟨ids, rfl, hend⟩
    · rw [hvisit] at hcome
      rcases Study.mayCome_bind_cases hcome with ⟨e, hfirst⟩ | ⟨ps, h₁, hps, hrest⟩
      · refine .inr ⟨c, hnext.within c (.inr (by simp [Frame.commit])), ?_⟩
        rw [← hf.resolve]
        exact resolve_of_parents_refused hfirst
      · obtain ⟨hf₁, _, hresolve⟩ := yields_parents_resolve hps
        have hparents : h₀.ParentsAre w project c ps := by
          rw [hf.resolve] at hresolve
          exact hresolve
        exact ih (hf.trans hf₁) (hnext.descend fun y hy => hparents.mem_iff.2 hy) hrest

/-- If a listing comes to an end, the commits stand in it once and with parents first, or one of them
stands for nothing. -/
theorem mayCome_parentsFirst {r : Except StoreError (List CommitId)}
    (hcome : Program.MayCome (w.Shows fun _ => True) (parentsFirst project commits h) (r, h')) :
    (∃ ids, r = .ok ids ∧ ids.Nodup ∧ (∀ id, id ∈ ids ↔ id ∈ commits) ∧
      InOrder commits (h.Link w project) ids) ∨ ∃ c ∈ commits, h.resolve w project c = none := by
  change Program.MayCome _ (arrange project commits h.budget (commits.map .visit) [] h) _ at hcome
  refine (mayCome_arrange (.refl h) descent_start hcome).imp_left ?_
  rintro ⟨ids, rfl, hend⟩
  exact ⟨ids, rfl, hend.ended⟩

/-- Where no member leads back to itself, a descent comes to an end: every member is put aside at most
once. -/
theorem halts_arrange (hf : h₀.Follows w h) (hfree : ¬ Knotted members (h₀.Link w project))
    {budget : Nat} {stack : List Frame} {listed : List CommitId}
    (hd : Descent members (h₀.Link w project) stack listed)
    (hnested : Nested (fun x y => h₀.Link w project x y ∧ y ∈ members) stack)
    (hnodup : (taken stack listed).Nodup)
    (hbudget : members.dedup.length ≤ (taken stack listed).length + budget) :
    w.Halts (arrange project members budget stack listed) h := by
  induction budget generalizing h stack listed with
  | zero =>
    rw [arrange]
    rcases hd.next hfree hnested hnodup with ⟨ids, hnone⟩ | ⟨c, rest, listed', _, _, _, _, hlen, hle⟩
    · rw [hnone]
      exact ends_pure trivial
    · omega
  | succ budget ih =>
    rw [arrange]
    rcases hd.next hfree hnested hnodup with
      ⟨ids, hnone⟩ | ⟨c, rest, listed', hvisit, hnext, hnested', honce, hlen, _⟩
    · rw [hnone]
      exact ends_pure trivial
    rw [hvisit]
    refine ends_parents_resolve.bind fun ps h₁ hps => ?_
    obtain ⟨hf₁, c', hc', heq⟩ := hps
    have hparents : h₀.ParentsAre w project c ps := ⟨c', (hf.resolve project c).symm.trans hc', heq⟩
    have htaken : taken (descend members listed' c ps ++ rest) listed' =
        taken (.place c :: rest) listed' := by
      rw [taken, aside_descend]
      rfl
    refine ih (hf.trans hf₁) (hnext.descend fun y hy => hparents.mem_iff.2 hy)
      (hnested'.descend fun y hy => hparents.mem_iff.1 hy) ?_ ?_
    · rwa [htaken]
    · rw [htaken, hlen]
      omega

/-- Where no listed commit leads back to itself, a listing comes to an end. -/
theorem halts_parentsFirst (hfree : ¬ Knotted commits (h.Link w project))
    (hbudget : commits.dedup.length ≤ h.budget) : w.Halts (parentsFirst project commits) h := by
  obtain ⟨hnested, hnone⟩ :=
    nested_visits (R := fun x y => h.Link w project x y ∧ y ∈ commits) commits
  have htaken : taken (commits.map .visit) [] = [] := hnone
  refine ends_get_bind (halts_arrange (.refl h) hfree descent_start hnested ?_ ?_)
  · rw [htaken]
    exact List.nodup_nil
  · rw [htaken]
    simpa using hbudget

/-- Where a listed commit leads back to itself, a listing of commits that exist does not come to an
end, whatever the budget. -/
theorem result_parentsFirst_of_knotted (hknotted : Knotted commits (h.Link w project))
    (hresolvable : ∀ c ∈ commits, (h.resolve w project c).isSome) :
    Program.result w (parentsFirst project commits h) = none := by
  cases hresult : Program.result w (parentsFirst project commits h) with
  | none => rfl
  | some outcome =>
    obtain ⟨r, h'⟩ := outcome
    rcases mayCome_parentsFirst (Program.mayCome_of_result (shows_answer fun _ _ => trivial) hresult)
      with ⟨ids, _, _, hmem, horder⟩ | ⟨c, hc, hnone⟩
    · exact absurd hknotted (horder.not_knotted fun c hc => (hmem c).2 hc)
    · have hsome := hresolvable c hc
      rw [hnone] at hsome
      cases hsome

/-- **Parents first is a topological order.**  Where no commit leads back to itself, listing commits
that exist, in any order and with repetitions or without, succeeds.  Every commit is listed once, no
other one is, and every commit stands after its parents among them. -/
theorem parentsFirst_sorts (project : ProjectName) (commits : List CommitId)
    (hacyclic : ∀ c, ¬ TransGen (h.Link w project) c c)
    (hresolvable : ∀ c ∈ commits, (h.resolve w project c).isSome)
    (hbudget : commits.dedup.length ≤ h.budget) :
    ∃ ids h', Program.result w (parentsFirst project commits h) = some (.ok ids, h') ∧
      ids.Nodup ∧ (∀ id, id ∈ ids ↔ id ∈ commits) ∧ InOrder commits (h.Link w project) ids := by
  obtain ⟨r, h', hresult, _⟩ := halts_parentsFirst (not_knotted_of_acyclic hacyclic) hbudget
  rcases mayCome_parentsFirst (Program.mayCome_of_result (shows_answer fun _ _ => trivial) hresult)
    with ⟨ids, rfl, hlisted⟩ | ⟨c, hc, hnone⟩
  · exact ⟨ids, h', hresult, hlisted⟩
  · have hsome := hresolvable c hc
    rw [hnone] at hsome
    cases hsome

/-- The graph of a history that knows nothing is that of the stored commits. -/
theorem link_start (w : World) (budget : Nat) (project : ProjectName) :
    (start budget).Link w project = w.Parent [] project := by
  funext x y
  simp only [Link, ProjectView.Link, World.Parent, known_nil]
  rfl

/-- Commits with an uneven way to the first one, some of them listed twice. -/
theorem parentsFirst_sorts_bypassed :
    let w := Sample.bypassed
    let h := History.start w.reach
    let commits := [Sample.bypass, Sample.upper, Sample.x, Sample.upper, Sample.root]
    (∀ c, ¬ TransGen (h.Link w "p") c c) ∧ (∀ c ∈ commits, (h.resolve w "p" c).isSome) ∧
      commits.dedup.length ≤ h.budget ∧
      ∃ ids h', Program.result w (parentsFirst "p" commits h) = some (.ok ids, h') ∧
        ids.Nodup ∧ (∀ id, id ∈ ids ↔ id ∈ commits) ∧ InOrder commits (h.Link w "p") ids := by
  intro w h commits
  have hacyclic : ∀ c, ¬ TransGen (h.Link w "p") c c := by
    intro c
    rw [link_start]
    exact acyclic_of_rank (fun id => if id = Sample.bypass then 3 else Sample.rank id)
      (by decide +kernel) "p" c
  have hresolvable : ∀ c ∈ commits, (h.resolve w "p" c).isSome := by decide +kernel
  have hbudget : commits.dedup.length ≤ h.budget := by decide +kernel
  exact ⟨hacyclic, hresolvable, hbudget, parentsFirst_sorts "p" commits hacyclic hresolvable hbudget⟩

end World
end Landing
