import Landing.Proofs.History.Walk
import Landing.Proofs.Program.Ending

/-!
# Walks come to an end

A walk visits no commit twice, and all it goes on from are commits of its project.  So
it cannot use up a budget that is larger than the number of these, stored and drafted
ones together, whether or not the history has circles (`World.ends_walk`).

A question about ancestry that fails has come upon a commit that is missing, or its
project is.  The lemmas of this file say where the missing commit is: behind a commit
that was asked about, or behind a branch (`World.Stocked`).  What the answers are is
said in `Landing.Proofs.History.Walk`.
-/

namespace Landing

variable {w : World} {ds : ProjectName → List Draft} {h : History}
variable {project : ProjectName} {id : CommitId}

/-- The history is faithful, and its budget is larger than the number of commits of any project. -/
structure History.Ample (w : World) (ds : ProjectName → List Draft) (h : History) : Prop where
  faithful : h.Faithful w ds
  room : ∀ project, w.commitCount project + (ds project).length < h.budget

/-- The drafts of a history are among the commits that it knows. -/
def History.HoldsDrafts (h : History) : Prop :=
  ∀ project, ∀ d ∈ (h.view project).created, ((h.view project).commits.get? d.id).isSome

/-- An ample history that knows its drafts. -/
structure History.Ready (w : World) (ds : ProjectName → List Draft) (h : History) : Prop
    extends History.Ample w ds h where
  held : h.HoldsDrafts

namespace History

theorem holdsDrafts_of_fresh (hf : h.Faithful w fun _ => []) : h.HoldsDrafts := by
  intro project d hd
  rw [hf.drafts project] at hd
  cases hd

theorem Ample.ready (ha : h.Ample w fun _ => []) : h.Ready w fun _ => [] :=
  ⟨ha, holdsDrafts_of_fresh ha.faithful⟩

/-- Replacing a view by one that knows its drafts. -/
theorem HoldsDrafts.setView (hheld : h.HoldsDrafts) {v : ProjectView}
    (hv : ∀ d ∈ v.created, (v.commits.get? d.id).isSome) : (h.setView project v).HoldsDrafts := by
  intro q d hd
  rw [view_setView] at hd ⊢
  split at hd
  · next hq =>
    rw [if_pos hq]
    exact hv d hd
  · next hq =>
    rw [if_neg hq]
    exact hheld q d hd

theorem HoldsDrafts.remember {c : Commit} (hheld : h.HoldsDrafts) :
    (h.remember project id c).HoldsDrafts := by
  refine hheld.setView fun d hd => ?_
  rw [Table.get?_insert]
  split
  · rfl
  · exact hheld project d hd

/-- What is drafted is known from then on. -/
theorem HoldsDrafts.draft {d : Draft} (hheld : h.HoldsDrafts) : (h.draft project d).HoldsDrafts := by
  unfold History.draft
  dsimp only
  split
  · exact hheld
  · refine hheld.setView fun d' hd' => ?_
    rw [Table.get?_insert]
    split
    · rfl
    · next hother =>
      rcases List.mem_append.1 hd' with hold | hnew
      · exact hheld project d' hold
      · rw [List.mem_singleton.1 hnew] at hother
        exact absurd Std.ReflCmp.compare_self hother

end History

namespace World

/-- The project exists, and everything that its branches lead to is stored. -/
def Stocked (w : World) (project : ProjectName) : Prop :=
  (w.projects.get? project).isSome ∧ w.AcceptedStored project

/-- The names of the commits of a project, stored or drafted. -/
def names (w : World) (drafts : List Draft) (project : ProjectName) : List CommitId :=
  ((w.projects.get? project).elim [] fun p => p.commits.keys) ++ drafts.map (·.id)

theorem length_names (w : World) (drafts : List Draft) (project : ProjectName) :
    (w.names drafts project).length = w.commitCount project + drafts.length := by
  unfold names commitCount
  cases w.projects.get? project <;> simp [Table.keys, Table.size]

theorem Known.mem_names {drafts : List Draft} {c : Commit} (hc : w.Known drafts project id c) :
    id ∈ w.names drafts project := by
  rcases hc with hstored | ⟨d, hd, rfl, _⟩
  · obtain ⟨p, hp, hget⟩ := Option.bind_eq_some_iff.1 hstored
    refine List.mem_append_left _ ?_
    rw [hp]
    exact List.mem_map_of_mem (f := (·.1)) ((Table.get?_eq_some_iff ..).1 hget)
  · exact List.mem_append_right _ (List.mem_map_of_mem hd)

/-- The reach of a world leaves room for two steps with every change beside the commits of a project. -/
theorem commitCount_add_lt_reach (w : World) (project : ProjectName) :
    w.commitCount project + 2 * w.changes.size < w.reach := by
  -- The commits of one project are among those of all projects.
  have hcount : w.commitCount project ≤
      (w.projects.values.flatMap (·.commits.entries)).length := by
    unfold commitCount
    cases hp : w.projects.get? project with
    | none => exact Nat.zero_le _
    | some p =>
      have hmem : p ∈ w.projects.values := Table.mem_values.2 ⟨project, hp⟩
      rw [List.flatMap_def]
      exact (List.sublist_flatten_of_mem
        (List.mem_map_of_mem (f := fun p : Project => p.commits.entries) hmem)).length_le
  unfold reach
  omega

end World

open World

/-- With a budget that exceeds the reach of the world, a history without drafts is ample. -/
theorem History.ample_of_reach (hf : h.Faithful w fun _ => []) (hbudget : w.reach ≤ h.budget) :
    h.Ample w fun _ => [] := by
  refine ⟨hf, fun project => ?_⟩
  have hcount := w.commitCount_add_lt_reach project
  simp only [List.length_nil]
  omega

theorem History.Ample.of_budget {h' : History} {ds' : ProjectName → List Draft} (ha : h.Ample w ds)
    (hf : h'.Faithful w ds') (hsame : ∀ project, (ds' project).length = (ds project).length)
    (hbudget : h'.budget = h.budget) : h'.Ample w ds' := by
  refine ⟨hf, fun project => ?_⟩
  rw [hsame, hbudget]
  exact ha.room project

namespace World

open History

/-! ### Reading commits and tips -/

/-- Reading a commit fails only if it is neither stored nor known.  It takes nothing away from what is
known. -/
theorem ends_commit : w.Ends (History.commit project id) h
    (fun _ h' => h'.budget = h.budget ∧ (h.HoldsDrafts → h'.HoldsDrafts))
    (fun _ => w.commit? project id = none ∧ (h.view project).commits.get? id = none) := by
  refine ends_get_bind ?_
  split
  · exact ends_pure ⟨rfl, fun hheld => hheld⟩
  · next hunknown =>
    have hask : w.Ends (Reading.ask (.commit project id)) h (fun _ h' => h' = h)
        (fun _ => w.commit? project id = none ∧ (h.view project).commits.get? id = none) := by
      refine ends_ask (fun _ _ => rfl) fun e he => ⟨?_, hunknown⟩
      -- A stored commit would have been given.
      cases hstored : w.commit? project id with
      | none => rfl
      | some c =>
        obtain ⟨p, hp, hget⟩ := Option.bind_eq_some_iff.1 hstored
        simp [answer, readCommit, project?, hp, hget] at he
    refine hask.bind fun c h₁ heq => ?_
    subst heq
    refine Ends.bind (m := fun _ h' => h'.budget = h₁.budget ∧ (h₁.HoldsDrafts → h'.HoldsDrafts))
      (ends_modify ⟨rfl, fun hheld => hheld.remember⟩) ?_
    exact fun _ h' hkept => ends_pure hkept

theorem ends_parents : w.Ends (parents project id) h
    (fun _ h' => h'.budget = h.budget ∧ (h.HoldsDrafts → h'.HoldsDrafts))
    (fun _ => w.commit? project id = none ∧ (h.view project).commits.get? id = none) :=
  ends_commit.bind fun _ _ hkept => ends_pure hkept

/-- Listing the branches fails only if the project does not exist. -/
theorem ends_tips : w.Ends (tips project) h
    (fun _ h' => h'.budget = h.budget ∧ (h.HoldsDrafts → h'.HoldsDrafts))
    (fun _ => (w.projects.get? project).isSome = false) := by
  refine ends_get_bind ?_
  split
  · exact ends_pure ⟨rfl, fun hheld => hheld⟩
  · have hask : w.Ends (Reading.ask (.branches project)) h (fun _ h' => h' = h)
        (fun _ => (w.projects.get? project).isSome = false) := by
      refine ends_ask (fun _ _ => rfl) fun e he => ?_
      cases hp : w.projects.get? project with
      | none => rfl
      | some p => simp [answer, branches, project?, hp, Except.map] at he
    refine hask.bind fun ts h₁ heq => ?_
    subst heq
    refine Ends.bind (m := fun _ h' => h'.budget = h₁.budget ∧ (h₁.HoldsDrafts → h'.HoldsDrafts))
      (ends_modify ⟨rfl, fun hheld => hheld.setView (hheld project)⟩) ?_
    exact fun _ h' hkept => ends_pure hkept

/-- Reading the parents of a commit fails only if it is neither stored nor drafted. -/
theorem Ready.ends_parents (hr : h.Ready w ds) :
    w.Ends (parents project id) h
      (fun ps h' => h'.Ready w ds ∧ w.ParentsAre (ds project) project id ps)
      (fun _ => ∀ c, ¬ w.Known (ds project) project id c) := by
  refine (World.ends_parents.and_yields fun ps h' hy => yields_parents hr.faithful hy).mono ?_ ?_
  · rintro ps h' ⟨⟨hbudget, hkept⟩, hf, hps⟩
    exact ⟨⟨hr.of_budget hf (fun _ => rfl) hbudget, hkept hr.held⟩, hps⟩
  · rintro e ⟨hnone, hunknown⟩ c (hstored | ⟨d, hd, rfl, _⟩)
    · rw [hnone] at hstored
      cases hstored
    · rw [← hr.faithful.drafts project] at hd
      have hsome := hr.held project d hd
      rw [hunknown] at hsome
      cases hsome

/-! ### Walking -/

variable {starts : List CommitId}
variable {P : CommitId → Visit → Prop} {Q : CommitId → List CommitId → Prop}

/-- A walk comes to an end if the budget is larger than the number of commits that are yet to be met:
those it goes on from are among `known`, and it meets none of them twice. -/
theorem ends_walk {I : History → Prop} {visit : CommitId → Reading Visit} {bad : StoreError → Prop}
    {known : List CommitId} (hpass : ∀ c, P c .pass → c ∈ known)
    (hknown : ∀ c ps, Q c ps → c ∈ known)
    (hvisit : ∀ c h, Met starts P Q c → I h → w.Ends (visit c) h (fun v h' => I h' ∧ P c v) bad)
    (hparents : ∀ c h, Met starts P Q c → I h →
      w.Ends (parents project c) h (fun ps h' => I h' ∧ Q c ps) bad)
    {budget : Nat} {t : Trail} {queue : List CommitId} (hI : I h) (hinv : t.Inv starts P Q queue)
    (hnodup : t.seen.Nodup) (hseen : t.seen ⊆ known)
    (hbudget : known.length < t.seen.length + budget) :
    w.Ends (walk project visit budget t queue) h (fun _ h' => I h') bad := by
  induction budget generalizing t queue h with
  | zero =>
    -- There are no more commits to be met than the known ones.
    have hle : t.seen.length ≤ known.length := (hnodup.subperm hseen).length_le
    omega
  | succ budget ih =>
    rw [walk]
    split
    · exact ends_pure hI
    · next next rest hcons =>
      have hnext : t.Inv starts P Q (next :: rest) := hcons ▸ hinv.pending
      have hmet : Met starts P Q next := hnext.met next (.inr (by simp))
      have hnew : next ∉ t.seen := Trail.not_mem_seen_of_pending hcons
      have hnodup' : (t.meet next).seen.Nodup :=
        List.nodup_append.2 ⟨hnodup, List.nodup_singleton _, by
          rintro x hx y hy rfl
          exact hnew (List.mem_singleton.1 hy ▸ hx)⟩
      have hlength : known.length < (t.meet next).seen.length + budget := by
        simp only [Trail.meet, List.length_append, List.length_singleton]
        omega
      have hseen' : next ∈ known → (t.meet next).seen ⊆ known := by
        intro hmem
        exact List.append_subset.2 ⟨hseen, by simpa using hmem⟩
      refine (hvisit next h hmet hI).bind fun v h₁ hv => ?_
      obtain ⟨hI₁, hPv⟩ := hv
      cases v with
      | stop => exact ends_pure hI₁
      | pass => exact ih hI₁ (hnext.pass hPv) hnodup' (hseen' (hpass next hPv)) hlength
      | enter =>
        refine (hparents next h₁ hmet hI₁).bind fun ps h₂ hps => ?_
        obtain ⟨hI₂, hQ⟩ := hps
        exact ih hI₂ (hnext.enter hPv hQ) hnodup' (hseen' (hknown next ps hQ)) hlength

/-- A walk comes to an end, and it fails only at an unknown commit that its starts lead to. -/
theorem ends_walkFrom {visit : CommitId → Reading Visit} {bad : StoreError → Prop}
    (hpass : ∀ c, P c .pass → c ∈ w.names (ds project) project)
    (hvisit : ∀ c h, h.Ready w ds →
      w.Ends (visit c) h (fun v h' => h'.Ready w ds ∧ P c v) bad)
    (hbad : ∀ e, (∃ s ∈ starts, ∃ x, w.Leads (ds project) project s x ∧
      ∀ c, ¬ w.Known (ds project) project x c) → bad e) (hr : h.Ready w ds) :
    w.Ends (walkFrom project starts visit) h (fun _ h' => h'.Ready w ds) bad := by
  refine ends_get_bind ?_
  refine ends_walk (P := P) (Q := w.ParentsAre (ds project) project) hpass ?_
    (fun c h _ hI => hvisit c h hI) ?_ hr Trail.inv_start List.nodup_nil (List.nil_subset _) ?_
  · rintro c ps ⟨c', hc', _⟩
    exact hc'.mem_names
  · intro c h hmet hI
    refine (Ready.ends_parents hI).mono (fun _ _ hps => hps) fun e he => hbad e ?_
    obtain ⟨s, hs, hleads⟩ := leads_of_met hmet
    exact ⟨s, hs, c, hleads, he⟩
  · rw [length_names]
    simpa [Trail.start] using hr.room project

/-- A walk that passes no commit by succeeds where everything is known that its starts lead to. -/
theorem ends_walkFrom_of_known (visit : CommitId → Visit) (hvisit : ∀ c, visit c ≠ .pass)
    (hknown : ∀ s ∈ starts, w.Resolvable (ds project) project s) (hr : h.Ready w ds) :
    w.Ends (walkFrom project starts fun c => pure (visit c)) h (fun _ h' => h'.Ready w ds)
      (fun _ => False) := by
  refine ends_walkFrom (P := fun c v => v = visit c) (fun c hpass => ?_)
    (fun c h hr => ends_pure ⟨hr, rfl⟩) ?_ hr
  · exact absurd hpass.symm (hvisit c)
  · rintro e ⟨s, hs, x, hleads, hx⟩
    obtain ⟨c, hc⟩ := hknown s hs x hleads
    exact hx c hc

/-! ### Questions about ancestry -/

/-- Drafts take no part in what is accepted, so the accepted commits are what the tips lead to. -/
theorem accepted_of_tips {drafts : List Draft} (hsettled : w.Settled drafts project)
    {tips : List (Branch × CommitId)} (htips : w.branches project = .ok tips) {s x : CommitId}
    (hs : s ∈ tips.map (·.2)) (hleads : w.Leads drafts project s x) : w.Accepted project x :=
  hsettled.accepted ((accepted_iff htips).2 ⟨s, hs, .refl⟩) hleads

/-- Listing the branches fails only if the project does not exist. -/
theorem Ready.ends_tips (hr : h.Ready w ds) :
    w.Ends (tips project) h (fun ts h' => h'.Ready w ds ∧ w.branches project = .ok ts)
      (fun _ => ¬ w.Stocked project) := by
  refine (World.ends_tips.and_yields fun ts h' hy => yields_tips hr.faithful hy).mono ?_ ?_
  · rintro ts h' ⟨⟨hbudget, hkept⟩, hf, hts⟩
    exact ⟨⟨hr.of_budget hf (fun _ => rfl) hbudget, hkept hr.held⟩, hts⟩
  · intro e he hstocked
    have hproject := hstocked.1
    rw [he] at hproject
    cases hproject

/-- Listing the accepted commits fails only if one of them is missing, or the project is. -/
theorem ends_acceptedCommits (hsettled : w.Settled (ds project) project) (hr : h.Ready w ds) :
    w.Ends (acceptedCommits project) h (fun _ h' => h'.Ready w ds)
      (fun _ => ¬ w.Stocked project) := by
  have hend : w.Ends (acceptedCommits project) h
      (fun _ h' => (∀ q, w.commitCount q + (ds q).length < h'.budget) ∧ h'.HoldsDrafts)
      (fun _ => ¬ w.Stocked project) := by
    refine ends_get_bind ?_
    split
    · exact ends_pure ⟨hr.room, hr.held⟩
    · refine (Ready.ends_tips hr).bind fun ts h₁ hts => ?_
      obtain ⟨hr₁, hbranches⟩ := hts
      refine (ends_walkFrom (P := fun _ v => v = .enter) (fun c hc => by cases hc)
        (fun c h hr => ends_pure ⟨hr, rfl⟩) ?_ hr₁).bind fun t h₂ hr₂ => ?_
      · rintro e ⟨s, hs, x, hleads, hx⟩ hstocked
        obtain ⟨c, hc⟩ := Option.isSome_iff_exists.1
          (hstocked.2 x (accepted_of_tips hsettled hbranches hs hleads))
        exact hx c (.inl hc)
      · refine Ends.bind (m := fun _ h' =>
          (∀ q, w.commitCount q + (ds q).length < h'.budget) ∧ h'.HoldsDrafts)
          (ends_modify ⟨hr₂.room, hr₂.held.setView (hr₂.held project)⟩) ?_
        exact fun _ h' hh' => ends_pure hh'
  exact (hend.and_yields fun ids h' hy => (yields_acceptedCommits hr.faithful hy).1).mono
    (fun _ h' hh' => ⟨⟨hh'.2, hh'.1.1⟩, hh'.1.2⟩) fun e he => he

theorem ends_isAccepted (hsettled : w.Settled (ds project) project) (hr : h.Ready w ds) :
    w.Ends (isAccepted project id) h (fun _ h' => h'.Ready w ds) (fun _ => ¬ w.Stocked project) :=
  (ends_acceptedCommits hsettled hr).bind fun _ _ hr' => ends_pure hr'

/-- A walk that passes accepted commits by decides at every commit what to do. -/
theorem ends_prune (hsettled : w.Settled (ds project) project) (hr : h.Ready w ds) {c : CommitId} :
    w.Ends (do pure (if ← isAccepted project c then Visit.pass else .enter)) h
      (fun v h' => h'.Ready w ds ∧ w.Prunes project c v) (fun _ => ¬ w.Stocked project) := by
  have hready : w.Ends (do pure (if ← isAccepted project c then Visit.pass else .enter)) h
      (fun _ h' => h'.Ready w ds) (fun _ => ¬ w.Stocked project) :=
    (ends_isAccepted hsettled hr).bind fun _ _ hr' => ends_pure hr'
  exact hready.and_yields fun v h' hy => (yields_prune hr.faithful hsettled hy).2

/-- Listing what is behind some commits and not accepted fails only if something behind them is
missing, or something that is accepted. -/
theorem ends_unacceptedAncestry (starts : List CommitId)
    (hsettled : w.Settled (ds project) project) (hr : h.Ready w ds) :
    w.Ends (unacceptedAncestry project starts) h (fun _ h' => h'.Ready w ds)
      (fun _ => ¬ w.Stocked project ∨ ∃ s ∈ starts, ∃ x, w.Leads (ds project) project s x ∧
        ∀ c, ¬ w.Known (ds project) project x c) := by
  refine (ends_walkFrom (P := w.Prunes project) (fun c hc => ?_) (fun c h hr =>
    (ends_prune hsettled hr).mono (fun _ _ hv => hv) fun e he => .inl he)
    (fun e he => .inr he) hr).bind fun t h' hr' => ends_pure hr'
  -- What is passed by is accepted, and the accepted commits turned out to be stored.
  obtain ⟨hstored, ⟨_, haccepted⟩ | ⟨hpass, _⟩⟩ := hc
  · obtain ⟨c', hc'⟩ := Option.isSome_iff_exists.1 (hstored c haccepted)
    exact Known.mem_names (.inl hc')
  · cases hpass

/-- Asking whether a commit leads to another fails only if something behind the first one is unknown,
or something that is accepted is missing. -/
theorem ends_isAncestor (hsettled : w.Settled (ds project) project) (hr : h.Ready w ds)
    {ancestor descendant : CommitId} :
    w.Ends (isAncestor project ancestor descendant) h (fun _ h' => h'.Ready w ds)
      (fun _ => ¬ w.Stocked project ∨ ∃ x, w.Leads (ds project) project descendant x ∧
        ∀ c, ¬ w.Known (ds project) project x c) := by
  rw [isAncestor]
  split
  · exact ends_pure hr
  · refine ((ends_isAccepted hsettled hr).mono (fun _ _ hr' => hr')
      fun e he => .inl he).bind fun anywhere h₁ hr₁ => ?_
    refine (ends_walkFrom (P := fun c v => v = .pass → w.Prunes project c v) (fun c hc => ?_)
      (fun c h hr => ?_) ?_ hr₁).bind fun t h' hr' => ends_pure hr'
    · obtain ⟨hstored, ⟨_, haccepted⟩ | ⟨hpass, _⟩⟩ := hc rfl
      · obtain ⟨c', hc'⟩ := Option.isSome_iff_exists.1 (hstored c haccepted)
        exact Known.mem_names (.inl hc')
      · cases hpass
    · split
      · exact ends_pure ⟨hr, fun hstop => by cases hstop⟩
      · split
        · exact ends_pure ⟨hr, fun henter => by cases henter⟩
        · refine (ends_prune hsettled hr).mono ?_ fun e he => .inl he
          rintro v h' ⟨hr', hv⟩
          exact ⟨hr', fun _ => hv⟩
    · rintro e ⟨s, hs, x, hleads, hx⟩
      rw [List.mem_singleton.1 hs] at hleads
      exact .inr ⟨x, hleads, hx⟩

end World
end Landing
