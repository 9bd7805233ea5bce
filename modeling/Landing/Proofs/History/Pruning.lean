import Landing.Proofs.History.Layers
import Landing.Proofs.History.ParentsFirst
import Landing.Proofs.History.Resolution
import Landing.Proofs.Submission.Submit

/-!
# Walks that pass accepted commits by

A walk in search of something that is not accepted does not look behind accepted
commits, and it misses nothing by that: whatever is behind an accepted commit is
accepted.  This needs neither that names stand for their contents nor that no commit
leads back to itself.  It needs that the accepted commits are closed under parents,
which they are because they were listed once, through commits that the history has
known ever since (`History.Sound.mem_accepted_iff`).

`World.ends_pruned` says what the two walks that pass accepted commits by find.  It is
about all histories that come about through questions and drafts
(`History.Arises`), whatever is stored.
-/

namespace Landing

open Relation History World

variable {ε α β : Type}

namespace History

variable {w : World} {h h' : History} {project : ProjectName} {id x y : CommitId}
variable {starts : List CommitId} {P : CommitId → Visit → Prop}

/-- The commit that a name stands for has these parents. -/
def ParentsAre (w : World) (h : History) (project : ProjectName) (id : CommitId)
    (ps : List CommitId) : Prop :=
  ∃ c, h.resolve w project id = some c ∧ c.parents = ps

theorem ParentsAre.mem_iff {ps : List CommitId} (hps : h.ParentsAre w project x ps) :
    y ∈ ps ↔ h.Link w project x y := by
  obtain ⟨c, hc, rfl⟩ := hps
  constructor
  · exact fun hy => ⟨c, hc, hy⟩
  · rintro ⟨c', hc', hy⟩
    rw [History.resolve] at hc
    rw [hc] at hc'
    cases hc'
    exact hy

theorem ParentsAre.isSome {ps : List CommitId} (hps : h.ParentsAre w project x ps) :
    (h.resolve w project x).isSome := by
  obtain ⟨c, hc, _⟩ := hps
  exact Option.isSome_of_eq_some hc

/-- A walk meets only what its starts lead to. -/
theorem reaches_of_met (hmet : Met starts P (h.ParentsAre w project) x) :
    ∃ s ∈ starts, h.Reaches w project s x := by
  induction hmet with
  | start hs => exact ⟨_, hs, .refl⟩
  | parent _ _ hps hy ih =>
    obtain ⟨s, hs, hway⟩ := ih
    exact ⟨s, hs, hway.tail (hps.mem_iff.1 hy)⟩

/-- What accepted commits lead to is accepted. -/
theorem Accepts.reaches (hx : h.Accepts w project x) (hxy : h.Reaches w project x y) :
    h.Accepts w project y := by
  obtain ⟨tip, htip, hway⟩ := hx
  exact ⟨tip, htip, hway.trans hxy⟩

/-- The accepted commits, once listed, are what the observed tips lead to. -/
theorem Sound.mem_accepted_iff (hs : h.Sound w) {ids : List CommitId}
    (hids : (h.view project).accepted = some ids) :
    (id ∈ ids ↔ h.Accepts w project id) ∧ (id ∈ ids → (h.resolve w project id).isSome) := by
  obtain ⟨tips, htips, hg⟩ := (hs project).accepted ids hids
  refine ⟨?_, fun hid => ?_⟩
  · rw [Accepts, ProjectView.observed_of_tips htips]
    exact hg.mem_iff
  · obtain ⟨c, hc, _⟩ := hg.closed id hid
    exact Option.isSome_of_eq_some (ProjectView.resolve_of_known hc)

end History

/-! ### Walks learn and change nothing -/

namespace World

variable {w : World} {h h' : History} {project : ProjectName} {id : CommitId}
variable {starts : List CommitId} {P : CommitId → Visit → Prop}

theorem informs_walk {visit : CommitId → Reading Visit} (hvisit : ∀ c, w.Informs (visit c))
    (budget : Nat) (t : Trail) (queue : List CommitId) :
    w.Informs (walk project visit budget t queue) := by
  induction budget generalizing t queue with
  | zero =>
    rw [walk]
    split
    · exact informs_pure t
    · exact informs_exhausted
  | succ budget ih =>
    rw [walk]
    split
    · exact informs_pure t
    · refine (hvisit _).bind fun v => ?_
      cases v with
      | stop => exact informs_pure _
      | pass => exact ih _ _
      | enter => exact informs_parents.bind fun ps => ih _ _

theorem informs_walkFrom {visit : CommitId → Reading Visit} (hvisit : ∀ c, w.Informs (visit c)) :
    w.Informs (walkFrom project starts visit) :=
  informs_get.bind fun h => informs_walk hvisit h.budget .start starts

/-- The commits that a walk has entered are known when it ends. -/
theorem yields_walk_known {visit : CommitId → Reading Visit} (hvisit : ∀ c, w.Informs (visit c))
    {budget : Nat} {t t' : Trail} {queue : List CommitId}
    (hknown : ∀ x ∈ t.entered, ((h.view project).commits.get? x).isSome)
    (hy : w.Yields (walk project visit budget t queue) h t' h') :
    ∀ x ∈ t'.entered, ((h'.view project).commits.get? x).isSome := by
  have hkeep : ∀ {h₁ h₂ : History} {x : CommitId}, h₁.Follows w h₂ →
      ((h₁.view project).commits.get? x).isSome → ((h₂.view project).commits.get? x).isSome := by
    intro h₁ h₂ x hf hx
    obtain ⟨c, hc⟩ := Option.isSome_iff_exists.1 hx
    exact Option.isSome_of_eq_some ((hf.view project).commits x c hc)
  induction budget generalizing t queue h with
  | zero =>
    rw [walk] at hy
    split at hy
    · obtain ⟨rfl, rfl⟩ := yields_pure.1 hy
      exact hknown
    · exact absurd hy yields_exhausted
  | succ budget ih =>
    rw [walk] at hy
    split at hy
    · obtain ⟨rfl, rfl⟩ := yields_pure.1 hy
      exact hknown
    · next next rest _ =>
      obtain ⟨v, h₁, hv, hrest⟩ := yields_bind.1 hy
      have hf₁ : h.Follows w h₁ := (hvisit next).follows hv
      cases v with
      | stop =>
        obtain ⟨rfl, rfl⟩ := yields_pure.1 hrest
        exact fun x hx => hkeep hf₁ (hknown x hx)
      | pass =>
        refine ih (t := t.meet next) (fun x hx => ?_) hrest
        exact hkeep hf₁ (hknown x hx)
      | enter =>
        obtain ⟨ps, h₂, hps, hrest⟩ := yields_bind.1 hrest
        obtain ⟨hf₂, hnext, _⟩ := yields_parents_resolve hps
        refine ih (fun x hx => ?_) hrest
        rcases List.mem_append.1 hx with hold | hnew
        · exact hkeep (hf₁.trans hf₂) (hknown x hold)
        · rw [List.mem_singleton.1 hnew]
          exact hnext

/-- A successful walk has kept what every visit keeps, and what it has entered is known. -/
theorem yields_walkFrom_resolve {visit : CommitId → Reading Visit}
    (hinforms : ∀ c, w.Informs (visit c))
    (hvisit : ∀ c h₁ v h₂, h.Follows w h₁ → w.Yields (visit c) h₁ v h₂ → P c v)
    {J : Trail → List CommitId → Prop} (hJ : Trail.Preserved P (h.ParentsAre w project) J)
    (hstart : J .start starts) {t : Trail}
    (hy : w.Yields (walkFrom project starts visit) h t h') :
    h.Follows w h' ∧ (∀ x ∈ t.entered, ((h'.view project).commits.get? x).isSome) ∧
      ((∃ x t₁ rest, t.found = some x ∧ P x .stop ∧ x ∉ t₁.seen ∧ J t₁ (x :: rest)) ∨
        t.found = none ∧ J t []) := by
  change w.Yields (walk project visit h.budget .start starts) h t h' at hy
  have hknown := yields_walk_known hinforms (fun x hx => absurd hx (by simp [Trail.start])) hy
  obtain ⟨hf, hend⟩ := yields_walk_of_preserved (I := fun h₁ => h.Follows w h₁) hJ
    (fun c h₁ v h₂ hf hv => ⟨hf.trans ((hinforms c).follows hv), hvisit c h₁ v h₂ hf hv⟩)
    (fun c h₁ ps h₂ hf hps => by
      obtain ⟨hf', _, hresolve⟩ := yields_parents_resolve hps
      rw [hf.resolve] at hresolve
      exact ⟨hf.trans hf', hresolve⟩) (.refl h) hstart rfl hy
  exact ⟨hf, hknown, hend⟩

/-! ### Accepted commits -/

/-- What a walk that enters every commit has entered is gathered from its starts. -/
theorem gathered_of_entered {t : Trail} (hf : h.Follows w h')
    (hknown : ∀ x ∈ t.entered, ((h'.view project).commits.get? x).isSome)
    (hinv : t.Inv starts (fun _ v => v = .enter) (h.ParentsAre w project) []) :
    (h'.view project).Gathered starts t.entered := by
  have hseen : ∀ x, x ∈ t.seen ∨ x ∈ [] → x ∈ t.entered := by
    intro x hx
    refine (hinv.passed x (hx.resolve_right (by simp))).resolve_right fun hpass => ?_
    cases hpass
  have hparents : ∀ x ∈ t.entered, ∃ c, (h'.view project).commits.get? x = some c ∧
      h.ParentsAre w project x c.parents := by
    intro x hx
    obtain ⟨c, hc⟩ := Option.isSome_iff_exists.1 (hknown x hx)
    refine ⟨c, hc, c, ?_, rfl⟩
    rw [← hf.resolve]
    exact ProjectView.resolve_of_known hc
  refine ⟨fun s hs => hseen s (hinv.begun s hs), fun x hx => ?_, fun x hx => ?_⟩
  · obtain ⟨c, hc, hps⟩ := hparents x hx
    obtain ⟨_, _, ps, hps', hall⟩ := hinv.entered x hx
    exact ⟨c, hc, fun y hy => hseen y (hall y (hps'.mem_iff.2 (hps.mem_iff.1 hy)))⟩
  · -- Everything that the starts lead to was entered, and it was led to through what was entered.
    have hmet : Met starts (fun _ v => v = .enter) (h.ParentsAre w project) x :=
      hinv.met x (.inl (hinv.entered x hx).1)
    clear hx
    suffices hway : x ∈ t.entered ∧ ∃ s ∈ starts, ReflTransGen (fun x y =>
        ∃ c, (h'.view project).commits.get? x = some c ∧ y ∈ c.parents) s x from hway.2
    induction hmet with
    | start hs => exact ⟨hseen _ (hinv.begun _ hs), _, hs, .refl⟩
    | @parent x y ps _ _ hps hy ih =>
      obtain ⟨hx, s, hs, hway⟩ := ih
      obtain ⟨_, _, ps', hps', hall⟩ := hinv.entered x hx
      obtain ⟨c, hc, hps''⟩ := hparents x hx
      exact ⟨hseen y (hall y (hps'.mem_iff.2 (hps.mem_iff.1 hy))), s, hs,
        hway.tail ⟨c, hc, hps''.mem_iff.2 (hps.mem_iff.1 hy)⟩⟩

/-- Listing the accepted commits, which the history remembers then. -/
theorem yields_acceptedCommits_listed {ids : List CommitId}
    (hy : w.Yields (acceptedCommits project) h ids h') :
    h.Follows w h' ∧ (h'.view project).accepted = some ids := by
  simp only [acceptedCommits, yields_bind, yields_get] at hy
  obtain ⟨_, _, ⟨rfl, rfl⟩, hy⟩ := hy
  split at hy
  · next ids' hlisted =>
    obtain ⟨rfl, rfl⟩ := yields_pure.1 hy
    exact ⟨.refl h', hlisted⟩
  · simp only [yields_bind, yields_modify, yields_pure] at hy
    obtain ⟨tips, h₁, htips, t, h₂, hwalk, _, _, rfl, rfl, rfl⟩ := hy
    obtain ⟨hf₁, hseen⟩ := yields_tips_observed htips
    obtain ⟨hf₂, hknown, hend⟩ := yields_walkFrom_resolve (P := fun _ v => v = .enter)
      (fun c => informs_pure _) (fun c h₁ v h₂ _ hv => (yields_pure.1 hv).1) Trail.Inv.preserved
      Trail.inv_start hwalk
    have hinv := (hend.resolve_left (by rintro ⟨x, _, _, _, hstop, _⟩; cases hstop)).2
    refine ⟨(hf₁.trans hf₂).trans (.setView ?_), ?_⟩
    · exact ProjectView.follows_accept ((hf₂.view project).tips tips hseen)
        (gathered_of_entered hf₂ hknown hinv)
    · rw [History.view_setView, if_pos rfl]

theorem informs_acceptedCommits : w.Informs (acceptedCommits project) := by
  intro h r h' hcome
  cases r with
  | ok ids => exact (yields_acceptedCommits_listed hcome).1
  | error e =>
    rw [acceptedCommits, Study.get_bind] at hcome
    cases hlisted : (h.view project).accepted with
    | some ids =>
      rw [hlisted] at hcome
      cases hcome
    | none =>
      rw [hlisted] at hcome
      rcases Study.mayCome_bind_cases hcome with ⟨_, htips⟩ | ⟨tips, h₁, htips, hrest⟩
      · exact informs_tips _ _ _ htips
      rcases Study.mayCome_bind_cases hrest with ⟨_, hwalk⟩ | ⟨t, h₂, _, hrest⟩
      · exact (informs_tips.follows htips).trans
          (informs_walkFrom (fun _ => informs_pure _) _ _ _ hwalk)
      · cases hrest

theorem informs_isAccepted : w.Informs (isAccepted project id) :=
  informs_acceptedCommits.bind fun ids => informs_pure (ids.contains id)

theorem informs_unacceptedAncestry : w.Informs (unacceptedAncestry project starts) := by
  refine (informs_walkFrom fun c => ?_).bind fun t => informs_pure t.entered
  exact informs_isAccepted.bind fun b => informs_pure _

theorem informs_isAncestor {ancestor descendant : CommitId} :
    w.Informs (isAncestor project ancestor descendant) := by
  unfold isAncestor
  split
  · exact informs_pure true
  · refine informs_isAccepted.bind fun anywhere => ?_
    refine (informs_walkFrom fun c => ?_).bind fun t => informs_pure _
    split
    · exact informs_pure _
    · split
      · exact informs_pure _
      · exact informs_isAccepted.bind fun b => informs_pure _

theorem informs_mergeBase? {a b : CommitId} : w.Informs (mergeBase? project a b) := by
  refine (informs_walkFrom fun c => informs_pure Visit.enter).bind fun t => ?_
  exact (informs_walkFrom fun c => informs_pure _).bind fun t' => informs_pure t'.found

theorem informs_arrange {members : List CommitId} (budget : Nat) (stack : List Frame)
    (listed : List CommitId) : w.Informs (arrange project members budget stack listed) := by
  induction budget generalizing stack listed with
  | zero =>
    rw [arrange]
    split
    · exact informs_exhausted
    · exact informs_pure _
  | succ budget ih =>
    rw [arrange]
    split
    · exact informs_parents.bind fun ps => ih _ _
    · exact informs_pure _

theorem informs_parentsFirst {commits : List CommitId} : w.Informs (parentsFirst project commits) :=
  informs_get.bind fun h => informs_arrange h.budget (commits.map .visit) []

/-- Asking whether a commit is accepted. -/
theorem yields_isAccepted_exact (hs : h.Sound w) {b : Bool}
    (hy : w.Yields (isAccepted project id) h b h') :
    h.Follows w h' ∧ (b = true ↔ h.Accepts w project id) ∧
      (b = true → (h.resolve w project id).isSome) := by
  simp only [isAccepted, yields_bind, yields_pure] at hy
  obtain ⟨ids, _, hids, rfl, rfl⟩ := hy
  obtain ⟨hf, hlisted⟩ := yields_acceptedCommits_listed hids
  obtain ⟨hiff, hsome⟩ :
      (id ∈ ids ↔ h'.Accepts w project id) ∧ (id ∈ ids → (h'.resolve w project id).isSome) :=
    (hf.sound hs).mem_accepted_iff hlisted
  rw [hf.accepts] at hiff
  rw [hf.resolve] at hsome
  rw [List.contains_iff_mem]
  exact ⟨hf, hiff, hsome⟩

end World

/-! ### Where histories come from -/

namespace History

variable {w w' : World} {h h' : History}

/-- The questions that are put to a history. -/
inductive Question : {α : Type} → Reading α → Prop
  | commit (project : ProjectName) (id : CommitId) : Question (commit project id)
  | parents (project : ProjectName) (id : CommitId) : Question (parents project id)
  | tips (project : ProjectName) : Question (tips project)
  | tip (branch : Branch) : Question (tip? branch)
  | accepted (project : ProjectName) (id : CommitId) : Question (isAccepted project id)
  | ancestry (project : ProjectName) (starts : List CommitId) :
    Question (unacceptedAncestry project starts)
  | listing (project : ProjectName) (commits : List CommitId) : Question (parentsFirst project commits)
  | ancestor (project : ProjectName) (a d : CommitId) : Question (isAncestor project a d)
  | base (project : ProjectName) (a b : CommitId) : Question (mergeBase? project a b)

/-- The histories that come about in a world, when questions are put to them, answered or not, and
commits are drafted, while others store commits and move branches. -/
inductive Arises : World → History → Prop
  | start (w : World) (budget : Nat) : Arises w (start budget)
  | asked {w : World} {h h' : History} {α : Type} {x : Reading α} {r : Except StoreError α} :
    Arises w h → Question x → Program.result w (x h) = some (r, h') → Arises w h'
  | drafted {w : World} {h : History} (project : ProjectName) (d : Draft) :
    Arises w h → Arises w (h.draft project d)
  | meanwhile {w w' : World} {h : History} : Arises w h → w.StoredIn w' → Arises w' h

theorem Question.informs {x : Reading α} (hx : Question x) : w.Informs x := by
  cases hx with
  | commit => exact informs_commit
  | parents => exact informs_parents
  | tips => exact informs_tips
  | tip => exact informs_tip?
  | accepted => exact informs_isAccepted
  | ancestry => exact informs_unacceptedAncestry
  | listing => exact informs_parentsFirst
  | ancestor => exact informs_isAncestor
  | base => exact informs_mergeBase?

/-- Everything that such a history remembers is so. -/
theorem Arises.sound (ha : Arises w h) : h.Sound w := by
  induction ha with
  | start w budget => exact sound_start w budget
  | @asked w h h' α x r _ hquestion hresult ih =>
    have hcome : Program.MayCome (w.Shows fun _ => True) (x h) (r, h') :=
      Program.mayCome_of_result (shows_answer fun _ _ => trivial) hresult
    exact (hquestion.informs h r h' hcome).sound ih
  | drafted project d _ ih => exact ih.draft d
  | meanwhile _ hstored ih => exact ih.storedIn hstored

end History

/-! ### What the walks find -/

namespace World

variable {w : World} {h h' : History} {project : ProjectName} {id : CommitId}
variable {starts : List CommitId} {P : CommitId → Visit → Prop}

/-- What is done at a commit by a walk that passes accepted commits by. -/
def Sifts (w : World) (h : History) (project : ProjectName) (c : CommitId) (v : Visit) : Prop :=
  (v = .pass ∧ h.Accepts w project c ∧ (h.resolve w project c).isSome) ∨
    (v = .enter ∧ ¬ h.Accepts w project c)

theorem yields_sift {h₁ h₂ : History} (hs : h.Sound w) (hf : h.Follows w h₁) {c : CommitId}
    {v : Visit}
    (hy : w.Yields (do pure (if ← isAccepted project c then .pass else .enter)) h₁ v h₂) :
    w.Sifts h project c v := by
  simp only [yields_bind, yields_pure] at hy
  obtain ⟨b, _, hb, rfl, rfl⟩ := hy
  obtain ⟨_, hiff, hsome⟩ := yields_isAccepted_exact (hf.sound hs) hb
  rw [hf.accepts] at hiff
  rw [hf.resolve] at hsome
  cases b with
  | true => exact .inl ⟨rfl, hiff.1 rfl, hsome rfl⟩
  | false => exact .inr ⟨rfl, fun haccepts => Bool.noConfusion (hiff.2 haccepts)⟩

/-- Listing what some commits lead to and is not accepted.  The list has all of that and nothing else,
each commit once and nearest first, and the listed commits are known then. -/
theorem yields_unacceptedAncestry_sorted (hs : h.Sound w) {ids : List CommitId}
    (hy : w.Yields (unacceptedAncestry project starts) h ids h') :
    h.Follows w h' ∧ (∀ id ∈ ids, ((h'.view project).commits.get? id).isSome) ∧ ids.Nodup ∧
      (∀ id, id ∈ ids ↔ (∃ s ∈ starts, h.Reaches w project s id) ∧ ¬ h.Accepts w project id) ∧
      ids.Pairwise (NoFarther (h.Link w project) starts) := by
  simp only [unacceptedAncestry, yields_bind, yields_pure] at hy
  obtain ⟨t, _, hwalk, rfl, rfl⟩ := hy
  have hclosed : ∀ x y, h.Accepts w project x → h.Link w project x y → h.Accepts w project y :=
    fun x y hx hxy => hx.reaches (.single hxy)
  have hlayered : Trail.Preserved (w.Sifts h project) (h.ParentsAre w project)
      (Trail.Layered (h.Link w project) starts (h.Accepts w project)) := by
    refine Trail.layered_preserved hclosed (fun x hx => ?_) (fun x hx => ?_) fun x ps hps y =>
      hps.mem_iff
    · exact (hx.resolve_right fun henter => by cases henter.1).2.1
    · exact (hx.resolve_left fun hpass => by cases hpass.1).2
  obtain ⟨hf, hknown, hend⟩ := yields_walkFrom_resolve
    (fun c => informs_isAccepted.bind fun b => informs_pure _)
    (fun c h₁ v h₂ hf hv => yields_sift hs hf hv)
    (Trail.Inv.preserved.and (hlayered.and Trail.single_preserved))
    ⟨Trail.inv_start, Trail.layered_start, List.nodup_nil, List.Sublist.refl _⟩ hwalk
  obtain ⟨hinv, ⟨n, front, back, _, hlayer⟩, hnodup, hsublist⟩ := (hend.resolve_left (by
    rintro ⟨x, _, _, _, ⟨hstop, _⟩ | ⟨hstop, _⟩, _⟩ <;> cases hstop)).2
  refine ⟨hf, hknown, hnodup.sublist hsublist, fun id => ⟨fun hid => ?_, ?_⟩, hlayer.sorted⟩
  · obtain ⟨hseen, henter, _⟩ := hinv.entered id hid
    refine ⟨reaches_of_met (hinv.met id (.inl hseen)), ?_⟩
    exact (henter.resolve_left fun hpass => by cases hpass.1).2
  · rintro ⟨⟨s, hs', hway⟩, hnot⟩
    -- What the walk has not entered is behind a commit that it passed by.
    refine (hinv.covers (fun x y ps hps hxy => hps.mem_iff.2 hxy) hs' hway).resolve_right ?_
    rintro ⟨z, hz, hzid⟩
    exact hnot ((hz.resolve_right fun henter => by cases henter.1).2.1.reaches hzid)

/-- What is done at a commit by a walk in search of another one: it stops there and nowhere else, and
it passes accepted commits by only if the one in search is not accepted. -/
structure Searches (w : World) (h : History) (project : ProjectName) (ancestor c : CommitId)
    (v : Visit) : Prop where
  stop : v = .stop ↔ c = ancestor
  pass : v = .pass → h.Accepts w project c ∧ (h.resolve w project c).isSome ∧
    ¬ h.Accepts w project ancestor

theorem yields_search {h₁ h₂ : History} (hs : h.Sound w) (hf : h.Follows w h₁)
    {ancestor c : CommitId} {anywhere : Bool} {v : Visit}
    (hanywhere : anywhere = true ↔ h.Accepts w project ancestor)
    (hy : w.Yields (if c = ancestor then pure .stop
      else if anywhere then pure .enter
      else do pure (if ← isAccepted project c then .pass else .enter)) h₁ v h₂) :
    w.Searches h project ancestor c v := by
  split at hy
  · next heq =>
    obtain ⟨rfl, rfl⟩ := yields_pure.1 hy
    exact ⟨⟨fun _ => heq, fun _ => rfl⟩, fun hpass => by cases hpass⟩
  · next hne =>
    split at hy
    · obtain ⟨rfl, rfl⟩ := yields_pure.1 hy
      exact ⟨⟨fun hstop => (by cases hstop), fun heq => absurd heq hne⟩, fun hpass => by cases hpass⟩
    · next hnowhere =>
      have hnot : ¬ h.Accepts w project ancestor := fun haccepts => hnowhere (hanywhere.2 haccepts)
      rcases yields_sift hs hf hy with ⟨rfl, haccepts, hsome⟩ | ⟨rfl, _⟩
      · exact ⟨⟨fun hstop => (by cases hstop), fun heq => absurd heq hne⟩,
          fun _ => ⟨haccepts, hsome, hnot⟩⟩
      · exact ⟨⟨fun hstop => (by cases hstop), fun heq => absurd heq hne⟩,
          fun hpass => by cases hpass⟩

/-- Asking whether a commit leads to another one. -/
theorem yields_isAncestor_reaches (hs : h.Sound w) {ancestor descendant : CommitId} {b : Bool}
    (hy : w.Yields (isAncestor project ancestor descendant) h b h') :
    b = true ↔ h.Reaches w project descendant ancestor := by
  rw [isAncestor] at hy
  split at hy
  · next heq =>
    obtain ⟨rfl, rfl⟩ := yields_pure.1 hy
    exact ⟨fun _ => heq ▸ .refl, fun _ => rfl⟩
  · simp only [yields_bind, yields_pure] at hy
    obtain ⟨anywhere, h₁, hanywhere, t, _, hwalk, rfl, rfl⟩ := hy
    obtain ⟨hf₁, hiff, _⟩ := yields_isAccepted_exact hs hanywhere
    have hiff₁ : anywhere = true ↔ h₁.Accepts w project ancestor := by rwa [hf₁.accepts]
    obtain ⟨_, _, hend⟩ := yields_walkFrom_resolve (P := w.Searches h₁ project ancestor)
      (fun c => by
        split
        · exact informs_pure _
        · split
          · exact informs_pure _
          · exact informs_isAccepted.bind fun b => informs_pure _)
      (fun c h₂ v h₃ hf hv => yields_search (hf₁.sound hs) hf hiff₁ hv)
      Trail.Inv.preserved Trail.inv_start hwalk
    rw [← hf₁.reaches]
    rcases hend with ⟨x, _, _, hfound, hstop, _, hinv⟩ | ⟨hnone, hinv⟩
    · obtain ⟨s, hs', hway⟩ := reaches_of_met (hinv.met x (.inr (by simp)))
      rw [List.mem_singleton.1 hs', hstop.stop.1 rfl] at hway
      simp [hfound, hway]
    · -- The walk has not stopped, so it has neither entered the ancestor nor passed it by.
      have hnot : ¬ h₁.Reaches w project descendant ancestor := by
        intro hway
        rcases hinv.covers (fun x y ps hps hxy => hps.mem_iff.2 hxy)
          (List.mem_singleton_self descendant) hway with hentered | ⟨z, hz, hzx⟩
        · cases (hinv.entered ancestor hentered).2.1.stop.2 rfl
        · obtain ⟨haccepts, _, hnot⟩ := hz.pass rfl
          exact hnot (haccepts.reaches hzx)
      simp [hnone, hnot]

/-! ### The walks come to an end -/

/-- The study comes to an end in `w`, in whatever way. -/
def Halts (w : World) (x : Study ε α) (h : History) : Prop :=
  w.Ends x h (fun _ _ => True) fun _ => True

theorem Ends.halts {x : Study ε α} {good : α → History → Prop} {bad : ε → Prop}
    (hx : w.Ends x h good bad) : w.Halts x h :=
  hx.mono (fun _ _ _ => trivial) fun _ _ => trivial

/-- A study that changes nothing leaves the graph of the history as it is. -/
theorem Halts.informed {x : Study ε α} (hx : w.Halts x h) (hinforms : w.Informs x) :
    w.Ends x h (fun _ h' => h.Follows w h') fun _ => True :=
  (hx.and_yields fun _ _ hy => hinforms.follows hy).mono (fun _ _ hboth => hboth.2) fun _ he => he

theorem halts_commit : w.Halts (History.commit project id) h := ends_commit.halts

theorem halts_tips : w.Halts (History.tips project) h := ends_tips.halts

/-- Reading the parents of a commit. -/
theorem ends_parents_resolve : w.Ends (parents project id) h
    (fun ps h' => h.Follows w h' ∧ h.ParentsAre w project id ps) fun _ => True :=
  (ends_parents.halts.and_yields fun _ _ hy => yields_parents_resolve hy).mono
    (fun _ _ hboth => ⟨hboth.2.1, hboth.2.2.2⟩) fun _ he => he

/-- What a name stands for is among the commits that the budget is for. -/
theorem mem_names_of_resolve (hs : h.Sound w) (hid : (h.resolve w project id).isSome) :
    id ∈ w.names (h.view project).created project := by
  obtain ⟨c, hc⟩ := Option.isSome_iff_exists.1 hid
  exact ((hs project).known_of_resolve hc).mem_names

/-- A walk that passes by only commits that exist comes to an end. -/
theorem ends_walkFrom_of_roomy (hs : h.Sound w) (hroom : h.Roomy w 0)
    {visit : CommitId → Reading Visit} (hpass : ∀ c, P c .pass → (h.resolve w project c).isSome)
    (hvisit : ∀ c h₁, h.Follows w h₁ →
      w.Ends (visit c) h₁ (fun v h₂ => h₁.Follows w h₂ ∧ P c v) fun _ => True) :
    w.Ends (walkFrom project starts visit) h (fun _ h' => h.Follows w h') fun _ => True := by
  refine ends_get_bind ?_
  refine ends_walk (P := P) (Q := h.ParentsAre w project)
    (fun c hc => mem_names_of_resolve hs (hpass c hc))
    (fun c ps hps => mem_names_of_resolve hs hps.isSome) (fun c h₁ _ hf => ?_)
    (fun c h₁ _ hf => ?_) (.refl h) Trail.inv_start List.nodup_nil (List.nil_subset _) ?_
  · exact (hvisit c h₁ hf).mono (fun v h₂ hboth => ⟨hf.trans hboth.1, hboth.2⟩) fun _ he => he
  · refine ends_parents_resolve.mono (fun ps h₂ hboth => ⟨hf.trans hboth.1, ?_⟩) fun _ he => he
    obtain ⟨c', hc', hps⟩ := hboth.2
    exact ⟨c', (hf.resolve project c).symm.trans hc', hps⟩
  · rw [length_names]
    simpa [Trail.start] using hroom project

/-- A walk that passes no commit by comes to an end. -/
theorem ends_walkFrom_pure (hs : h.Sound w) (hroom : h.Roomy w 0) {visit : CommitId → Visit}
    (hvisit : ∀ c, visit c ≠ .pass) :
    w.Ends (walkFrom project starts fun c => pure (visit c)) h (fun _ h' => h.Follows w h')
      fun _ => True :=
  ends_walkFrom_of_roomy (P := fun c v => v = visit c) hs hroom
    (fun c hpass => absurd hpass.symm (hvisit c)) fun _ h₁ _ => ends_pure ⟨.refl h₁, rfl⟩

theorem halts_isAccepted (hs : h.Sound w) (hroom : h.Roomy w 0) :
    w.Halts (isAccepted project id) h := by
  have hlisting : w.Halts (acceptedCommits project) h := by
    refine ends_get_bind ?_
    split
    · exact ends_pure trivial
    · refine (halts_tips.informed informs_tips).bind fun tips h₁ hf₁ => ?_
      refine (ends_walkFrom_pure (hf₁.sound hs) (hf₁.roomy hroom)
        fun _ henter => by cases henter).bind fun t h₂ _ => ?_
      have hremember : w.Halts (modify fun h : History => h.setView project
          { h.view project with accepted := some t.entered } : Reading PUnit) h₂ := ends_modify trivial
      exact hremember.bind fun _ _ _ => ends_pure trivial
  exact hlisting.bind fun _ _ _ => ends_pure trivial

/-- Deciding whether to pass a commit by. -/
theorem ends_sift (hs : h.Sound w) (hroom : h.Roomy w 0) {c : CommitId} {h₁ : History}
    (hf : h.Follows w h₁) :
    w.Ends (do pure (if ← isAccepted project c then Visit.pass else .enter)) h₁
      (fun v h₂ => h₁.Follows w h₂ ∧ w.Sifts h project c v) fun _ => True := by
  have hhalts : w.Halts (do pure (if ← isAccepted project c then Visit.pass else .enter)) h₁ :=
    (halts_isAccepted (hf.sound hs) (hf.roomy hroom)).bind fun _ _ _ => ends_pure trivial
  refine ((hhalts.informed (informs_isAccepted.bind fun b => informs_pure _)).and_yields
    fun v h₂ hy => yields_sift hs hf hy).mono (fun _ _ hboth => hboth) fun _ he => he

theorem halts_unacceptedAncestry (hs : h.Sound w) (hroom : h.Roomy w 0) :
    w.Halts (unacceptedAncestry project starts) h := by
  refine (ends_walkFrom_of_roomy (P := w.Sifts h project) hs hroom (fun c hpass => ?_)
    fun c h₁ hf => ends_sift hs hroom hf).bind fun _ _ _ => ends_pure trivial
  exact (hpass.resolve_right fun henter => by cases henter.1).2.2

theorem halts_isAncestor (hs : h.Sound w) (hroom : h.Roomy w 0) {ancestor descendant : CommitId} :
    w.Halts (isAncestor project ancestor descendant) h := by
  rw [isAncestor]
  split
  · exact ends_pure trivial
  · refine ((halts_isAccepted hs hroom).informed informs_isAccepted).bind fun anywhere h₁ hf₁ => ?_
    have hs₁ := hf₁.sound hs
    have hroom₁ := hf₁.roomy hroom
    refine (ends_walkFrom_of_roomy (P := fun c v => v = .pass → w.Sifts h₁ project c v) hs₁ hroom₁
      (fun c hpass => ?_) fun c h₂ hf => ?_).bind fun _ _ _ => ends_pure trivial
    · exact ((hpass rfl).resolve_right fun henter => by cases henter.1).2.2
    · split
      · exact ends_pure ⟨.refl h₂, fun hstop => by cases hstop⟩
      · split
        · exact ends_pure ⟨.refl h₂, fun henter => by cases henter⟩
        · exact (ends_sift hs₁ hroom₁ hf).mono (fun v h₃ hboth => ⟨hboth.1, fun _ => hboth.2⟩)
            fun _ he => he

theorem halts_mergeBase? (hs : h.Sound w) (hroom : h.Roomy w 0) {a b : CommitId} :
    w.Halts (mergeBase? project a b) h := by
  refine (ends_walkFrom_pure hs hroom fun _ henter => by cases henter).bind fun t h₁ hf₁ => ?_
  have hvisit : ∀ c, (if t.entered.contains c then Visit.stop else .enter) ≠ .pass := by
    intro c hpass
    split at hpass <;> cases hpass
  exact (ends_walkFrom_pure (hf₁.sound hs) (hf₁.roomy hroom) hvisit).bind
    fun _ _ _ => ends_pure trivial

/-- **Walks that pass accepted commits by miss nothing.**  Whatever is stored, with circles or without,
and whatever was asked and drafted before, the two walks come to an end.  If it is not refused an
answer, the one says that a commit leads to another exactly when it does.  The other lists exactly what
the starts lead to and no observed tip leads to, each commit once and in the order of the distance from
the starts. -/
theorem pruned_walks_exact (ha : Arises w h) (hroom : h.Roomy w 0) (project : ProjectName) :
    (∀ a d, w.Ends (isAncestor project a d) h (fun b _ => b = true ↔ h.Reaches w project d a)
      fun _ => True) ∧
    ∀ starts, w.Ends (unacceptedAncestry project starts) h
      (fun ids _ => ids.Nodup ∧
        (∀ id, id ∈ ids ↔ (∃ s ∈ starts, h.Reaches w project s id) ∧ ¬ h.Accepts w project id) ∧
        ids.Pairwise (NoFarther (h.Link w project) starts))
      fun _ => True := by
  have hs : h.Sound w := ha.sound
  refine ⟨fun a d => ?_, fun starts => ?_⟩
  · exact ((halts_isAncestor hs hroom).and_yields fun b h' hy => yields_isAncestor_reaches hs hy).mono
      (fun _ _ hboth => hboth.2) fun _ he => he
  · exact ((halts_unacceptedAncestry hs hroom).and_yields fun ids h' hy =>
      (yields_unacceptedAncestry_sorted hs hy).2.2).mono (fun _ _ hboth => hboth.2) fun _ he => he

end World

namespace Sample

/-- A change is at the commit `x`, which is its own parent. -/
def circular : World :=
  { World.empty with
    projects := Table.ofList [("p", project [second x "x" x])]
    changes := Table.ofList [(1, change 1 "p" x)]
    nextId := 2
    accounts := Table.ofList [(7, actor)] }

/-- A merge of the commit that is its own parent into the first commit. -/
def knot : Draft := { merge with parents := [root, x] }

end Sample

namespace World

/-- The walks over a circle, once it has been merged. -/
theorem pruned_walks_exact_circular :
    let w := Sample.circular
    let h := (start w.reach).draft "p" Sample.knot
    Arises w h ∧ h.Roomy w 0 ∧
      w.Ends (isAncestor "p" Sample.x Sample.knot.id) h
        (fun b _ => b = true ↔ h.Reaches w "p" Sample.knot.id Sample.x) (fun _ => True) ∧
      w.Ends (unacceptedAncestry "p" [Sample.knot.id]) h
        (fun ids _ => ids.Pairwise (NoFarther (h.Link w "p") [Sample.knot.id])) (fun _ => True) ∧
      (Program.result w (unacceptedAncestry "p" [Sample.knot.id] h)).map (·.1) =
        some (.ok [Sample.knot.id, Sample.x]) := by
  intro w h
  have ha : Arises w h := .drafted "p" Sample.knot (.start w w.reach)
  have hroom : h.Roomy w 0 := by
    have hstart : (start w.reach).Roomy w (2 * w.changes.size + 0) := roomy_start (Nat.le_refl _)
    exact Roomy.draft (hstart.mono (by decide +kernel)) "p" Sample.knot
  obtain ⟨hancestor, hancestry⟩ := pruned_walks_exact ha hroom "p"
  refine ⟨ha, hroom, hancestor _ _, ?_, by decide +kernel⟩
  exact (hancestry _).mono (fun _ _ hall => hall.2.2) fun _ he => he

end World
end Landing
