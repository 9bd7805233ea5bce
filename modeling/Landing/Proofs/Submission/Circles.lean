import Landing.Proofs.History.Topological
import Landing.Proofs.Program.Returning
import Landing.Proofs.Submission.Budget
import Landing.Proofs.Submission.Bundles
import Landing.Proofs.Submission.Halting
import Landing.Proofs.World.Snapshot

/-!
# What comes to an end, and what need not

A world that was loaded may hold anything, commits that lead back to themselves
included.  Every walk but one comes to an end there, since it marks a commit before it
looks behind it, and so does planning.

The exception is the listing with parents first, which marks a commit only after its
parents.  It goes on for ever over commits that lead back to themselves, and a preview
archive that gets to such a listing goes on with it (`World.walks_end_unless_knotted`).
-/

namespace Landing

open History

variable {ε α β : Type}

namespace World

variable {w : World} {h h' : History} {project : ProjectName} {id : CommitId} {n : Nat}
variable {policy : Policy} {actor : Account} {change : ChangeId} {p : Plan}

/-! ### Studies that come to an end step by step -/

theorem halts_iff {x : Study ε α} : w.Halts x h ↔ (Program.result w (x h)).isSome := by
  constructor
  · rintro ⟨r, h', hresult, _⟩
    exact Option.isSome_of_eq_some hresult
  · intro hsome
    obtain ⟨⟨r, h'⟩, hresult⟩ := Option.isSome_iff_exists.1 hsome
    exact ⟨r, h', hresult, by cases r <;> trivial⟩

theorem not_halts_parentsFirst {commits : List CommitId}
    (hknotted : Knotted commits (h.Link w project))
    (hresolvable : ∀ c ∈ commits, (h.resolve w project c).isSome) :
    ¬ w.Halts (parentsFirst project commits) h := by
  rw [halts_iff, result_parentsFirst_of_knotted hknotted hresolvable]
  exact Bool.false_ne_true

theorem halts_bind_iff {x : Study ε α} {f : α → Study ε β} : w.Halts (x >>= f) h ↔
    w.Halts x h ∧ ∀ a h', Program.result w (x h) = some (.ok a, h') → w.Halts (f a) h' := by
  have hbind : Program.result w ((x >>= f) h) = (Program.result w (x h)).bind fun r =>
      Program.result w (match r with
        | (.ok a, h') => f a h'
        | (.error e, h') => .done (.error e, h')) := by
    change Program.result w ((x h).bind _) = _
    rw [Program.result_bind]
    congr 1
    funext r
    obtain ⟨r, h'⟩ := r
    cases r <;> rfl
  rw [halts_iff, halts_iff, hbind]
  cases hresult : Program.result w (x h) with
  | none => simp
  | some r =>
    obtain ⟨r, h'⟩ := r
    cases r with
    | ok a => simp [halts_iff]
    | error e => simp [Program.result]

/-- Studying the members of a list comes to an end if it does at every member that it gets to. -/
theorem halts_mapM_iff {f : α → Study ε β} {l : List α} : w.Halts (l.mapM f) h ↔
    ∀ earlier a later bs h', l = earlier ++ a :: later →
      Program.result w (earlier.mapM f h) = some (.ok bs, h') → w.Halts (f a) h' := by
  induction l generalizing h with
  | nil =>
    refine ⟨fun _ earlier a later bs h' hsplit => ?_, fun _ => ends_pure trivial⟩
    simp at hsplit
  | cons a l ih =>
    have hrest : ∀ b h₁, w.Halts (do pure (b :: (← l.mapM f))) h₁ ↔ w.Halts (l.mapM f) h₁ := by
      intro b h₁
      rw [halts_bind_iff]
      exact and_iff_left fun bs h₂ _ => ends_pure trivial
    rw [List.mapM_cons, halts_bind_iff]
    constructor
    · rintro ⟨hfirst, hnext⟩ earlier a' later bs h' hsplit hresult
      cases earlier with
      | nil =>
        obtain ⟨rfl, rfl⟩ := List.cons.inj hsplit
        cases hresult
        exact hfirst
      | cons a₁ earlier =>
        obtain ⟨rfl, rfl⟩ := List.cons.inj hsplit
        rw [List.mapM_cons] at hresult
        obtain ⟨b, h₁, hb, hresult⟩ := Study.result_bind_ok hresult
        obtain ⟨bs', h₂, hbs, hresult⟩ := Study.result_bind_ok hresult
        cases hresult
        exact ih.1 ((hrest b h₁).1 (hnext b h₁ hb)) earlier a' later bs' h' rfl hbs
    · intro hall
      refine ⟨hall [] a l [] h rfl rfl, fun b h₁ hb => (hrest b h₁).2 (ih.2 ?_)⟩
      rintro earlier a' later bs h' rfl hbs
      refine hall (a :: earlier) a' later (b :: bs) h' rfl ?_
      rw [List.mapM_cons]
      exact result_bind_of_ok hb (result_bind_of_ok hbs rfl)

theorem result_read (x : Reading α) : Program.result w (Planning.read x h) =
    (Program.result w (x h)).map fun r => (Planning.ofAnswer r.1, r.2) := by
  change Program.result w ((x h).bind _) = _
  rw [Program.result_bind]
  cases Program.result w (x h) <;> rfl

theorem halts_read {x : Reading α} : w.Halts (Planning.read x) h ↔ w.Halts x h := by
  rw [halts_iff, halts_iff, result_read, Option.isSome_map]

theorem result_read_ok {x : Reading α} {a : α} :
    Program.result w (Planning.read x h) = some (.ok a, h') ↔
      Program.result w (x h) = some (.ok a, h') := by
  rw [result_read]
  cases hresult : Program.result w (x h) with
  | none => simp
  | some r =>
    obtain ⟨r, h₁⟩ := r
    cases r <;> simp [Planning.ofAnswer, Except.mapError]

theorem toOption_eq_some_iff {r : Except ε α} {a : α} : r.toOption = some a ↔ r = .ok a := by
  cases r <;> simp [Except.toOption]

theorem Ends.of_result {x : Study ε α} {good : α → History → Prop} {bad : ε → Prop} {a : α}
    (hx : w.Ends x h good bad) (hresult : Program.result w (x h) = some (.ok a, h')) :
    good a h' := by
  obtain ⟨r, h₁, hends, hr⟩ := hx
  rw [hresult] at hends
  cases hends
  exact hr

theorem yields_of_result {x : Study ε α} {a : α}
    (hresult : Program.result w (x h) = some (.ok a, h')) : w.Yields x h a h' :=
  Program.mayCome_of_result (shows_answer fun _ _ => trivial) hresult

/-! ### Packing -/

theorem isSome_resolve_of_known (hknown : ((h.view project).commits.get? id).isSome) :
    (h.resolve w project id).isSome := by
  obtain ⟨c, hc⟩ := Option.isSome_iff_exists.1 hknown
  exact Option.isSome_of_eq_some (ProjectView.resolve_of_known hc)

/-- There are no more commits than the budget is for. -/
theorem length_dedup_le_budget (hfit : h.Fit w n) {ids : List CommitId}
    (hids : ∀ id ∈ ids, (h.resolve w project id).isSome) : ids.dedup.length ≤ h.budget := by
  have hsub : ids.dedup ⊆ w.names (h.view project).created project :=
    fun id hid => mem_names_of_resolve hfit.sound (hids id (List.mem_dedup.1 hid))
  have hle := ((List.nodup_dedup ids).subperm hsub).length_le
  rw [length_names] at hle
  exact hle.trans (hfit.roomy project).le

/-- What the branches of a project would newly lead to has been listed, and leads back to itself. -/
def Circles (w : World) (p : Plan) (project : ProjectName) (h : History) : Prop :=
  ∃ ids h', Program.result w
    (unacceptedAncestry project ((p.movesIn project).map (·.new)) h) = some (.ok ids, h') ∧
    Knotted ids (h'.Link w project)

theorem informs_bundle : w.Informs (Submission.bundle p project) := by
  refine informs_unacceptedAncestry.read.bind fun reachable => ?_
  refine informs_parentsFirst.read.bind fun ids => ?_
  exact (informs_mapM fun id _ => informs_commit.read).bind fun commits => informs_pure _

/-- Packing the bundle of a project comes to an end unless there are circles. -/
theorem halts_bundle_iff (hfit : h.Fit w n) :
    w.Halts (Submission.bundle p project) h ↔ ¬ w.Circles p project h := by
  have hlisting : ∀ {ids : List CommitId} {h₁ : History}, w.Halts (do
      let ids ← Planning.read (parentsFirst project ids)
      let commits ← ids.mapM fun id => Planning.read (History.commit project id)
      pure (Bundle.mk project (p.movesIn project) commits) : Planning Bundle) h₁ ↔
        w.Halts (parentsFirst project ids) h₁ := by
    intro ids h₁
    rw [halts_bind_iff, halts_read]
    refine and_iff_left fun ids h₂ _ => ?_
    exact (ends_mapM (I := fun _ => True) (R := fun _ _ => True) (fun id _ h₃ _ =>
      (halts_read.2 halts_commit).mono (fun _ _ _ => ⟨trivial, trivial⟩) fun _ he => he)
      trivial).bind fun _ _ _ => ends_pure trivial
  have hsteps : w.Halts (Submission.bundle p project) h ↔ ∀ ids h₁, Program.result w
      (unacceptedAncestry project ((p.movesIn project).map (·.new)) h) = some (.ok ids, h₁) →
        w.Halts (parentsFirst project ids) h₁ := by
    unfold Submission.bundle
    rw [halts_bind_iff, and_iff_right (halts_read.2 (halts_unacceptedAncestry hfit.sound hfit.roomy))]
    simp only [result_read_ok]
    exact forall_congr' fun ids => forall_congr' fun h₁ => imp_congr_right fun _ => hlisting
  rw [hsteps, Circles]
  constructor
  · rintro hall ⟨ids, h₁, hids, hknotted⟩
    obtain ⟨_, hknown, _⟩ := yields_unacceptedAncestry_sorted hfit.sound (yields_of_result hids)
    exact not_halts_parentsFirst hknotted (fun c hc => isSome_resolve_of_known (hknown c hc))
      (hall ids h₁ hids)
  · intro hfree ids h₁ hids
    obtain ⟨hf, hknown, _⟩ := yields_unacceptedAncestry_sorted hfit.sound (yields_of_result hids)
    refine halts_parentsFirst (fun hknotted => hfree ⟨ids, h₁, hids, hknotted⟩) ?_
    exact length_dedup_le_budget (hfit.follows hf) fun c hc => isSome_resolve_of_known (hknown c hc)

/-- Packing the bundles of some projects comes to an end unless there are circles in the first of them
that cannot be packed. -/
theorem halts_packing_iff (hfit : h.Fit w n) {projects : List ProjectName} :
    w.Halts (projects.mapM (Submission.bundle p)) h ↔
      ∀ earlier project later packed h', projects = earlier ++ project :: later →
        Program.result w (earlier.mapM (Submission.bundle p) h) = some (.ok packed, h') →
          ¬ w.Circles p project h' := by
  rw [halts_mapM_iff]
  refine forall₅_congr fun earlier project later packed h' => imp_congr_right fun _ =>
    imp_congr_right fun hpacked => ?_
  have hf : h.Follows w h' := (informs_mapM fun project _ => informs_bundle).follows
    (yields_of_result hpacked)
  exact halts_bundle_iff (hfit.follows hf)

/-- A preview archive gets to a project in which the commits of its bundle lead back to themselves. -/
def Snags (w : World) (policy : Policy) (budget : Nat) (change : ChangeId) (actor : Account) : Prop :=
  ∃ p h earlier project later packed h',
    Program.result w (Submission.plan policy change actor (.start budget)) = some (.ok p, h) ∧
    p.affectedProjects = earlier ++ project :: later ∧
    Program.result w (earlier.mapM (Submission.bundle p) h) = some (.ok packed, h') ∧
    w.Circles p project h'

/-- Packing for a request comes to an end unless there is a snag. -/
theorem halts_bundles_iff (hkeyed : w.Keyed) {budget : Nat} (hbudget : w.reach ≤ budget) :
    w.Halts (Submission.bundles policy change actor) (.start budget) ↔
      ¬ w.Snags policy budget change actor := by
  have hplan : w.Ends (Submission.plan policy change actor) (.start budget) (fun _ h => h.Fit w 0)
      fun _ => True := ends_plan_fit hkeyed hbudget
  rw [Submission.bundles, halts_bind_iff, and_iff_right hplan.halts]
  constructor
  · rintro hall ⟨p, h, earlier, project, later, packed, h', hp, hsplit, hpacked, hcircles⟩
    exact (halts_packing_iff (hplan.of_result hp)).1 (hall p h hp) _ _ _ _ _ hsplit hpacked hcircles
  · intro hfree p h hp
    refine (halts_packing_iff (hplan.of_result hp)).2 ?_
    intro earlier project later packed h' hsplit hpacked hcircles
    exact hfree ⟨p, h, earlier, project, later, packed, h', hp, hsplit, hpacked, hcircles⟩

/-- A snag remains with more budget. -/
theorem Snags.of_le {budget budget' : Nat} (hle : budget ≤ budget')
    (hsnags : w.Snags policy budget change actor) : w.Snags policy budget' change actor := by
  obtain ⟨p, h, earlier, project, later, packed, h', hp, hsplit, hpacked, ids, h₁, hids, hknotted⟩ :=
    hsnags
  obtain ⟨_, hp', rfl, hle₁⟩ :=
    (Submission.elastic_plan policy change actor (.start budget) budget' hle).result hp
  obtain ⟨_, hpacked', rfl, hle₂⟩ :=
    (Study.elastic_mapM (Submission.elastic_bundle p) earlier h budget' hle₁).result hpacked
  obtain ⟨_, hids', rfl, _⟩ := (elastic_unacceptedAncestry project _ h' budget' hle₂).result hids
  exact ⟨p, _, earlier, project, later, packed, _, hp', hsplit, hpacked', ids, _, hids', hknotted⟩

/-- With a budget that exceeds the reach of the world, packing comes to an end exactly if there is no
snag; and where there is one, it never does. -/
theorem isSome_previewArchive_iff (hkeyed : w.Keyed) {budget : Nat} (hbudget : w.reach ≤ budget)
    (format : ArchiveFormat) :
    (w.run (Submission.previewArchive policy budget change actor format)).1.isSome ↔
      ¬ w.Snags policy w.reach change actor := by
  have hrun : (w.run (Submission.previewArchive policy budget change actor format)).1.isSome ↔
      w.Halts (Submission.bundles policy change actor) (.start budget) := by
    rw [run_previewArchive, run_withHistory Submission.isInquiry_bundles, halts_iff]
    simp
  rw [hrun, halts_bundles_iff hkeyed hbudget]
  refine not_congr ⟨fun hsnags => ?_, fun hsnags => hsnags.of_le hbudget⟩
  -- What comes to an end with less budget comes to an end.
  by_contra hfree
  obtain ⟨r, h, hresult, _⟩ := (halts_bundles_iff hkeyed (Nat.le_refl w.reach)).2 hfree
  obtain ⟨_, hlarger⟩ :=
    (Submission.elastic_bundles policy change actor).result_of_le hbudget hresult
  exact (halts_bundles_iff hkeyed hbudget).1 (halts_iff.2 (Option.isSome_of_eq_some hlarger)) hsnags

/-- Saving and loading leaves the world with a commit that is its own parent as it is. -/
theorem load?_save_circular : load? Sample.circular.save = some Sample.circular := by
  have hfiled : Sample.circular.Filed := by
    refine ⟨fun name p hp id c hc => ?_, fun id c hc => ?_, fun id a ha => ?_⟩
    · have hall : ∀ e ∈ Sample.circular.projects.entries, ∀ e' ∈ e.2.commits.entries,
          e'.2.id = e'.1 := by decide +kernel
      exact hall _ ((Table.get?_eq_some_iff ..).1 hp) _ ((Table.get?_eq_some_iff ..).1 hc)
    · have hall : ∀ e ∈ Sample.circular.changes.entries, e.2.id = e.1 := by decide +kernel
      exact hall _ ((Table.get?_eq_some_iff ..).1 hc)
    · have hall : ∀ e ∈ Sample.circular.accounts.entries, e.2.id = e.1 := by decide +kernel
      exact hall _ ((Table.get?_eq_some_iff ..).1 ha)
  have hreload : Sample.circular.reload = Sample.circular := by decide +kernel
  rw [hfiled.load?_save_eq, hreload]

/-- Where the only project of a plan has a new commit that is its own parent, there is a snag. -/
theorem snags_circular :
    Sample.circular.Snags Sample.policy Sample.circular.reach 1 Sample.actor := by
  have hcomputed : (Program.result Sample.circular
      (Submission.plan Sample.policy 1 Sample.actor (.start Sample.circular.reach))).any (fun r =>
        r.1.toOption.any fun p => p.affectedProjects == ["p"] &&
          (Program.result Sample.circular
            (unacceptedAncestry "p" ((p.movesIn "p").map (·.new)) r.2)).any fun r' =>
              r'.1.toOption.any (·.contains Sample.x) &&
                decide (r'.2.Link Sample.circular "p" Sample.x Sample.x)) := by
    decide +kernel
  simp only [Option.any_eq_true, Bool.and_eq_true, beq_iff_eq, List.contains_iff_mem,
    toOption_eq_some_iff, decide_eq_true_eq] at hcomputed
  obtain ⟨⟨r, h⟩, hp, p, rfl, hproject, ⟨r', h'⟩, hids, ⟨ids, rfl, hx⟩, hself⟩ := hcomputed
  exact ⟨p, h, [], "p", [], [], h, hp, hproject, rfl, ids, h', hids, Sample.x, hx,
    .single ⟨hself, hx⟩⟩

/-- **What comes to an end in a loaded world.**  Whatever is stored there, the walks to accepted
commits, to what is not accepted, to an ancestor and to a merge base come to an end, and so does
planning.  A listing with parents first comes to an end if none of the commits leads back to itself
through them; if one does and all of them exist, it goes on for ever.  A preview archive comes to an
end unless such a listing is reached. -/
theorem walks_end_unless_knotted {text : String} (hload : load? text = some w) :
    (∀ h project, Arises w h → h.Roomy w 0 →
      (∀ id, w.Halts (isAccepted project id) h) ∧
      (∀ starts, w.Halts (unacceptedAncestry project starts) h) ∧
      (∀ a d, w.Halts (isAncestor project a d) h) ∧
      (∀ a b, w.Halts (mergeBase? project a b) h)) ∧
    (∀ h project commits,
      (¬ Knotted commits (h.Link w project) → commits.dedup.length ≤ h.budget →
        w.Halts (parentsFirst project commits) h) ∧
      (Knotted commits (h.Link w project) → (∀ c ∈ commits, (h.resolve w project c).isSome) →
        ¬ w.Halts (parentsFirst project commits) h)) ∧
    ∀ policy budget change actor, w.reach ≤ budget →
      (w.planned policy budget change actor).isSome ∧
      ∀ format, (w.run (Submission.previewArchive policy budget change actor format)).1.isSome ↔
        ¬ w.Snags policy w.reach change actor := by
  have hkeyed : w.Keyed := (filed_of_load? hload).changes
  refine ⟨fun h project ha hroom => ?_, fun h project commits => ⟨halts_parentsFirst, ?_⟩,
    fun policy budget change actor hbudget => ⟨?_, isSome_previewArchive_iff hkeyed hbudget⟩⟩
  · have hs : h.Sound w := ha.sound
    exact ⟨fun id => halts_isAccepted hs hroom, fun starts => halts_unacceptedAncestry hs hroom,
      fun a d => halts_isAncestor hs hroom, fun a b => halts_mergeBase? hs hroom⟩
  · exact fun hknotted hresolvable => not_halts_parentsFirst hknotted hresolvable
  · rw [planned, run_withHistory Submission.isInquiry_plan]
    simpa [halts_iff] using (ends_plan_fit hkeyed hbudget).halts

/-- The walks end on a circle, and so does planning; a listing ends that leaves the circle out. -/
theorem walks_end_circular :
    let w := Sample.circular
    let h := History.start w.reach
    load? w.save = some w ∧ Arises w h ∧ h.Roomy w 0 ∧
      w.Halts (unacceptedAncestry "p" [Sample.x]) h ∧
      (w.planned Sample.policy w.reach 1 Sample.actor).isSome ∧
      ¬ Knotted [Sample.root] (h.Link w "p") ∧ w.Halts (parentsFirst "p" [Sample.root]) h ∧
      Knotted [Sample.x] (h.Link w "p") ∧ ¬ w.Halts (parentsFirst "p" [Sample.x]) h := by
  intro w h
  have hload : load? w.save = some w := load?_save_circular
  have hroom : h.Roomy w 0 :=
    (fit_start (w := w) (Nat.le_refl _)).roomy
  have hfree : ¬ Knotted [Sample.root] (h.Link w "p") := by
    rw [knotted_singleton]
    decide +kernel
  have hknotted : Knotted [Sample.x] (h.Link w "p") := by
    rw [knotted_singleton]
    decide +kernel
  have ha : Arises w h := .start w w.reach
  obtain ⟨hwalks, hlists, hplans⟩ := walks_end_unless_knotted hload
  refine ⟨hload, ha, hroom, (hwalks h "p" ha hroom).2.1 _, (hplans _ _ _ _ (Nat.le_refl _)).1, hfree,
    (hlists h "p" [Sample.root]).1 hfree (by decide +kernel), hknotted,
    (hlists h "p" [Sample.x]).2 hknotted (by decide +kernel)⟩

/-- A commit that is its own parent is listed for ever, whatever the budget.  So no preview archive is
ever made of a change at that commit. -/
theorem circle_listed_for_ever :
    let w := Sample.circular
    load? w.save = some w ∧
      (∀ budget, ¬ w.Halts (parentsFirst "p" [Sample.x]) (.start budget)) ∧
      ∀ budget format,
        (w.run (Submission.previewArchive Sample.policy budget 1 Sample.actor format)).1 = none := by
  intro w
  refine ⟨load?_save_circular, fun budget hhalts => ?_, fun budget format => ?_⟩
  · -- The budget makes no difference to the graph.
    have hself : (start budget).Link w "p" Sample.x Sample.x := by
      change (start 0).Link w "p" Sample.x Sample.x
      decide +kernel
    have hresolvable : ∀ c ∈ [Sample.x], ((start budget).resolve w "p" c).isSome := by
      change ∀ c ∈ [Sample.x], ((start 0).resolve w "p" c).isSome
      decide +kernel
    exact not_halts_parentsFirst (knotted_singleton.2 hself) hresolvable hhalts
  · cases hrun : (w.run (Submission.previewArchive Sample.policy budget 1 Sample.actor format)).1 with
    | none => rfl
    | some r =>
      have hkeyed : w.Keyed := (filed_of_load? load?_save_circular).changes
      have hlarger := Submission.run_previewArchive_of_le (Nat.le_max_left budget w.reach)
        (Prod.ext hrun rfl)
      have hends := Option.isSome_of_eq_some (congrArg Prod.fst hlarger)
      exact absurd snags_circular
        ((isSome_previewArchive_iff hkeyed (Nat.le_max_right budget w.reach) format).1 hends)

end World
end Landing
