import Landing.Proofs.Submission.MergeChain

/-!
# What the steps of a branch bring in

When a head is taken it is asked, for every change of the segment that did not come in
before, whether the head leads to its commit and the tip does not.  The changes that pass
are covered by the step, and a merge commit announces them in its message.

The tip of the moment is not what anybody looks at afterwards, so it is eliminated.  What
it leads to, among the commits of the segment, is what the old tip or one of the heads
taken so far leads to (`BranchPlan.Rounds.complete`).  A merge commit leads to itself as
well, but no commit of the segment can have its name: it would lead to the head that was
merged, and of all commits of the segment only the head itself does
(`Segment.Topmost`).  Hence a change is covered in the round of the first head that leads
to its commit, and in no other round (`BranchPlan.Coverage`).

Some head leads to every change, provided that no number stands for two records
(`Segment.Dominated`).  Where one does, the first record can make the second one no head
although nothing that is left leads to it.
-/

namespace Landing

open World

/-! ### Some head leads to every change -/

/-- Some head of the segment leads to every change. -/
def Segment.Dominated (w : World) (drafts : List Draft) (s : Segment) : Prop :=
  ∀ e ∈ placed s.changes, ∃ t ∈ placed s.headChanges, w.Leads drafts s.branch.project t.2 e.2

/-- How the heads of a segment of some changes stand to the changes that it holds. -/
structure Segment.Headed (w : World) (changes : List Change) (s : Segment) : Prop where
  nodup : ((placed s.changes).map (·.1)).Nodup
  topmost : s.Topmost w
  dominated : (∀ c ∈ changes, ∀ c' ∈ changes, c.id = c'.id → c = c') → s.Dominated w []

namespace World

variable {w : World} {h h' : History}

/-- Ordering the changes of one branch. -/
theorem yields_order_headed (hf : h.Fresh w) (hacyclic : w.Acyclic) {branch : Branch}
    {members : List Change} {s : Segment} (hy : w.Yields (Segment.order branch members) h s h') :
    h'.Fresh w ∧ s.Headed w members := by
  obtain ⟨hf', htop⟩ := yields_order_topmost hf hy
  obtain ⟨below, hbelow, rfl⟩ := Segment.yields_order hy
  obtain ⟨-, hpairs, -⟩ := yields_pairs hf hbelow
  refine ⟨hf', Segment.nodup_placed_arranged, htop, fun hsame e he => ?_⟩
  have hmember : ∀ {c : Change}, c ∈ (Segment.arranged branch members below).changes ↔ c ∈ members := by
    intro c
    refine ⟨fun hc => (Segment.mem_of_get?_byId (Segment.mem_changes_arranged.1 hc)).1, fun hc => ?_⟩
    obtain ⟨c', hget⟩ := Table.mem_keys.1 (Segment.mem_keys_byId.2 ⟨c, hc, rfl⟩)
    obtain ⟨hc', hid⟩ := Segment.mem_of_get?_byId hget
    exact Segment.mem_changes_arranged.2 (hsame c' hc' c hc hid ▸ hget)
  have habove : ∀ c ∈ (Segment.arranged branch members below).changes, ∀ commit,
      c.currentCommit? = some commit → c ∈ (Segment.arranged branch members below).headChanges ∨
        ∃ u ∈ (Segment.arranged branch members below).changes, ∃ upper,
          u.currentCommit? = some upper ∧ commit ≠ upper ∧ w.Leads [] branch.project upper commit := by
    intro c hc commit hcommit
    by_cases hhead : below.any (·.1 == c.id) = true
    · -- The change is below another member, for its number belongs to no other record.
      obtain ⟨pair, hpair, heq⟩ := List.any_eq_true.1 hhead
      obtain ⟨lower, hlower, upper, hupper, rfl, -, hne, hleads⟩ := hpairs pair hpair
      obtain ⟨c', hc', hid, hown⟩ := Segment.mem_placed.1 hlower
      obtain ⟨u, hu, -, htop⟩ := Segment.mem_placed.1 hupper
      rw [hsame c' hc' c (hmember.1 hc) (hid.trans (beq_iff_eq.1 heq)), hcommit] at hown
      cases hown
      exact .inr ⟨u, hmember.2 hu, upper.2, htop, hne, hleads⟩
    · left
      rw [Bool.not_eq_true] at hhead
      refine List.mem_filter.2 ⟨hc, List.contains_iff_mem.2 (List.mem_filter.2 ⟨?_, ?_⟩)⟩
      · exact (Countdown.perm_arrange ..).symm.subset
          (Segment.mem_keys_byId.2 ⟨c, hmember.1 hc, rfl⟩)
      · rw [hhead]
        rfl
  obtain ⟨c, hc, -, hcommit⟩ := Segment.mem_placed.1 he
  obtain ⟨t, ht, top, htop, hleads⟩ := Segment.exists_head_of_above hacyclic habove hc hcommit
  exact ⟨(t.id, top), Segment.mem_placed.2 ⟨t, ht, rfl, htop⟩, hleads⟩

/-- How the heads stand to the changes in every segment of a batch. -/
theorem yields_batch_headed (hf : h.Fresh w) (hacyclic : w.Acyclic) {changes : List Change} {b : Batch}
    (hy : w.Yields (Batch.order changes) h b h') :
    h'.Fresh w ∧ ∀ s ∈ b.segments, s.Headed w changes := by
  simp only [Batch.order, yields_bind, yields_pure] at hy
  obtain ⟨segments, _, hsegments, rfl, rfl⟩ := hy
  obtain ⟨hf', hall⟩ := yields_mapM (I := fun h => h.Fresh w) (R := fun _ s => s.Headed w changes)
    (fun e he h s h' hI hs => by
      have hgroup : ∀ c ∈ e.2, c ∈ changes := by
        rw [Batch.mem_byBranch he]
        exact fun c hc => (List.mem_filter.1 hc).1
      obtain ⟨hI', hnodup, htopmost, hdominated⟩ := yields_order_headed hI hacyclic hs
      exact ⟨hI', hnodup, htopmost, fun hsame => hdominated fun c hc c' hc' =>
        hsame c (hgroup c hc) c' (hgroup c' hc')⟩) hf hsegments
  refine ⟨hf', fun s hs => ?_⟩
  obtain ⟨-, -, hheaded⟩ := exists_left_of_forall₂ hall hs
  exact hheaded

end World

/-! ### Rounds in the graph with all drafts -/

namespace BranchPlan

variable {w : World} {project : ProjectName} {running commit : CommitId}
variable {all drafts drafts' : List Draft} {p p' : BranchPlan} {m : Move} {r : Round}
variable {rounds : List Round} {strategy : Strategy} {author committer : Signature}
variable {candidates covered : List (ChangeId × CommitId)} {integrated : List ChangeId}

/-- After a move the tip leads to what the tip before it or the head leads to.  This is true of every
commit that does not lead to the head unless it is the head. -/
theorem Move.ChosenAmong.exists_tip
    (hm : m.ChosenAmong w project all strategy author committer (some running) commit)
    (hdefinite : w.Definite all project) (hdrafted : ∀ d, m = .merges d → d ∈ all) :
    ∃ tip, m.tip (some running) commit = some tip ∧
      ∀ x, (x ≠ commit → ¬ w.Leads all project x commit) →
        (w.Leads all project tip x ↔ w.Leads all project running x ∨ w.Leads all project commit x) := by
  cases hm with
  | stays hleads => exact ⟨running, rfl, fun x _ => ⟨.inl, fun h => h.elim id hleads.trans⟩⟩
  | advances _ hleads => exact ⟨commit, rfl, fun x _ => ⟨.inr, fun h => h.elim hleads.trans id⟩⟩
  | @merges _ d _ _ hparents =>
    have hd := hdrafted d rfl
    have hboth : w.Leads all project d.id running ∧ w.Leads all project d.id commit :=
      leads_of_parents hd hparents
    obtain ⟨hrunning, hcommit⟩ := hboth
    refine ⟨d.id, rfl, fun x hx => ⟨fun hleads => ?_, fun h => h.elim hrunning.trans hcommit.trans⟩⟩
    rcases Relation.ReflTransGen.cases_head hleads with rfl | ⟨y, ⟨c, hc, hy⟩, hyx⟩
    · -- The merge commit itself leads to the head.
      by_cases hsame : d.id = commit
      · exact .inr (hsame ▸ .refl)
      · exact absurd hcommit (hx hsame)
    · rw [hdefinite d.id c d.commit hc (.inr ⟨d, hd, rfl, rfl⟩)] at hy
      have hy : y ∈ [running, commit] := hparents ▸ hy
      simp only [List.mem_cons, List.not_mem_nil, or_false] at hy
      rcases hy with rfl | rfl
      · exact .inl hyx
      · exact .inr hyx

/-- What a step covers is told by the graph, if the tip leads to all that came in before. -/
theorem Covers.mem_iff
    (hcovers : Covers (w.Leads drafts project) (fun x y => w.Reveals drafts project x y false)
      candidates integrated running commit covered)
    (hdefinite : w.Definite all project) (hsub : drafts ⊆ all)
    (hstored : drafts = [] ∨ w.AcceptedStored project)
    (hbefore : ∀ e ∈ candidates, e.1 ∈ integrated → w.Leads all project running e.2)
    (e : ChangeId × CommitId) :
    e ∈ covered ↔ e ∈ candidates ∧ w.Leads all project commit e.2 ∧
      ¬ w.Leads all project running e.2 := by
  have hnot : ∀ {x y}, w.Reveals drafts project x y false → ¬ w.Leads all project x y :=
    fun htold => not_leads_of_reveals htold hdefinite hsub hstored
  constructor
  · intro he
    obtain ⟨-, hleads, htold⟩ := hcovers.sound e he
    exact ⟨hcovers.sublist.subset he, hleads.mono hsub, hnot htold⟩
  · rintro ⟨he, hleads, hout⟩
    rcases hcovers.complete e he with hmem | hold | htold | hin
    · exact hmem
    · exact absurd (hbefore e he hold) hout
    · exact absurd hleads (hnot htold)
    · exact absurd (hin.mono hsub) hout

theorem Announces.mono {d : Draft} (h : Announces w drafts project covered d) (hsub : drafts ⊆ all) :
    Announces w all project covered d := by
  obtain ⟨subjects, hquoted, htold⟩ := h
  refine ⟨subjects, hquoted.imp fun e s hes => ?_, htold⟩
  obtain ⟨hid, c, hc, hsubject⟩ := hes
  exact ⟨hid, c, hc.mono hsub, hsubject⟩

/-- What is said about a round on an existing branch whose tip is at `running`. -/
structure Round.Complete (w : World) (project : ProjectName) (all : List Draft)
    (candidates : List (ChangeId × CommitId)) (running : CommitId) (r : Round) : Prop where
  sublist : r.covered.Sublist candidates
  mem_iff : ∀ e, e ∈ r.covered ↔ e ∈ candidates ∧ w.Leads all project r.head.2 e.2 ∧
    ¬ w.Leads all project running e.2
  /-- Nothing is brought in, or the head is and a merge commit announces what else is. -/
  step : r.move = .stays ∧ r.covered = [] ∨ ¬ w.Leads all project running r.head.2 ∧
    (r.move = .advances ∨ ∃ d, r.move = .merges d ∧ Announces w all project r.covered d)

/-- A round brings in what its head leads to and the tip does not. -/
theorem Round.complete_of_brings
    (hm : r.move.Chosen (w.Leads drafts project) (fun x y => w.Reveals drafts project x y false)
      strategy author committer r.head.2 (some running))
    (hbrings : r.move.Brings w project drafts candidates integrated r.head.2 (some running) r.covered)
    (hdefinite : w.Definite all project) (hsub : drafts ⊆ all)
    (hstored : drafts = [] ∨ w.AcceptedStored project)
    (hbefore : ∀ e ∈ candidates, e.1 ∈ integrated → w.Leads all project running e.2) :
    r.Complete w project all candidates running := by
  obtain ⟨head, move, covered⟩ := r
  have hamong := hm.among hdefinite hsub hstored
  cases hbrings with
  | stays =>
    cases hamong with
    | stays hleads =>
      refine ⟨List.nil_sublist _, fun e => ⟨fun he => (by cases he), ?_⟩, .inl ⟨rfl, rfl⟩⟩
      rintro ⟨-, hhead, hout⟩
      exact absurd (hleads.trans hhead) hout
  | advances hcovers =>
    cases hamong with
    | advances hout =>
      exact ⟨hcovers.sublist, hcovers.mem_iff hdefinite hsub hstored hbefore,
        .inr ⟨hout, .inl rfl⟩⟩
  | merges hcovers hannounces =>
    cases hamong with
    | merges hout =>
      exact ⟨hcovers.sublist, hcovers.mem_iff hdefinite hsub hstored hbefore,
        .inr ⟨hout, .inr ⟨_, rfl, hannounces.mono hsub⟩⟩⟩

/-- In every round the tip leads to what the old tip or a head that was taken before leads to, and what
the round brings in is told by that. -/
theorem Rounds.complete
    (hrounds : Rounds w project author committer candidates rounds integrated drafts p drafts' p')
    {old : CommitId} (htip : p.newTip = some old) (hdefinite : w.Definite all project)
    (hsub : drafts' ⊆ all) (hplanned : p'.drafts ⊆ all)
    (hstored : drafts = [] ∨ w.AcceptedStored project) (hnodup : (candidates.map (·.1)).Nodup)
    (htop : ∀ r ∈ rounds, ∀ e ∈ candidates, e.2 ≠ r.head.2 → ¬ w.Leads all project e.2 r.head.2)
    (hbefore : ∀ e ∈ candidates, e.1 ∈ integrated → w.Leads all project old e.2)
    {before after : List Round} (hsplit : rounds = before ++ r :: after) :
    ∃ running, r.Complete w project all candidates running ∧
      ∀ e ∈ candidates, w.Leads all project running e.2 ↔
        w.Leads all project old e.2 ∨ ∃ b ∈ before, w.Leads all project b.head.2 e.2 := by
  induction hrounds generalizing old before with
  | nil => simp at hsplit
  | @cons first rounds integrated drafts drafts₁ _ p _ hm hadds hbrings hrest ih =>
    have hrun := hrest.moves.headsTaken
    have hsub₁ := List.Subset.trans hrun.grows.1 hsub
    have hdrafts := List.Subset.trans hadds.subset hsub₁
    rw [htip] at hm hbrings
    have hcomplete := Round.complete_of_brings hm hbrings hdefinite hdrafts hstored hbefore
    cases before with
    | nil =>
      obtain ⟨rfl, -⟩ := List.cons.inj hsplit
      exact ⟨old, hcomplete, by simp⟩
    | cons first' before =>
      obtain ⟨rfl, hlater⟩ := List.cons.inj hsplit
      -- The next tip leads to what the old tip and the first head lead to.
      have hdrafted : ∀ d, first.move = .merges d → d ∈ all := by
        intro d hd
        refine hplanned (hrun.sameFrame.drafts ?_)
        rw [take_drafts, hd]
        exact List.mem_append_right _ (List.mem_singleton.2 rfl)
      obtain ⟨tip, htip₁, hleads⟩ :=
        (hm.among hdefinite hdrafts hstored).exists_tip hdefinite hdrafted
      have hleads : ∀ e ∈ candidates, w.Leads all project tip e.2 ↔
          w.Leads all project old e.2 ∨ w.Leads all project first.head.2 e.2 :=
        fun e he => hleads e.2 (htop first (by simp) e he)
      have hbefore₁ : ∀ e ∈ candidates, e.1 ∈ integrated ++ first.covered.map (·.1) →
          w.Leads all project tip e.2 := by
        intro e he hin
        rcases List.mem_append.1 hin with hold | hnew
        · exact (hleads e he).2 (.inl (hbefore e he hold))
        · obtain ⟨e', he', hid⟩ := List.mem_map.1 hnew
          have hfound := (hcomplete.mem_iff e').1 he'
          obtain rfl := List.inj_on_of_nodup_map hnodup hfound.1 he hid
          exact (hleads e' he).2 (.inr hfound.2.1)
      obtain ⟨running, hround, hreach⟩ := ih (by rw [take_newTip, htip, htip₁]) hsub hplanned
        (hm.stored hadds hstored) (fun r hr => htop r (List.mem_cons_of_mem _ hr)) hbefore₁ hlater
      refine ⟨running, hround, fun e he => ?_⟩
      rw [hreach e he, hleads e he, List.exists_mem_cons_iff, or_assoc]

/-! ### The plan of a segment -/

/-- What is said about the rounds in which an existing branch takes its heads.  What leads to what is meant
in the graph with all drafts. -/
structure Coverage (w : World) (project : ProjectName) (all : List Draft)
    (candidates heads : List (ChangeId × CommitId)) (old : CommitId) (rounds : List Round) : Prop where
  /-- There is one round for each head, in order. -/
  heads_eq : rounds.map (·.head) = heads
  /-- What is covered is covered in the order of the segment, and nothing twice. -/
  inOrder : ∀ r ∈ rounds, r.covered.Sublist candidates
  nodup : (candidates.map (·.1)).Nodup
  /-- A round changes nothing, or it covers its own head, and a merge commit announces what is covered. -/
  step : ∀ r ∈ rounds, r.move = .stays ∧ r.covered = [] ∨ r.head ∈ r.covered ∧
    (r.move = .advances ∨ ∃ d, r.move = .merges d ∧ Announces w all project r.covered d)
  /-- What the old tip leads to is not covered. -/
  accepted : ∀ e ∈ candidates, w.Leads all project old e.2 → ∀ r ∈ rounds, e ∉ r.covered
  /-- The head of a round leads to what is covered. -/
  led : ∀ r ∈ rounds, ∀ e ∈ r.covered, w.Leads all project r.head.2 e.2
  /-- What a head leads to and the old tip does not is covered once, in the round of the first such
  head. -/
  once : ∀ e ∈ candidates, ¬ w.Leads all project old e.2 →
    (∃ t ∈ heads, w.Leads all project t.2 e.2) →
    ∃ before r after, rounds = before ++ r :: after ∧ e ∈ r.covered ∧
      (∀ r' ∈ before ++ after, e ∉ r'.covered) ∧ w.Leads all project r.head.2 e.2 ∧
      ∀ b ∈ before, ¬ w.Leads all project b.head.2 e.2

/-- A round that changes something covers its own head. -/
theorem Coverage.head_mem_covered {heads : List (ChangeId × CommitId)} {old : CommitId}
    (hcoverage : Coverage w project all candidates heads old rounds) {r : Round} (hr : r ∈ rounds)
    (hmove : r.move ≠ .stays) : r.head ∈ r.covered := by
  rcases hcoverage.step r hr with ⟨hstays, -⟩ | ⟨hhead, -⟩
  · exact absurd hstays hmove
  · exact hhead

/-- A head that its own round covers is covered by no other round. -/
theorem Coverage.not_mem_of_head {heads : List (ChangeId × CommitId)} {old : CommitId}
    (hcoverage : Coverage w project all candidates heads old rounds) {r r' : Round}
    (hr : r ∈ rounds) (hr' : r' ∈ rounds) (hne : r ≠ r') (hhead : r.head ∈ r.covered) :
    r.head ∉ r'.covered := by
  intro hagain
  have hmem : r.head ∈ candidates := (hcoverage.inOrder r hr).subset hhead
  have hout : ¬ w.Leads all project old r.head.2 := fun hold =>
    hcoverage.accepted r.head hmem hold r hr hhead
  have hself : ∃ t ∈ heads, w.Leads all project t.2 r.head.2 :=
    ⟨r.head, hcoverage.heads_eq ▸ List.mem_map_of_mem hr, .refl⟩
  obtain ⟨before, first, after, rfl, -, hothers, -⟩ := hcoverage.once r.head hmem hout hself
  -- Both rounds cover the head, so both are the one that does.
  have honly : ∀ x ∈ before ++ first :: after, r.head ∈ x.covered → x = first := by
    intro x hx hcovered
    rcases List.mem_append.1 hx with hbefore | hrest
    · exact absurd hcovered (hothers x (List.mem_append_left _ hbefore))
    · rcases List.mem_cons.1 hrest with rfl | hafter
      · rfl
      · exact absurd hcovered (hothers x (List.mem_append_right _ hafter))
  exact hne ((honly r hr hhead).trans (honly r' hr' hagain).symm)

/-- Some member of a list is the first one with a property. -/
theorem exists_first_round {P : Round → Prop} (hsome : ∃ r ∈ rounds, P r) :
    ∃ before r after, rounds = before ++ r :: after ∧ P r ∧ ∀ b ∈ before, ¬ P b := by
  classical
  obtain ⟨r, hr⟩ := Option.isSome_iff_exists.1 (List.find?_isSome.2
    (by simpa using hsome) : (rounds.find? (decide <| P ·)).isSome)
  obtain ⟨hP, before, after, hsplit, hnone⟩ := List.find?_eq_some_iff_append.1 hr
  exact ⟨before, r, after, hsplit, by simpa using hP, fun b hb => by simpa using hnone b hb⟩

/-- The rounds in which an existing branch takes its heads cover what they should, where only the head's
own commit leads to a head. -/
theorem Rounds.coverage
    (hrounds : Rounds w project author committer candidates rounds [] drafts p drafts' p')
    {old : CommitId} (htip : p.newTip = some old) (hdefinite : w.Definite all project)
    (hsub : drafts' ⊆ all) (hplanned : p'.drafts ⊆ all)
    (hstored : drafts = [] ∨ w.AcceptedStored project) (hnodup : (candidates.map (·.1)).Nodup)
    (hheads : ∀ r ∈ rounds, r.head ∈ candidates)
    (htop : ∀ r ∈ rounds, ∀ e ∈ candidates, e.2 ≠ r.head.2 → ¬ w.Leads all project e.2 r.head.2) :
    Coverage w project all candidates (rounds.map (·.head)) old rounds := by
  have hround : ∀ {before r after}, rounds = before ++ r :: after →
      ∃ running, r.Complete w project all candidates running ∧
        ∀ e ∈ candidates, w.Leads all project running e.2 ↔
          w.Leads all project old e.2 ∨ ∃ b ∈ before, w.Leads all project b.head.2 e.2 :=
    hrounds.complete htip hdefinite hsub hplanned hstored hnodup htop fun e _ he => by cases he
  -- What a round covers, without the tip of the moment.
  have hcovered : ∀ {before r after}, rounds = before ++ r :: after → ∀ e, e ∈ r.covered ↔
      e ∈ candidates ∧ w.Leads all project r.head.2 e.2 ∧ ¬ w.Leads all project old e.2 ∧
        ∀ b ∈ before, ¬ w.Leads all project b.head.2 e.2 := by
    intro before r after hsplit e
    obtain ⟨running, hcomplete, hreach⟩ := hround hsplit
    rw [hcomplete.mem_iff]
    refine and_congr_right fun he => and_congr_right fun _ => ?_
    rw [hreach e he]
    push Not
    rfl
  refine ⟨rfl, fun r hr => ?_, hnodup, fun r hr => ?_, fun e he hold r hr hmem => ?_,
    fun r hr e hmem => ?_, fun e he hout hled => ?_⟩
  · obtain ⟨before, after, hsplit⟩ := List.append_of_mem hr
    obtain ⟨running, hcomplete, -⟩ := hround hsplit
    exact hcomplete.sublist
  · obtain ⟨before, after, hsplit⟩ := List.append_of_mem hr
    obtain ⟨running, hcomplete, -⟩ := hround hsplit
    refine hcomplete.step.imp_right fun ⟨hhead, hmove⟩ => ⟨?_, hmove⟩
    exact (hcomplete.mem_iff r.head).2 ⟨hheads r hr, .refl, hhead⟩
  · obtain ⟨before, after, hsplit⟩ := List.append_of_mem hr
    exact ((hcovered hsplit e).1 hmem).2.2.1 hold
  · obtain ⟨before, after, hsplit⟩ := List.append_of_mem hr
    exact ((hcovered hsplit e).1 hmem).2.1
  · simp only [List.mem_map, exists_exists_and_eq_and] at hled
    obtain ⟨before, r, after, hsplit, hleads, hfirst⟩ := exists_first_round hled
    refine ⟨before, r, after, hsplit, (hcovered hsplit e).2 ⟨he, hleads, hout, hfirst⟩, ?_, hleads,
      hfirst⟩
    intro r' hr' hmem
    rcases List.mem_append.1 hr' with hearlier | hlater
    · -- An earlier head does not lead to the commit.
      obtain ⟨before', after', rfl⟩ := List.append_of_mem hearlier
      have hsplit' : rounds = before' ++ r' :: (after' ++ r :: after) := by simp [hsplit]
      exact hfirst r' (by simp) ((hcovered hsplit' e).1 hmem).2.1
    · -- For a later round this head is an earlier one.
      obtain ⟨before', after', rfl⟩ := List.append_of_mem hlater
      have hsplit' : rounds = (before ++ r :: before') ++ r' :: after' := by simp [hsplit]
      exact ((hcovered hsplit' e).1 hmem).2.2.2 r (by simp) hleads

end BranchPlan

namespace Sample

open BranchPlan

/-- The rounds for the first two siblings: each covers its own head, and nothing else. -/
theorem rounds_of_twins {w : World} {all : List Draft} {rounds : List Round}
    (hcoverage : Coverage w "p" all (Segment.placed twins.changes) (Segment.placed twins.headChanges)
      root rounds)
    (hdrafts : twinsPlan.drafts = rounds.filterMap (·.move.draft?))
    (hforwards : twinsPlan.fastForwards = rounds.countP (·.move.isForward)) :
    ∃ r₁ r₂ : Round, rounds = [r₁, r₂] ∧ r₁.covered = [(1, x)] ∧ r₂.covered = [(2, y)] := by
  have hheads : rounds.map (·.head) = [(1, x), (2, y)] := hcoverage.heads_eq
  obtain ⟨r₁, rest, rfl, hhead₁, hrest⟩ := List.map_eq_cons_iff.1 hheads
  obtain ⟨r₂, others, rfl, hhead₂, hnil⟩ := List.map_eq_cons_iff.1 hrest
  obtain rfl := List.map_eq_nil_iff.1 hnil
  have hr₁ : r₁ ∈ [r₁, r₂] := List.mem_cons_self
  have hr₂ : r₂ ∈ [r₁, r₂] := List.mem_cons_of_mem r₁ List.mem_cons_self
  -- One round moves the branch forward and one drafts the merge commit, so neither leaves it.
  have hmoves : r₁.move ≠ .stays ∧ r₂.move ≠ .stays := by
    rw [twinsPlan] at hdrafts hforwards
    cases h₁ : r₁.move <;> cases h₂ : r₂.move <;>
      simp_all [BranchPlan.Move.draft?, BranchPlan.Move.isForward]
  have hcovers₁ := hcoverage.head_mem_covered hr₁ hmoves.1
  have hcovers₂ := hcoverage.head_mem_covered hr₂ hmoves.2
  have hne : r₁ ≠ r₂ := by
    rintro rfl
    rw [hhead₁] at hhead₂
    exact absurd hhead₂ (by decide)
  have hnot₁ := hcoverage.not_mem_of_head hr₁ hr₂ hne hcovers₁
  have hnot₂ := hcoverage.not_mem_of_head hr₂ hr₁ hne.symm hcovers₂
  rw [hhead₁] at hcovers₁ hnot₁
  rw [hhead₂] at hcovers₂ hnot₂
  -- The heads are all there is to cover, so a round covers one of four lists.
  have hcases : ∀ r ∈ [r₁, r₂], r.covered = [] ∨ r.covered = [(1, x)] ∨ r.covered = [(2, y)] ∨
      r.covered = [(1, x), (2, y)] := by
    intro r hr
    have hsub : r.covered.Sublist [(1, x), (2, y)] := hcoverage.inOrder r hr
    have hlisted : r.covered ∈ [[], [(1, x)], [(2, y)], [(1, x), (2, y)]] := List.mem_sublists.2 hsub
    simpa only [List.mem_cons, List.not_mem_nil, or_false] using hlisted
  refine ⟨r₁, r₂, rfl, ?_, ?_⟩
  · rcases hcases r₁ hr₁ with heq | heq | heq | heq <;> simp_all
  · rcases hcases r₂ hr₂ with heq | heq | heq | heq <;> simp_all

end Sample

namespace World

open BranchPlan

variable {w : World} {h h₀ h₁ h' : History} {policy : Policy} {actor : Account}

/-- **Every integrated change is announced once.**  Changes are put in order, some branches may be planned,
and then the plan for an existing branch of a segment is not given up.  Every change of the segment
with a commit that the old tip does not lead to and some head does is covered by exactly one step, the
one for the first such head; a change whose commit the old tip leads to is covered by none; and of what
is covered by a step, in the order of the segment and with the head of the step, the message tells if
the step drafts a merge commit.  At most one step does not.  Some head leads to every change, unless
two records of one number were put in order. -/
theorem announced_once (haddressed : w.ContentAddressed) (hacyclic : w.Acyclic) (hfresh : h₀.Fresh w)
    {changes : List Change} {b : Batch} (hbatch : w.Yields (Batch.order changes) h₀ b h₁)
    {earlier : List Segment} {plans : List BranchPlan}
    (hearlier : w.Yields (earlier.mapM (BranchPlan.compute policy actor)) h₁ plans h)
    {s : Segment} (hs : s ∈ b.segments) {p : BranchPlan}
    (hplan : w.Yields (BranchPlan.compute policy actor s) h p h')
    (hkept : p.state.problem? = none) {old : CommitId} (hold : p.oldTip = some old)
    (hfree : Set.InjOn Draft.id
      (w.storedDrafts ∪ {d | d ∈ (h'.view s.branch.project).created ++ p.drafts})) :
    (∃ rounds : List Round,
      Coverage w s.branch.project ((h'.view s.branch.project).created ++ p.drafts)
        (Segment.placed s.changes) (Segment.placed s.headChanges) old rounds ∧
      p.drafts = rounds.filterMap (·.move.draft?) ∧
      p.fastForwards = rounds.countP (·.move.isForward) ∧ p.fastForwards ≤ 1) ∧
    ((∀ c ∈ changes, ∀ c' ∈ changes, c.id = c'.id → c = c') →
      s.Dominated w ((h'.view s.branch.project).created ++ p.drafts)) := by
  obtain ⟨hfresh₁, hheaded⟩ := yields_batch_headed hfresh hacyclic hbatch
  obtain ⟨ds, hf, hstored⟩ := yields_computes hfresh₁ hearlier
  obtain ⟨ds', hf', -, -, ⟨problem, habort⟩ | ⟨tips, rounds, p', hbranches, rfl, hheads, hrounds⟩⟩ :=
    yields_compute_rounds hf hplan
  · rw [habort] at hkept
    cases hkept
  have hdefinite : w.Definite ((h'.view s.branch.project).created ++ p'.resolve.drafts)
      s.branch.project :=
    definite_of_injOn haddressed hfree Set.subset_union_left fun d hd => .inr hd
  obtain ⟨hnodup, htop, hdominated⟩ := hheaded s hs
  rw [← hf'.drafts] at hrounds
  have hhead : ∀ r ∈ rounds, r.head ∈ Segment.placed s.headChanges := fun r hr => by
    rw [← hheads]
    exact List.mem_map_of_mem hr
  have hcommits : rounds.map (·.head.2) = s.headCommits := by
    rw [Segment.headCommits, ← Segment.map_placed, ← hheads, List.map_map]
    rfl
  -- Commits that do not lead to a head do not do so among more drafts, because all commits behind
  -- them are stored.
  have hnot : ∀ t ∈ Segment.placed s.headChanges, ∀ e ∈ Segment.placed s.changes, e.2 ≠ t.2 →
      ¬ w.Leads ((h'.view s.branch.project).created ++ p'.resolve.drafts) s.branch.project e.2 t.2 := by
    intro t ht e he hne hleads
    obtain ⟨hknown, hout⟩ := htop t ht e he hne
    exact hout (hknown.leads_of_more hdefinite (List.nil_subset _) hleads)
  have hcoverage := hrounds.coverage (hrounds.moves.headsTaken.sameFrame.oldTip.symm.trans hold)
    hdefinite (List.subset_append_left _ _) (List.subset_append_right _ _) (hstored _) hnodup
    (fun r hr => s.placed_headChanges_subset (hhead r hr)) (fun r hr => hnot _ (hhead r hr))
  have hchain := hrounds.moves.mergeChain rfl ⟨rfl, rfl, rfl⟩ hdefinite
    (List.subset_append_left _ _) (List.subset_append_right _ _) (hstored _) (by
      intro a ha c hc hne hleads
      rw [hcommits] at ha hc
      obtain ⟨hknown, hout⟩ := htop.headsApart a ha c hc hne
      exact hout (hknown.leads_of_more hdefinite (List.nil_subset _) hleads))
  rw [hheads] at hcoverage
  refine ⟨⟨rounds, hcoverage, ?_, ?_, hchain.fastForwards_le⟩, fun hsame e he => ?_⟩
  · rw [hchain.drafts_eq, List.filterMap_map]
    rfl
  · rw [hchain.fastForwards_eq, List.countP_map]
    rfl
  · obtain ⟨t, ht, hleads⟩ := hdominated hsame e he
    exact ⟨t, ht, hleads.mono (List.nil_subset _)⟩

/-- The plan of the first two siblings covers either change once: each in the round of its own head. -/
theorem siblings_announced_once :
    let w := Sample.siblings.world
    let h := History.start w.reach
    let changes := [Sample.change 1 "p" Sample.x, Sample.change 2 "p" Sample.y,
      Sample.change 3 "q" Sample.z]
    let b := Sample.siblings.plan.batch
    let s := Sample.twins
    let p := Sample.twinsPlan
    w.ContentAddressed ∧ w.Acyclic ∧ h.Fresh w ∧
      (∀ c ∈ changes, ∀ c' ∈ changes, c.id = c'.id → c = c') ∧ s ∈ b.segments ∧
      p.state.problem? = none ∧ p.oldTip = some Sample.root ∧
      ∃ h₁ h', w.Yields (Batch.order changes) h b h₁ ∧
        w.Yields (List.mapM (BranchPlan.compute Sample.policy Sample.actor) []) h₁ [] h₁ ∧
        w.Yields (BranchPlan.compute Sample.policy Sample.actor s) h₁ p h' ∧
        Set.InjOn Draft.id
          (w.storedDrafts ∪ {d | d ∈ (h'.view s.branch.project).created ++ p.drafts}) ∧
        s.Dominated w ((h'.view s.branch.project).created ++ p.drafts) ∧
        ∃ r₁ r₂ : Round,
          Coverage w s.branch.project ((h'.view s.branch.project).created ++ p.drafts)
            (Segment.placed s.changes) (Segment.placed s.headChanges) Sample.root [r₁, r₂] ∧
          r₁.covered = [(1, Sample.x)] ∧ r₂.covered = [(2, Sample.y)] ∧
          p.drafts = [r₁, r₂].filterMap (·.move.draft?) := by
  intro w h changes b s p
  obtain ⟨h₁, h', hbatch, hplan, hcreated⟩ := Sample.exists_planTwins
  have hfresh : h.Fresh w := History.faithful_start w _
  have hsame : ∀ c ∈ changes, ∀ c' ∈ changes, c.id = c'.id → c = c' := by decide +kernel
  have hs : s ∈ b.segments := by decide +kernel
  have hnone : w.Yields (List.mapM (BranchPlan.compute Sample.policy Sample.actor) []) h₁ [] h₁ :=
    yields_pure.2 ⟨rfl, rfl⟩
  have hfree : Set.InjOn Draft.id
      (w.storedDrafts ∪ {d | d ∈ (h'.view s.branch.project).created ++ p.drafts}) := by
    refine Sample.siblings_collisionFree.mono (Set.union_subset_union_right _ fun d hd => ?_)
    have hd : d ∈ (h'.view "p").created ++ [Sample.merge] := hd
    rw [hcreated] at hd
    exact ⟨p, by decide +kernel, by simpa [p, Sample.twinsPlan] using hd⟩
  obtain ⟨⟨rounds, hcoverage, hdrafts, hforwards, -⟩, hdominated⟩ :=
    announced_once Sample.siblings.contentAddressed Sample.siblings.acyclic hfresh hbatch hnone hs
      hplan rfl rfl hfree
  obtain ⟨r₁, r₂, rfl, hfirst, hsecond⟩ := Sample.rounds_of_twins hcoverage hdrafts hforwards
  exact ⟨Sample.siblings.contentAddressed, Sample.siblings.acyclic, hfresh, hsame, hs, rfl, rfl, h₁,
    h', hbatch, hnone, hplan, hfree, hdominated hsame, r₁, r₂, hcoverage, hfirst, hsecond, hdrafts⟩

end World

namespace Sample

/-- In the project of the siblings, the first sibling leads to itself and to the first commit only. -/
theorem not_leads_y : ¬ siblings.world.Leads [] "p" root y ∧ ¬ siblings.world.Leads [] "p" x y := by
  have hroot : siblings.world.commit? "p" root = some first := by decide +kernel
  have hx : siblings.world.commit? "p" x = some (second root "x" x) := by decide +kernel
  refine ⟨fun hleads => ?_, fun hleads => ?_⟩
  · exact absurd (hleads.eq_of_no_parents hroot rfl) (by decide)
  · exact absurd (eq_or_eq_root_of_leads hx hleads) (by decide)

/-- Two records of one number, and a change that is built on the first of them. -/
def doubled : List Change := [change 1 "p" root, change 1 "p" y, change 2 "p" x]

/-- The first record is not in the segment, but because of it the other one is not a head. -/
def doubledSegment : Segment := ⟨branch "p", [change 1 "p" y, change 2 "p" x], [2]⟩

def doubledPlan : BranchPlan where
  branch := branch "p"
  strategy := .mergeIfNecessary
  oldTip := some root
  newTip := some x
  changes := [1, 2]
  merges := []
  fastForwards := 1
  state := .resolved .fastForward

/-- The records are ordered, and the branch is planned. -/
def planDoubled : Reading (Batch × BranchPlan) := do
  let b ← Batch.order doubled
  let p ← BranchPlan.compute policy actor doubledSegment
  pure (b, p)

theorem exists_planDoubled : ∃ h₁ h',
    siblings.world.Yields (Batch.order doubled) (.start siblings.world.reach) ⟨[doubledSegment]⟩ h₁ ∧
    siblings.world.Yields (BranchPlan.compute policy actor doubledSegment) h₁ doubledPlan h' := by
  have hrun : (Program.result siblings.world (planDoubled (.start siblings.world.reach))).map (·.1) =
      some (.ok (⟨[doubledSegment]⟩, doubledPlan)) := by decide +kernel
  obtain ⟨⟨r, h'⟩, hresult, rfl⟩ := Option.map_eq_some_iff.1 hrun
  have hy : siblings.world.Yields planDoubled (.start siblings.world.reach)
      (⟨[doubledSegment]⟩, doubledPlan) h' :=
    Program.mayCome_of_result (shows_answer fun _ _ => trivial) hresult
  simp only [planDoubled, yields_bind, yields_pure, Prod.mk.injEq] at hy
  obtain ⟨b, h₁, hbatch, p, h₂, hplan, ⟨rfl, rfl⟩, rfl⟩ := hy
  exact ⟨h₁, h', hbatch, hplan⟩

end Sample

namespace World

/-- The merge of the siblings brings in the second change, whose number its message does not give.  And
where two records of one number are put in order, the second one can stand in the segment although
neither the old tip nor any head leads to its commit, so that no step covers it. -/
theorem siblings_number_untold :
    let w := Sample.siblings.world
    w.ContentAddressed ∧ w.Acyclic ∧
      (∃ h₁ h', w.Yields (Batch.order [Sample.change 1 "p" Sample.x, Sample.change 2 "p" Sample.y,
          Sample.change 3 "q" Sample.z]) (.start w.reach) Sample.siblings.plan.batch h₁ ∧
        Sample.twins ∈ Sample.siblings.plan.batch.segments ∧
        w.Yields (BranchPlan.compute Sample.policy Sample.actor Sample.twins) h₁ Sample.twinsPlan h' ∧
        Sample.twinsPlan.state.problem? = none ∧ Sample.twinsPlan.oldTip = some Sample.root ∧
        (2, Sample.y) ∈ Segment.placed Sample.twins.changes ∧
        (∀ d ∈ Sample.twinsPlan.drafts, d.parents = [Sample.x, Sample.y] ∧
          '2' ∉ d.message.toList)) ∧
      (∃ h₁ h', w.Yields (Batch.order Sample.doubled) (.start w.reach) ⟨[Sample.doubledSegment]⟩ h₁ ∧
        w.Yields (BranchPlan.compute Sample.policy Sample.actor Sample.doubledSegment) h₁
          Sample.doubledPlan h' ∧
        Sample.doubledPlan.state.problem? = none ∧ Sample.doubledPlan.oldTip = some Sample.root ∧
        (1, Sample.y) ∈ Segment.placed Sample.doubledSegment.changes ∧
        Segment.placed Sample.doubledSegment.headChanges = [(2, Sample.x)]) ∧
      ¬ w.Leads [] "p" Sample.root Sample.y ∧ ¬ w.Leads [] "p" Sample.x Sample.y := by
  intro w
  obtain ⟨h₁, h', hbatch, hplan, -⟩ := Sample.exists_planTwins
  obtain ⟨g₁, g', hbatch', hplan'⟩ := Sample.exists_planDoubled
  refine ⟨Sample.siblings.contentAddressed, Sample.siblings.acyclic, ⟨h₁, h', hbatch, ?_, hplan, rfl,
    rfl, ?_, ?_⟩, ⟨g₁, g', hbatch', hplan', rfl, rfl, ?_, ?_⟩, Sample.not_leads_y⟩
  all_goals decide +kernel

end World
end Landing
