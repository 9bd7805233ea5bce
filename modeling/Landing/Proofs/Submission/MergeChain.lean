import Landing.Proofs.Submission.Integration

/-!
# The chain of merge commits of a branch

The heads of a segment are apart: of two heads at different commits neither leads to the
other (`World.yields_order_apart`).  So once a head was taken no later one can be reached
by fast-forward, for the tip leads to the head that was taken: only the move for the
first head can be a fast-forward (`BranchPlan.Chain.isForward_eq_false`).  All other
moves leave the tip where it is or draft a merge commit whose first parent is the tip
before it, and following first parents from the new tip goes back through all of them
(`BranchPlan.Chain.back`).

While a branch is planned it is asked among the drafts of the moment what leads to
what.  `BranchPlan.Moves.chain` says that the answers are right in the graph with all
drafts as well, for where an answer was negative everything behind the commit was
known, and a merge commit drafted later on is behind nothing that is known.
`World.merge_chain` puts this together for the plan of a segment that
comes from the ordering of changes, after any other branches were planned.
-/

namespace Landing

open World

/-! ### Heads are apart -/

namespace Segment

variable {w : World} {branch : Branch} {members : List Change} {s : Segment}
variable {below : List (ChangeId × ChangeId)} {t : Change}

/-- The current commits of the heads, in order. -/
def headCommits (s : Segment) : List CommitId := s.headChanges.filterMap (·.currentCommit?)

/-- Of two heads at different commits neither leads to the other, and everything behind them is
stored. -/
def HeadsApart (w : World) (s : Segment) : Prop :=
  ∀ a ∈ s.headCommits, ∀ b ∈ s.headCommits, a ≠ b →
    w.Resolvable [] s.branch.project b ∧ ¬ w.Leads [] s.branch.project b a

/-- No commit of the segment but the head's own leads to a head, and everything behind it is stored. -/
def Topmost (w : World) (s : Segment) : Prop :=
  ∀ t ∈ placed s.headChanges, ∀ e ∈ placed s.changes, e.2 ≠ t.2 →
    w.Resolvable [] s.branch.project e.2 ∧ ¬ w.Leads [] s.branch.project e.2 t.2

/-- The heads are among the changes. -/
theorem placed_headChanges_subset (s : Segment) : placed s.headChanges ⊆ placed s.changes := by
  intro e he
  obtain ⟨t, ht, hte⟩ := mem_placed.1 he
  exact mem_placed.2 ⟨t, (List.mem_filter.1 ht).1, hte⟩

theorem Topmost.headsApart (htop : s.Topmost w) : s.HeadsApart w := by
  intro a ha b hb hne
  rw [headCommits, ← map_placed] at ha hb
  obtain ⟨t, ht, rfl⟩ := List.mem_map.1 ha
  obtain ⟨u, hu, rfl⟩ := List.mem_map.1 hb
  exact htop t ht u (placed_headChanges_subset s hu) (Ne.symm hne)

/-- A head is a member that is found under its number, and no pair has it below. -/
theorem mem_headChanges_arranged (ht : t ∈ (arranged branch members below).headChanges) :
    (byId members).get? t.id = some t ∧ t ∈ members ∧ ∀ e ∈ below, e.1 ≠ t.id := by
  obtain ⟨hmem, hhead⟩ := List.mem_filter.1 ht
  have hget := mem_changes_arranged.1 hmem
  refine ⟨hget, (mem_of_get?_byId hget).1, fun e he hid => ?_⟩
  have hnot := (List.mem_filter.1 (List.contains_iff_mem.1 hhead)).2
  rw [Bool.not_eq_true', List.any_eq_false] at hnot
  exact hnot e he (beq_iff_eq.2 hid)

end Segment

namespace World

variable {w : World} {h h' : History}

/-- Ordering the changes of one branch, of all commits only the head's own is found to lead to a head. -/
theorem yields_order_topmost (hf : h.Fresh w) {branch : Branch} {members : List Change} {s : Segment}
    (hy : w.Yields (Segment.order branch members) h s h') : h'.Fresh w ∧ s.Topmost w := by
  obtain ⟨below, hbelow, rfl⟩ := Segment.yields_order hy
  obtain ⟨hf', -, hcomplete⟩ := Segment.yields_pairs (I := fun h => h.Fresh w)
    (P := fun lower upper b => w.Reveals [] branch.project upper lower b)
    (fun lower upper h b h' hI hb => yields_isAncestor_reveals hI hb) hf hbelow
  refine ⟨hf', fun a ha e he hne => ?_⟩
  obtain ⟨t, ht, htid, hta⟩ := Segment.mem_placed.1 ha
  obtain ⟨u, hu, huid, hub⟩ := Segment.mem_placed.1 he
  obtain ⟨hgett, htm, hnot⟩ := Segment.mem_headChanges_arranged ht
  have hgetu := Segment.mem_changes_arranged.1 hu
  -- Different commits belong to different changes, which have different numbers.
  have hid : a.1 ≠ e.1 := by
    intro heq
    rw [← htid, ← huid] at heq
    rw [heq, hgetu] at hgett
    cases hgett
    rw [hta] at hub
    exact hne (Option.some.inj hub).symm
  rcases hcomplete a (Segment.mem_placed.2 ⟨t, htm, htid, hta⟩) e
    (Segment.mem_placed.2 ⟨u, (Segment.mem_of_get?_byId hgetu).1, huid, hub⟩) hid (Ne.symm hne)
    with hpair | htold
  · exact absurd htid.symm (hnot _ hpair)
  · exact (htold (settled_nil w branch.project)).2

/-- Ordering the changes of one branch finds heads that are apart. -/
theorem yields_order_apart (hf : h.Fresh w) {branch : Branch} {members : List Change} {s : Segment}
    (hy : w.Yields (Segment.order branch members) h s h') : h'.Fresh w ∧ s.HeadsApart w :=
  (yields_order_topmost hf hy).imp_right Segment.Topmost.headsApart

/-- In every segment of a batch the heads are apart. -/
theorem yields_batch_apart (hf : h.Fresh w) {changes : List Change} {b : Batch}
    (hy : w.Yields (Batch.order changes) h b h') :
    h'.Fresh w ∧ ∀ s ∈ b.segments, s.HeadsApart w := by
  simp only [Batch.order, yields_bind, yields_pure] at hy
  obtain ⟨segments, _, hsegments, rfl, rfl⟩ := hy
  obtain ⟨hf', hall⟩ := yields_mapM (I := fun h => h.Fresh w) (R := fun _ s => s.HeadsApart w)
    (fun e _ h s h' hI hs => yields_order_apart hI hs) hf hsegments
  refine ⟨hf', fun s hs => ?_⟩
  obtain ⟨-, -, hapart⟩ := exists_left_of_forall₂ hall hs
  exact hapart

/-- The first parent of a known commit. -/
def FirstParent (w : World) (drafts : List Draft) (project : ProjectName)
    (child parent : CommitId) : Prop :=
  ∃ c, w.Known drafts project child c ∧ c.parents.head? = some parent

end World

/-! ### Chains of moves -/

namespace BranchPlan

variable {w : World} {project : ProjectName} {commit : CommitId} {commits : List CommitId}
variable {all drafts drafts' : List Draft} {p p' : BranchPlan} {m : Move} {moves : List Move}
variable {strategy : Strategy} {author committer : Signature} {tip last : Option CommitId}

/-- The move is the one that the strategy takes for the head at `commit`, and what it drafts is a merge
commit of the tip and the head. -/
structure Move.Due (w : World) (project : ProjectName) (all : List Draft) (strategy : Strategy)
    (author committer : Signature) (tip : Option CommitId) (commit : CommitId) (m : Move) : Prop where
  begins_iff : m = .begins ↔ tip = none
  stays_iff : m = .stays ↔ ∃ running, tip = some running ∧ w.Leads all project running commit
  advances_iff : m = .advances ↔ ∃ running, tip = some running ∧
    ¬ w.Leads all project running commit ∧ w.Leads all project commit running ∧
    strategy ≠ .mergeAlways
  merges_iff : (∃ d, m = .merges d) ↔ ∃ running, tip = some running ∧
    ¬ w.Leads all project running commit ∧
    (strategy = .mergeAlways ∨
      strategy = .mergeIfNecessary ∧ ¬ w.Leads all project commit running)
  drafted : ∀ d, m = .merges d → ∃ running, tip = some running ∧ d.parents = [running, commit] ∧
    d.author = author ∧ d.committer = committer

/-- One move for each of the listed commits, from the first tip to the last one. -/
inductive Chain (R : Option CommitId → CommitId → Move → Prop) :
    Option CommitId → List CommitId → List Move → Option CommitId → Prop
  | nil {tip : Option CommitId} : Chain R tip [] [] tip
  | cons {tip last : Option CommitId} {commit : CommitId} {commits : List CommitId} {m : Move}
    {moves : List Move} : R tip commit m → Chain R (m.tip tip commit) commits moves last →
    Chain R tip (commit :: commits) (m :: moves) last

/-- The strategy chooses the move, knowing which commits lead to which. -/
abbrev Move.ChosenAmong (w : World) (project : ProjectName) (all : List Draft) (strategy : Strategy)
    (author committer : Signature) (tip : Option CommitId) (commit : CommitId) (m : Move) : Prop :=
  m.Chosen (w.Leads all project) (fun x y => ¬ w.Leads all project x y) strategy author committer
    commit tip

theorem Chain.mono {R S : Option CommitId → CommitId → Move → Prop}
    (hchain : Chain R tip commits moves last) (hRS : ∀ tip commit m, R tip commit m → S tip commit m) :
    Chain S tip commits moves last := by
  induction hchain with
  | nil => exact .nil
  | cons hm _ ih => exact .cons (hRS _ _ _ hm) ih

theorem Move.ChosenAmong.due (hm : m.ChosenAmong w project all strategy author committer tip commit) :
    m.Due w project all strategy author committer tip commit := by
  cases hm with
  | begins => constructor <;> simp
  | stays hleads => constructor <;> simp [hleads]
  | advances hnot hleads hstrategy => constructor <;> simp [hnot, hleads, hstrategy]
  | merges hnot hstrategy hparents hauthor hcommitter =>
    constructor
    · simp
    · simp [hnot]
    · rcases hstrategy with rfl | ⟨rfl, hahead⟩ <;> simp [*]
    · simp [hnot, hstrategy]
    · rintro d ⟨⟩
      exact ⟨_, rfl, hparents, hauthor, hcommitter⟩

/-! ### What is found out stays true -/

/-- Everything behind a commit was known when it turned out not to lead to another one, so later drafts
are not behind it. -/
theorem not_leads_of_reveals {x y : CommitId} (htold : w.Reveals drafts project x y false)
    (hdefinite : w.Definite all project) (hsub : drafts ⊆ all)
    (hstored : drafts = [] ∨ w.AcceptedStored project) : ¬ w.Leads all project x y := by
  intro hleads
  obtain ⟨-, hknown, hnot⟩ := htold ⟨hdefinite.mono hsub, hstored⟩
  exact hnot (hknown.leads_of_more hdefinite hsub hleads)

/-- What a strategy chooses among some drafts it chooses among all of them. -/
theorem Move.Chosen.among {tip : Option CommitId}
    (hm : m.Chosen (w.Leads drafts project) (fun x y => w.Reveals drafts project x y false) strategy
      author committer commit tip)
    (hdefinite : w.Definite all project) (hsub : drafts ⊆ all)
    (hstored : drafts = [] ∨ w.AcceptedStored project) :
    m.ChosenAmong w project all strategy author committer tip commit := by
  have hnot : ∀ {x y}, w.Reveals drafts project x y false → ¬ w.Leads all project x y :=
    fun htold => not_leads_of_reveals htold hdefinite hsub hstored
  cases hm with
  | begins => exact .begins
  | stays hleads => exact .stays (hleads.mono hsub)
  | advances hbehind hleads hstrategy =>
    exact .advances (hnot hbehind) (hleads.mono hsub) hstrategy
  | merges hbehind hstrategy hparents hauthor hcommitter =>
    refine .merges (hnot hbehind) ?_ hparents hauthor hcommitter
    exact hstrategy.imp_right fun h => ⟨h.1, hnot h.2⟩

/-- The drafts of the project only grow. -/
theorem Move.Adds.subset (hadds : m.Adds w project drafts drafts') : drafts ⊆ drafts' := by
  cases m with
  | merges d =>
    rcases hadds with rfl | ⟨rfl, -⟩
    · exact List.subset_append_left _ _
    · exact List.Subset.refl _
  | _ =>
    obtain rfl : drafts' = drafts := hadds
    exact List.Subset.refl _

/-- The moves of a branch are a chain among all drafts. -/
theorem Moves.chain
    (hmoves : Moves w project author committer commits moves drafts p drafts' p')
    (hdefinite : w.Definite all project) (hsub : drafts' ⊆ all)
    (hstored : drafts = [] ∨ w.AcceptedStored project) :
    Chain (Move.ChosenAmong w project all p.strategy author committer) p.newTip commits moves
      p'.newTip := by
  induction hmoves with
  | nil => exact .nil
  | cons hm hadds hrest ih =>
    have hsub₁ := List.Subset.trans hrest.headsTaken.grows.1 hsub
    have hchain := ih hsub (hm.stored hadds hstored)
    rw [take_strategy, take_newTip] at hchain
    exact .cons (hm.among hdefinite (List.Subset.trans hadds.subset hsub₁) hstored) hchain

/-- The moves account for the drafts and the fast-forwards of the plan. -/
theorem Moves.account
    (hmoves : Moves w project author committer commits moves drafts p drafts' p') :
    p'.strategy = p.strategy ∧ p'.drafts = p.drafts ++ moves.filterMap Move.draft? ∧
      p'.fastForwards = p.fastForwards + moves.countP Move.isForward := by
  induction hmoves with
  | nil => simp
  | @cons _ _ m moves _ _ _ _ _ _ _ _ ih =>
    obtain ⟨hstrategy, hdrafts, hforwards⟩ := ih
    refine ⟨by rw [hstrategy, take_strategy], ?_, ?_⟩
    · rw [hdrafts, take_drafts, List.append_assoc]
      cases m <;> simp [Move.draft?, List.filterMap_cons]
    · rw [hforwards, take_fastForwards, List.countP_cons]
      cases m <;> simp [Move.isForward] <;> omega

/-! ### Only the first move can be a fast-forward -/

/-- The merge commits that are drafted by the moves. -/
theorem mem_of_draftsOf_subset {d : Draft}
    (hsub : (Move.merges d :: moves).filterMap Move.draft? ⊆ all) :
    d ∈ all ∧ moves.filterMap Move.draft? ⊆ all := by
  rw [List.filterMap_cons_some (f := Move.draft?) (b := d) rfl] at hsub
  exact List.cons_subset.1 hsub

/-- Once the tip leads to a head that no other head leads to, no head is reached by fast-forward. -/
theorem Chain.isForward_eq_false_of_leads
    (hchain : Chain (Move.ChosenAmong w project all strategy author committer) tip commits moves last)
    (hdrafts : moves.filterMap Move.draft? ⊆ all) {running a : CommitId} (htip : tip = some running)
    (hleads : w.Leads all project running a)
    (hapart : ∀ b ∈ commits, a ≠ b → ¬ w.Leads all project b a) :
    ∀ m ∈ moves, m.isForward = false := by
  induction hchain generalizing running with
  | nil => simp
  | @cons _ _ b commits m moves hm _ ih =>
    have hlater : ∀ b ∈ commits, a ≠ b → ¬ w.Leads all project b a :=
      fun b hb => hapart b (List.mem_cons_of_mem _ hb)
    cases hm with
    | begins => cases htip
    | stays => exact List.forall_mem_cons.2 ⟨rfl, ih hdrafts htip hleads hlater⟩
    | advances hnot hforward =>
      -- The head leads to the tip and so to the head before, which is another one.
      cases htip
      have hback := hforward.trans hleads
      by_cases hsame : a = b
      · exact absurd (hsame ▸ hleads) hnot
      · exact absurd hback (hapart b (by simp) hsame)
    | @merges _ d _ _ hparents =>
      cases htip
      obtain ⟨hd, hrest⟩ := mem_of_draftsOf_subset hdrafts
      have htop : w.Leads all project d.id running := (leads_of_parents hd hparents).1
      exact List.forall_mem_cons.2 ⟨rfl, ih hrest rfl (htop.trans hleads) hlater⟩

/-- Where the heads are apart only the first move can be a fast-forward. -/
theorem Chain.isForward_eq_false
    (hchain : Chain (Move.ChosenAmong w project all strategy author committer) tip commits moves last)
    (hdrafts : moves.filterMap Move.draft? ⊆ all)
    (hapart : ∀ a ∈ commits, ∀ b ∈ commits, a ≠ b → ¬ w.Leads all project b a) :
    ∀ m ∈ moves.tail, m.isForward = false := by
  cases hchain with
  | nil => simp
  | @cons _ _ a commits m moves hm hrest =>
    -- Whatever the first move is, the tip leads to the first head afterwards.
    have hlater : ∀ b ∈ commits, a ≠ b → ¬ w.Leads all project b a :=
      fun b hb => hapart a (by simp) b (List.mem_cons_of_mem _ hb)
    cases hm with
    | begins => exact hrest.isForward_eq_false_of_leads hdrafts rfl .refl hlater
    | stays hleads => exact hrest.isForward_eq_false_of_leads hdrafts rfl hleads hlater
    | advances => exact hrest.isForward_eq_false_of_leads hdrafts rfl .refl hlater
    | merges _ _ hparents =>
      obtain ⟨hd, hsub⟩ := mem_of_draftsOf_subset hdrafts
      exact hrest.isForward_eq_false_of_leads hsub rfl (leads_of_parents hd hparents).2 hlater

/-! ### The way back along first parents -/

/-- Following first parents from the tip, one comes through the listed merge commits, the last one
first, and then to the base. -/
def Back (w : World) (project : ProjectName) (all : List Draft) (base : Option CommitId)
    (merges : List CommitId) (tip : Option CommitId) : Prop :=
  (merges.reverse ++ base.toList).IsChain (w.FirstParent all project) ∧
    (merges.reverse ++ base.toList).head? = tip

theorem back_nil : Back w project all tip [] tip := by
  cases tip <;> simp [Back]

/-- One more merge commit right above the base. -/
theorem Back.cons {running merge : CommitId} {merges : List CommitId}
    (hback : Back w project all (some merge) merges tip)
    (hparent : w.FirstParent all project merge running) :
    Back w project all (some running) (merge :: merges) tip := by
  obtain ⟨hchain, hhead⟩ := hback
  constructor
  · simp only [Option.toList_some, List.reverse_cons, List.append_assoc, List.singleton_append]
    exact List.isChain_append_cons_cons.2 ⟨hchain, hparent, List.isChain_singleton running⟩
  · rw [← hhead]
    simp

/-- Without fast-forwards the way back comes to the first tip. -/
theorem Chain.back_of_isForward_eq_false
    (hchain : Chain (Move.ChosenAmong w project all strategy author committer) tip commits moves last)
    (hdrafts : moves.filterMap Move.draft? ⊆ all) (hforward : ∀ m ∈ moves, m.isForward = false) :
    Back w project all tip ((moves.filterMap Move.draft?).map Draft.id) last := by
  induction hchain with
  | nil => exact back_nil
  | cons hm _ ih =>
    obtain ⟨hfirst, hlater⟩ := List.forall_mem_cons.1 hforward
    cases hm with
    | begins => cases hfirst
    | stays => exact ih hdrafts hlater
    | advances => cases hfirst
    | @merges running d _ _ hparents =>
      obtain ⟨hd, hsub⟩ := mem_of_draftsOf_subset hdrafts
      refine (ih hsub hlater).cons ⟨d.commit, .inr ⟨d, hd, rfl, rfl⟩, ?_⟩
      show d.parents.head? = some running
      rw [hparents]
      rfl

/-- Where only the first move can be a fast-forward, the way back comes to the first tip, or to the
first head if this is where the tip was moved to. -/
theorem Chain.back
    (hchain : Chain (Move.ChosenAmong w project all strategy author committer) tip commits moves last)
    (hdrafts : moves.filterMap Move.draft? ⊆ all)
    (hforward : ∀ m ∈ moves.tail, m.isForward = false) :
    ∃ base, Back w project all base ((moves.filterMap Move.draft?).map Draft.id) last ∧
      (moves.countP Move.isForward = 0 ∧ base = tip ∨
        moves.countP Move.isForward = 1 ∧ base = commits.head?) := by
  cases hchain with
  | nil => exact ⟨tip, back_nil, .inl ⟨rfl, rfl⟩⟩
  | @cons _ _ commit commits m moves hm hrest =>
    have hcount : moves.countP Move.isForward = 0 :=
      List.countP_eq_zero.2 fun m hm => by simp [hforward m hm]
    rw [List.countP_cons, hcount]
    cases hfirst : m.isForward with
    | true =>
      -- The tip is at the first head then, and all that follows is built on it.
      have hmoved : m.tip tip commit = some commit ∧ m.draft? = none := by
        cases m <;> first | exact ⟨rfl, rfl⟩ | cases hfirst
      obtain ⟨htip, hnone⟩ := hmoved
      rw [List.filterMap_cons_none hnone] at hdrafts ⊢
      rw [htip] at hrest
      exact ⟨some commit, hrest.back_of_isForward_eq_false hdrafts hforward, .inr (by simp)⟩
    | false =>
      refine ⟨tip, (Chain.cons hm hrest).back_of_isForward_eq_false hdrafts ?_, .inl (by simp)⟩
      exact List.forall_mem_cons.2 ⟨hfirst, hforward⟩

/-! ### The plan of a segment -/

/-- What is said about the plan of a branch that takes the listed heads by the given moves.  What leads
to what is meant in the graph with all drafts. -/
structure MergeChain (w : World) (project : ProjectName) (all : List Draft)
    (author committer : Signature) (heads : List CommitId) (p : BranchPlan) (moves : List Move) :
    Prop where
  /-- Each head is taken as the strategy says, from the old tip to the new one. -/
  chain : Chain (Move.Due w project all p.strategy author committer) p.oldTip heads moves p.newTip
  /-- The merge commits are the drafted ones, in order. -/
  drafts_eq : p.drafts = moves.filterMap Move.draft?
  merges_eq : p.merges = p.drafts.map Draft.id
  fastForwards_eq : p.fastForwards = moves.countP Move.isForward
  /-- At most one head is reached by fast-forward, and before every merge commit. -/
  forward : ∀ m ∈ moves.tail, m.isForward = false
  fastForwards_le : p.fastForwards ≤ 1
  /-- The way back along first parents ends at the old tip, or at the first head after a
  fast-forward. -/
  back : ∃ base, Back w project all base p.merges p.newTip ∧
    (p.fastForwards = 0 ∧ base = p.oldTip ∨ p.fastForwards = 1 ∧ base = heads.head?)

/-- A plan whose moves start at the old tip is a chain of merge commits if the heads are apart. -/
theorem Moves.mergeChain {heads : List CommitId}
    (hmoves : Moves w project author committer heads moves drafts p drafts' p')
    (htip : p.newTip = p.oldTip) (hnone : p.drafts = [] ∧ p.merges = [] ∧ p.fastForwards = 0)
    (hdefinite : w.Definite all project) (hsub : drafts' ⊆ all) (hplanned : p'.drafts ⊆ all)
    (hstored : drafts = [] ∨ w.AcceptedStored project)
    (hapart : ∀ a ∈ heads, ∀ b ∈ heads, a ≠ b → ¬ w.Leads all project b a) :
    p'.resolve.MergeChain w project all author committer heads moves := by
  obtain ⟨hdrafts, hmerges, hforwards⟩ := hnone
  obtain ⟨hstrategy, hdrafted, hcount⟩ := hmoves.account
  rw [hdrafts, List.nil_append] at hdrafted
  rw [hforwards, Nat.zero_add] at hcount
  have hframe := hmoves.headsTaken.sameFrame
  have hnamed : p'.merges = p'.drafts.map Draft.id := hframe.merges (by rw [hdrafts, hmerges]; rfl)
  have hchain := hmoves.chain hdefinite hsub hstored
  rw [htip, ← hframe.oldTip, ← hstrategy] at hchain
  have hmoved : moves.filterMap Move.draft? ⊆ all := hdrafted ▸ hplanned
  have hforward := hchain.isForward_eq_false hmoved hapart
  obtain ⟨base, hback, hbase⟩ := hchain.back hmoved hforward
  rw [← hcount] at hbase
  rw [← hdrafted, ← hnamed] at hback
  have hle : p'.fastForwards ≤ 1 := by
    rcases hbase with ⟨hzero, -⟩ | ⟨hone, -⟩ <;> omega
  exact ⟨hchain.mono fun _ _ _ hm => hm.due, hdrafted, hnamed, hcount, hforward, hle, base, hback,
    hbase⟩

end BranchPlan

namespace World

open BranchPlan

variable {w : World} {h h₀ h₁ h' : History} {policy : Policy} {actor : Account}

/-- Planning branches keeps a history faithful, whatever comes of them, and the accepted commits of a
project with drafts are stored. -/
theorem yields_computes (hf : h.Fresh w) {segments : List Segment} {plans : List BranchPlan}
    (hy : w.Yields (segments.mapM (BranchPlan.compute policy actor)) h plans h') :
    ∃ ds, h'.Faithful w ds ∧ ∀ project, ds project = [] ∨ w.AcceptedStored project := by
  refine (yields_mapM (I := fun h => ∃ ds, h.Faithful w ds ∧
    ∀ project, ds project = [] ∨ w.AcceptedStored project) (R := fun _ _ => True)
    (fun s _ h p h' hI hp => ?_) ⟨_, hf, fun _ => .inl rfl⟩ hy).1
  obtain ⟨ds, hf, hstored⟩ := hI
  obtain ⟨ds', hf', hother, hstored', -⟩ := yields_compute_moves hf hp
  refine ⟨⟨ds', hf', fun project => ?_⟩, trivial⟩
  by_cases hproject : project = s.branch.project
  · subst hproject
    exact hstored' (hstored _)
  · rw [hother project hproject]
    exact hstored project

/-- **The chain of merge commits.**  Changes are put in order, some branches may be planned, and then the
branch of a segment is planned and its plan is not given up.  The heads are taken in order, from the
tip that was seen, and each as the strategy says: an unborn branch begins at its first head, a head
that the tip leads to changes nothing, and otherwise the tip is moved to the head or a merge commit of
both is drafted.  Only the first head can be one to which the tip moves, and the way back along first
parents goes through all merge commits. -/
theorem merge_chain (haddressed : w.ContentAddressed) (hfresh : h₀.Fresh w) {changes : List Change}
    {b : Batch} (hbatch : w.Yields (Batch.order changes) h₀ b h₁) {earlier : List Segment}
    {plans : List BranchPlan}
    (hearlier : w.Yields (earlier.mapM (BranchPlan.compute policy actor)) h₁ plans h)
    {s : Segment} (hs : s ∈ b.segments) {p : BranchPlan}
    (hplan : w.Yields (BranchPlan.compute policy actor s) h p h')
    (hkept : p.state.problem? = none)
    (hfree : Set.InjOn Draft.id
      (w.storedDrafts ∪ {d | d ∈ (h'.view s.branch.project).created ++ p.drafts})) :
    p.strategy = policy.strategyFor s.branch.project ∧
      (∃ tips, w.branches s.branch.project = .ok tips ∧
        p.oldTip = (tips.find? (·.1 == s.branch)).map (·.2)) ∧
      ∃ moves, p.MergeChain w s.branch.project
        ((h'.view s.branch.project).created ++ p.drafts) actor.ident policy.serverIdent
        s.headCommits moves := by
  obtain ⟨hfresh₁, hapart⟩ := yields_batch_apart hfresh hbatch
  obtain ⟨ds, hf, hstored⟩ := yields_computes hfresh₁ hearlier
  obtain ⟨ds', hf', -, -, ⟨problem, habort⟩ | ⟨tips, moves, p', hbranches, rfl, hmoves⟩⟩ :=
    yields_compute_moves hf hplan
  · rw [habort] at hkept
    cases hkept
  have hdefinite : w.Definite ((h'.view s.branch.project).created ++ p'.resolve.drafts)
      s.branch.project :=
    definite_of_injOn haddressed hfree Set.subset_union_left fun d hd => .inr hd
  rw [← hf'.drafts] at hmoves
  refine ⟨hmoves.account.1, ⟨tips, hbranches, hmoves.headsTaken.sameFrame.oldTip⟩, moves, ?_⟩
  refine hmoves.mergeChain rfl ⟨rfl, rfl, rfl⟩ hdefinite (List.subset_append_left _ _)
    (List.subset_append_right _ _) (hstored _) fun a ha b hb hne hleads => ?_
  -- Heads that are apart stay so, because all commits behind them are stored.
  obtain ⟨hknown, hnot⟩ := hapart s hs a ha b hb hne
  exact hnot (hknown.leads_of_more hdefinite (List.nil_subset _) hleads)

end World

namespace Sample

/-- The first two siblings. -/
def twins : Segment := ⟨branch "p", [change 1 "p" x, change 2 "p" y], [1, 2]⟩

/-- Their branch moves to the one and then to a merge commit of both. -/
def twinsPlan : BranchPlan where
  branch := branch "p"
  strategy := .mergeIfNecessary
  oldTip := some root
  newTip := some mergeId
  changes := [1, 2]
  merges := [mergeId]
  fastForwards := 1
  state := .resolved .merge
  drafts := [merge]

/-- The changes of the siblings are ordered, and the branch of the first two is planned. -/
def planTwins : Reading (Batch × BranchPlan × List Draft) := do
  let b ← Batch.order [change 1 "p" x, change 2 "p" y, change 3 "q" z]
  let p ← BranchPlan.compute policy actor twins
  pure (b, p, ((← get).view "p").created)

theorem yields_planTwins : ∃ h', siblings.world.Yields planTwins (.start siblings.world.reach)
    (siblings.plan.batch, twinsPlan, [merge]) h' := by
  have hrun : (Program.result siblings.world (planTwins (.start siblings.world.reach))).map (·.1) =
      some (.ok (siblings.plan.batch, twinsPlan, [merge])) := by decide +kernel
  obtain ⟨⟨r, h'⟩, hresult, rfl⟩ := Option.map_eq_some_iff.1 hrun
  exact ⟨h', Program.mayCome_of_result (shows_answer fun _ _ => trivial) hresult⟩

/-- First the changes are ordered and then the branch is planned. -/
theorem exists_planTwins : ∃ h₁ h',
    siblings.world.Yields (Batch.order [change 1 "p" x, change 2 "p" y, change 3 "q" z])
      (.start siblings.world.reach) siblings.plan.batch h₁ ∧
    siblings.world.Yields (BranchPlan.compute policy actor twins) h₁ twinsPlan h' ∧
    (h'.view "p").created = [merge] := by
  obtain ⟨h', hy⟩ := yields_planTwins
  simp only [planTwins, yields_bind, yields_get, yields_pure, Prod.mk.injEq] at hy
  obtain ⟨b, h₁, hbatch, p, h₂, hplan, h₃, h₄, ⟨rfl, rfl⟩, ⟨rfl, rfl, hcreated⟩, rfl⟩ := hy
  exact ⟨h₁, h', hbatch, hplan, hcreated.symm⟩

end Sample

namespace World

/-- The plan of the first two siblings is a chain with one merge commit. -/
theorem siblings_merge_chain :
    let w := Sample.siblings.world
    let h := History.start w.reach
    let changes := [Sample.change 1 "p" Sample.x, Sample.change 2 "p" Sample.y,
      Sample.change 3 "q" Sample.z]
    let b := Sample.siblings.plan.batch
    let s := Sample.twins
    let p := Sample.twinsPlan
    w.ContentAddressed ∧ h.Fresh w ∧ s ∈ b.segments ∧ p.state.problem? = none ∧
      ∃ h₁ h', w.Yields (Batch.order changes) h b h₁ ∧
        w.Yields (List.mapM (BranchPlan.compute Sample.policy Sample.actor) []) h₁ [] h₁ ∧
        w.Yields (BranchPlan.compute Sample.policy Sample.actor s) h₁ p h' ∧
        Set.InjOn Draft.id
          (w.storedDrafts ∪ {d | d ∈ (h'.view s.branch.project).created ++ p.drafts}) ∧
        ∃ moves, p.MergeChain w s.branch.project
          ((h'.view s.branch.project).created ++ p.drafts) Sample.actor.ident
          Sample.policy.serverIdent s.headCommits moves := by
  intro w h changes b s p
  obtain ⟨h₁, h', hbatch, hplan, hcreated⟩ := Sample.exists_planTwins
  have hfresh : h.Fresh w := History.faithful_start w _
  have hs : s ∈ b.segments := by decide +kernel
  have hnone : w.Yields (List.mapM (BranchPlan.compute Sample.policy Sample.actor) []) h₁ [] h₁ :=
    yields_pure.2 ⟨rfl, rfl⟩
  have hfree : Set.InjOn Draft.id
      (w.storedDrafts ∪ {d | d ∈ (h'.view s.branch.project).created ++ p.drafts}) := by
    refine Sample.siblings_collisionFree.mono (Set.union_subset_union_right _ fun d hd => ?_)
    have hd : d ∈ (h'.view "p").created ++ [Sample.merge] := hd
    rw [hcreated] at hd
    exact ⟨p, by decide +kernel, by simpa [p, Sample.twinsPlan] using hd⟩
  exact ⟨Sample.siblings.contentAddressed, hfresh, hs, rfl, h₁, h', hbatch, hnone, hplan, hfree,
    (merge_chain Sample.siblings.contentAddressed hfresh hbatch hnone hs hplan rfl hfree).2.2⟩

end World
end Landing
