import Landing.Proofs.Submission.Announcement
import Landing.Proofs.Submission.Batch
import Landing.Submission.BranchPlan

/-!
# How a branch takes its heads

Taking one head is one of four steps, `BranchPlan.HeadTaken`, unless the plan is
given up: an unborn branch begins at the head, a head that the tip leads to
changes nothing, the tip advances to a head that leads to it, or a merge commit is
drafted on top of both.  `BranchPlan.HeadsTaken` chains the steps for a list of
heads, and `World.yields_takeHeads` says that a plan that is not given up comes
about in this way.

Behind every step is a move that the strategy has chosen (`BranchPlan.Move.Chosen`), knowing
what the questions about ancestry have revealed.  `World.yields_takeHeads_moves` gives the
moves of a plan, which a chain of steps forgets (`BranchPlan.Moves.headsTaken`).

What follows is read off the steps, by induction on the chain.

* `HeadsTaken.leads_tip` and `HeadsTaken.leads_head`: no step loses anything, so
  the last tip leads to the first one and to every head that was taken.
* `HeadsTaken.origin`: the tips and the parents of the drafted merge commits are
  the old tip, heads, and drafted merge commits.
* `HeadsTaken.known`: every merge commit of the plan is drafted or known.
-/

namespace Landing

open World

namespace BranchPlan

/-! ### Moves -/

/-- What is done with a head. -/
inductive Move where
  /-- The branch begins at the head. -/
  | begins
  /-- The tip leads to the head already. -/
  | stays
  /-- The tip moves to the head. -/
  | advances
  /-- A merge commit of the tip and the head is drafted. -/
  | merges (d : Draft)
  deriving DecidableEq

namespace Move

/-- The tip after a move for the head at `commit`. -/
def tip (running : Option CommitId) (commit : CommitId) : Move → Option CommitId
  | begins | advances => some commit
  | stays => running
  | merges d => some d.id

/-- The merge commit of a move. -/
def draft? : Move → Option Draft
  | merges d => some d
  | begins | stays | advances => none

/-- Whether the tip moves to the head itself. -/
def isForward : Move → Bool
  | begins | advances => true
  | stays | merges _ => false

/-- Which move the strategy takes for the head at `commit`.  `Leads` and `Unrelated` are what is found
out about two commits: that the first one leads to the second, and that it does not. -/
inductive Chosen (Leads Unrelated : CommitId → CommitId → Prop) (strategy : Strategy)
    (author committer : Signature) (commit : CommitId) : Option CommitId → Move → Prop
  | begins : Chosen Leads Unrelated strategy author committer commit none .begins
  | stays {running : CommitId} : Leads running commit →
    Chosen Leads Unrelated strategy author committer commit (some running) .stays
  | advances {running : CommitId} : Unrelated running commit → Leads commit running →
    strategy ≠ .mergeAlways →
    Chosen Leads Unrelated strategy author committer commit (some running) .advances
  | merges {running : CommitId} {d : Draft} : Unrelated running commit →
    strategy = .mergeAlways ∨ strategy = .mergeIfNecessary ∧ Unrelated commit running →
    d.parents = [running, commit] → d.author = author → d.committer = committer →
    Chosen Leads Unrelated strategy author committer commit (some running) (.merges d)

/-- A merge commit is drafted where the strategy neither refuses the head nor moves to it.  `possible` is
whether a fast-forward is. -/
theorem merges_of_strategy {strategy : Strategy} {possible : Bool}
    (hallowed : ¬ (strategy == .fastForwardOnly && !possible) = true)
    (hmerge : ¬ (strategy != .mergeAlways && possible) = true) :
    strategy = .mergeAlways ∨ strategy = .mergeIfNecessary ∧ possible = false := by
  cases strategy with
  | fastForwardOnly => cases possible <;> simp at hallowed hmerge
  | mergeIfNecessary => exact .inr ⟨rfl, by simpa using hmerge⟩
  | mergeAlways => exact .inl rfl

/-- What a move does to the drafts of the project: a merge commit is added unless it is known. -/
def Adds (w : World) (project : ProjectName) (drafts : List Draft) (m : Move)
    (drafts' : List Draft) : Prop :=
  match m.draft? with
  | none => drafts' = drafts
  | some d => drafts' = drafts ++ [d] ∨ drafts' = drafts ∧ ∃ c, w.Known drafts project d.id c

end Move

/-- The plan after a move for the head at `commit`. -/
def take (p : BranchPlan) (commit : CommitId) : Move → BranchPlan
  | .begins | .advances => p.fastForward commit
  | .stays => p
  | .merges d => p.mergeTo d

section

variable (p : BranchPlan) (commit : CommitId) (m : Move)

@[simp] theorem take_newTip : (p.take commit m).newTip = m.tip p.newTip commit := by
  cases m <;> rfl

@[simp] theorem take_strategy : (p.take commit m).strategy = p.strategy := by
  cases m <;> rfl

@[simp] theorem take_state : (p.take commit m).state = p.state := by
  cases m <;> rfl

@[simp] theorem take_drafts : (p.take commit m).drafts = p.drafts ++ m.draft?.toList := by
  cases m <;> simp [take, mergeTo, fastForward, Move.draft?]

@[simp] theorem take_fastForwards :
    (p.take commit m).fastForwards = p.fastForwards + m.isForward.toNat := by
  cases m <;> rfl

end

/-- The moves for the heads at the listed commits, one after another.  What is found out is found out
among the drafts of the moment. -/
inductive Moves (w : World) (project : ProjectName) (author committer : Signature) :
    List CommitId → List Move → List Draft → BranchPlan → List Draft → BranchPlan → Prop
  | nil {drafts : List Draft} {p : BranchPlan} :
    Moves w project author committer [] [] drafts p drafts p
  | cons {commit : CommitId} {commits : List CommitId} {m : Move} {moves : List Move}
    {drafts drafts₁ drafts' : List Draft} {p p' : BranchPlan} :
    m.Chosen (w.Leads drafts project) (fun x y => w.Reveals drafts project x y false) p.strategy
      author committer commit p.newTip →
    m.Adds w project drafts drafts₁ →
    Moves w project author committer commits moves drafts₁ (p.take commit m) drafts' p' →
    Moves w project author committer (commit :: commits) (m :: moves) drafts p drafts' p'

/-! ### What the moves bring in -/

/-- The changes that a step from `running` to `commit` brings in: of the candidates those that no earlier
step brought in, that `commit` leads to and `running` does not. -/
structure Covers (Leads Unrelated : CommitId → CommitId → Prop)
    (candidates : List (ChangeId × CommitId)) (integrated : List ChangeId)
    (running commit : CommitId) (covered : List (ChangeId × CommitId)) : Prop where
  sublist : covered.Sublist candidates
  sound : ∀ e ∈ covered, e.1 ∉ integrated ∧ Leads commit e.2 ∧ Unrelated running e.2
  complete : ∀ e ∈ candidates,
    e ∈ covered ∨ e.1 ∈ integrated ∨ Unrelated commit e.2 ∨ Leads running e.2

/-- The message of the merge commit is the one for the covered changes, in their order, with the subjects
of their commits, and of these it tells. -/
def Announces (w : World) (drafts : List Draft) (project : ProjectName)
    (covered : List (ChangeId × CommitId)) (d : Draft) : Prop :=
  ∃ subjects : List (ChangeId × String),
    List.Forall₂ (fun e s => s.1 = e.1 ∧ ∃ c, w.Known drafts project e.2 c ∧ s.2 = c.subject)
      covered subjects ∧ d.message = mergeMessage subjects ∧ TellsOf subjects d.message

/-- What a move for the head at `commit` brings in.  Nobody asks what an unborn branch gets, and a move
that changes nothing brings nothing in. -/
inductive Move.Brings (w : World) (project : ProjectName) (drafts : List Draft)
    (candidates : List (ChangeId × CommitId)) (integrated : List ChangeId) (commit : CommitId) :
    Option CommitId → Move → List (ChangeId × CommitId) → Prop
  | begins : Brings w project drafts candidates integrated commit none .begins []
  | stays {running : CommitId} :
    Brings w project drafts candidates integrated commit (some running) .stays []
  | advances {running : CommitId} {covered : List (ChangeId × CommitId)} :
    Covers (w.Leads drafts project) (fun x y => w.Reveals drafts project x y false) candidates
      integrated running commit covered →
    Brings w project drafts candidates integrated commit (some running) .advances covered
  | merges {running : CommitId} {d : Draft} {covered : List (ChangeId × CommitId)} :
    Covers (w.Leads drafts project) (fun x y => w.Reveals drafts project x y false) candidates
      integrated running commit covered →
    Announces w drafts project covered d →
    Brings w project drafts candidates integrated commit (some running) (.merges d) covered

/-- How one head is taken. -/
structure Round where
  /-- The change at the head, with its commit. -/
  head : ChangeId × CommitId
  move : Move
  /-- The changes that come in, with their commits. -/
  covered : List (ChangeId × CommitId)
  deriving DecidableEq

/-- The rounds in which the heads are taken, one after another.  `integrated` are the changes that came in
before. -/
inductive Rounds (w : World) (project : ProjectName) (author committer : Signature)
    (candidates : List (ChangeId × CommitId)) :
    List Round → List ChangeId → List Draft → BranchPlan → List Draft → BranchPlan → Prop
  | nil {integrated : List ChangeId} {drafts : List Draft} {p : BranchPlan} :
    Rounds w project author committer candidates [] integrated drafts p drafts p
  | cons {r : Round} {rounds : List Round} {integrated : List ChangeId}
    {drafts drafts₁ drafts' : List Draft} {p p' : BranchPlan} :
    r.move.Chosen (w.Leads drafts project) (fun x y => w.Reveals drafts project x y false) p.strategy
      author committer r.head.2 p.newTip →
    r.move.Adds w project drafts drafts₁ →
    r.move.Brings w project drafts candidates integrated r.head.2 p.newTip r.covered →
    Rounds w project author committer candidates rounds (integrated ++ r.covered.map (·.1)) drafts₁
      (p.take r.head.2 r.move) drafts' p' →
    Rounds w project author committer candidates (r :: rounds) integrated drafts p drafts' p'

/-- A round takes its head by a move. -/
theorem Rounds.moves {w : World} {project : ProjectName} {author committer : Signature}
    {candidates : List (ChangeId × CommitId)} {rounds : List Round} {integrated : List ChangeId}
    {drafts drafts' : List Draft} {p p' : BranchPlan}
    (hrounds : Rounds w project author committer candidates rounds integrated drafts p drafts' p') :
    Moves w project author committer (rounds.map (·.head.2)) (rounds.map (·.move)) drafts p drafts'
      p' := by
  induction hrounds with
  | nil => exact .nil
  | cons hm hadds _ _ ih => exact .cons hm hadds ih

/-! ### One step -/

/-- What taking the head at `commit` does to the drafts of the project and to the plan. -/
inductive HeadTaken (w : World) (project : ProjectName) (commit : CommitId)
    (drafts : List Draft) (p : BranchPlan) : List Draft → BranchPlan → Prop
  /-- The branch begins at the head. -/
  | begins : p.newTip = none → HeadTaken w project commit drafts p drafts (p.fastForward commit)
  /-- The tip leads to the head already. -/
  | stays {running : CommitId} : p.newTip = some running →
    w.Leads drafts project running commit → HeadTaken w project commit drafts p drafts p
  /-- The head leads to the tip. -/
  | advances {running : CommitId} : p.newTip = some running →
    w.Leads drafts project commit running →
    HeadTaken w project commit drafts p drafts (p.fastForward commit)
  /-- A merge commit of the tip and the head is drafted. -/
  | merges {running : CommitId} {d : Draft} : p.newTip = some running →
    d.parents = [running, commit] →
    HeadTaken w project commit drafts p (drafts ++ [d]) (p.mergeTo d)
  /-- The merge commit of the tip and the head is known already. -/
  | mergesKnown {running : CommitId} {d : Draft} {c : Commit} : p.newTip = some running →
    d.parents = [running, commit] → w.Known drafts project d.id c →
    HeadTaken w project commit drafts p drafts (p.mergeTo d)

/-- The heads at the listed commits are taken one after another. -/
inductive HeadsTaken (w : World) (project : ProjectName) :
    List CommitId → List Draft → BranchPlan → List Draft → BranchPlan → Prop
  | nil {drafts : List Draft} {p : BranchPlan} : HeadsTaken w project [] drafts p drafts p
  | cons {commit : CommitId} {commits : List CommitId} {drafts drafts₁ drafts' : List Draft}
    {p p₁ p' : BranchPlan} : HeadTaken w project commit drafts p drafts₁ p₁ →
    HeadsTaken w project commits drafts₁ p₁ drafts' p' →
    HeadsTaken w project (commit :: commits) drafts p drafts' p'

/-- Where a commit comes from: it is the old tip, a head, or one of the merge commits. -/
def OriginIn (heads : List CommitId) (p : BranchPlan) (merges : List Draft) (x : CommitId) : Prop :=
  p.oldTip = some x ∨ x ∈ heads ∨ ∃ d ∈ merges, d.id = x

/-- Where a tip comes from: it is the old tip, a head, or a merge commit of the plan. -/
def Origin (heads : List CommitId) (p : BranchPlan) (x : CommitId) : Prop :=
  OriginIn heads p p.drafts x

/-- The parents of every merge commit are the old tip, heads, and merge commits before it. -/
def ParentsBefore (heads : List CommitId) (p : BranchPlan) : Prop :=
  ∀ earlier d later, p.drafts = earlier ++ d :: later →
    ∀ x ∈ d.parents, OriginIn heads p earlier x

variable {w : World} {project : ProjectName} {commit x : CommitId} {commits heads : List CommitId}
variable {drafts drafts' : List Draft} {p p' : BranchPlan}

/-- What no step changes. -/
structure SameFrame (p p' : BranchPlan) : Prop where
  branch : p'.branch = p.branch
  oldTip : p'.oldTip = p.oldTip
  changes : p'.changes = p.changes
  state : p'.state = p.state
  merges : p.merges = p.drafts.map Draft.id → p'.merges = p'.drafts.map Draft.id
  drafts : p.drafts ⊆ p'.drafts

theorem HeadTaken.sameFrame (hstep : HeadTaken w project commit drafts p drafts' p') :
    SameFrame p p' := by
  cases hstep with
  | begins => exact ⟨rfl, rfl, rfl, rfl, id, fun _ hd => hd⟩
  | stays => exact ⟨rfl, rfl, rfl, rfl, id, fun _ hd => hd⟩
  | advances => exact ⟨rfl, rfl, rfl, rfl, id, fun _ hd => hd⟩
  | merges =>
    exact ⟨rfl, rfl, rfl, rfl, fun h => by simp [mergeTo, h], List.subset_append_left _ _⟩
  | mergesKnown =>
    exact ⟨rfl, rfl, rfl, rfl, fun h => by simp [mergeTo, h], List.subset_append_left _ _⟩

/-- The drafts of the project only grow, and by merge commits of the plan. -/
theorem HeadTaken.grows (hstep : HeadTaken w project commit drafts p drafts' p') :
    drafts ⊆ drafts' ∧ ∀ d ∈ drafts', d ∈ drafts ∨ d ∈ p'.drafts := by
  cases hstep with
  | merges =>
    refine ⟨List.subset_append_left _ _, fun d hd => ?_⟩
    rcases List.mem_append.1 hd with hold | hnew
    · exact .inl hold
    · exact .inr (List.mem_append_right _ hnew)
  | _ => exact ⟨fun _ hd => hd, fun d hd => .inl hd⟩

/-- A merge commit among the drafts leads to both its parents. -/
theorem leads_of_parents {all : List Draft} {d : Draft} {x y : CommitId} (hd : d ∈ all)
    (hparents : d.parents = [x, y]) :
    w.Leads all project d.id x ∧ w.Leads all project d.id y := by
  have hparent : ∀ z ∈ d.parents, w.Leads all project d.id z :=
    fun z hz => Parent.leads ⟨d.commit, .inr ⟨d, hd, rfl, rfl⟩, hz⟩
  exact ⟨hparent x (by simp [hparents]), hparent y (by simp [hparents])⟩

/-- After a step there is a tip, which leads to the tip before it and to the head.  The graph has to
hold the drafts and the merge commits of the plan. -/
theorem HeadTaken.leads (hstep : HeadTaken w project commit drafts p drafts' p')
    {all : List Draft} (hdrafts : drafts' ⊆ all) (hmerges : p'.drafts ⊆ all) :
    ∃ tip, p'.newTip = some tip ∧ w.Leads all project tip commit ∧
      ∀ running, p.newTip = some running → w.Leads all project tip running := by
  -- A merge commit has the tip before it and the head for parents.
  have hmerge : ∀ {running : CommitId} {d : Draft}, p.newTip = some running → d ∈ all →
      d.parents = [running, commit] → w.Leads all project d.id commit ∧
      ∀ running, p.newTip = some running → w.Leads all project d.id running := by
    intro running d htip hd hparents
    obtain ⟨hrunning, hcommit⟩ := leads_of_parents hd hparents
    refine ⟨hcommit, fun running' htip' => ?_⟩
    rw [htip] at htip'
    cases htip'
    exact hrunning
  cases hstep with
  | begins hnone =>
    refine ⟨commit, rfl, .refl, fun running htip => ?_⟩
    rw [hnone] at htip
    cases htip
  | stays htip hleads =>
    refine ⟨_, htip, hleads.mono hdrafts, fun running htip' => ?_⟩
    rw [htip] at htip'
    cases htip'
    exact .refl
  | advances htip hleads =>
    refine ⟨commit, rfl, .refl, fun running htip' => ?_⟩
    rw [htip] at htip'
    cases htip'
    exact hleads.mono hdrafts
  | merges htip hparents =>
    exact ⟨_, rfl, hmerge htip (hdrafts (by simp)) hparents⟩
  | mergesKnown htip hparents =>
    exact ⟨_, rfl, hmerge htip (hmerges (by simp [mergeTo])) hparents⟩

/-- A step leaves everything with an origin. -/
theorem HeadTaken.origin (hstep : HeadTaken w project commit drafts p drafts' p')
    (hcommit : commit ∈ heads) (htips : ∀ x, p.newTip = some x → Origin heads p x)
    (hparents : ParentsBefore heads p) :
    (∀ x, p'.newTip = some x → Origin heads p' x) ∧ ParentsBefore heads p' := by
  -- The parents of the merge commit have an origin among what there was before.
  have hmerge : ∀ {running : CommitId} {d : Draft}, p.newTip = some running →
      d.parents = [running, commit] → (∀ x, (p.mergeTo d).newTip = some x →
        Origin heads (p.mergeTo d) x) ∧ ParentsBefore heads (p.mergeTo d) := by
    intro running d htip hpair
    refine ⟨fun x hx => ?_, fun earlier d' later hsplit x hx => ?_⟩
    · cases hx
      exact .inr (.inr ⟨d, by simp [mergeTo], rfl⟩)
    · have hsplit : p.drafts ++ [d] = earlier ++ d' :: later := hsplit
      rcases List.eq_nil_or_concat later with rfl | ⟨later', last, rfl⟩
      · obtain ⟨rfl, rfl⟩ := List.append_singleton_inj.1 hsplit
        rw [hpair] at hx
        rcases List.mem_cons.1 hx with rfl | hx
        · exact htips _ htip
        · rw [List.mem_singleton.1 hx]
          exact .inr (.inl hcommit)
      · rw [List.concat_eq_append, ← List.cons_append, ← List.append_assoc] at hsplit
        exact hparents earlier d' later' (List.append_singleton_inj.1 hsplit).1 x hx
  -- Otherwise a new tip is the head itself, and there is no new merge commit.
  have hforward : (∀ x, (p.fastForward commit).newTip = some x →
      Origin heads (p.fastForward commit) x) ∧ ParentsBefore heads (p.fastForward commit) := by
    refine ⟨fun x hx => ?_, hparents⟩
    cases hx
    exact .inr (.inl hcommit)
  cases hstep with
  | begins => exact hforward
  | stays => exact ⟨htips, hparents⟩
  | advances => exact hforward
  | merges htip hpair => exact hmerge htip hpair
  | mergesKnown htip hpair => exact hmerge htip hpair

/-- A step leaves every merge commit of the plan drafted or known. -/
theorem HeadTaken.known (hstep : HeadTaken w project commit drafts p drafts' p')
    (hknown : ∀ d ∈ p.drafts, ∃ c, w.Known drafts project d.id c) :
    ∀ d ∈ p'.drafts, ∃ c, w.Known drafts' project d.id c := by
  cases hstep with
  | begins => exact hknown
  | stays => exact hknown
  | advances => exact hknown
  | @merges running d =>
    intro d' hd'
    rcases List.mem_append.1 hd' with hold | hnew
    · obtain ⟨c, hc⟩ := hknown d' hold
      exact ⟨c, hc.mono (List.subset_append_left _ _)⟩
    · rw [List.mem_singleton.1 hnew]
      exact ⟨d.commit, .inr ⟨d, by simp, rfl, rfl⟩⟩
  | mergesKnown _ _ hc =>
    intro d' hd'
    rcases List.mem_append.1 hd' with hold | hnew
    · exact hknown d' hold
    · rw [List.mem_singleton.1 hnew]
      exact ⟨_, hc⟩

/-- Every move is a step. -/
theorem Move.Chosen.headTaken {m : Move} {strategy : Strategy} {author committer : Signature}
    {Unrelated : CommitId → CommitId → Prop}
    (hm : m.Chosen (w.Leads drafts project) Unrelated strategy author committer commit p.newTip)
    (hadds : m.Adds w project drafts drafts') :
    HeadTaken w project commit drafts p drafts' (p.take commit m) := by
  generalize htip : p.newTip = tip at hm
  cases hm with
  | begins =>
    obtain rfl : drafts' = drafts := hadds
    exact .begins htip
  | stays hleads =>
    obtain rfl : drafts' = drafts := hadds
    exact .stays htip hleads
  | advances _ hleads =>
    obtain rfl : drafts' = drafts := hadds
    exact .advances htip hleads
  | merges _ _ hparents =>
    rcases hadds with rfl | ⟨rfl, c, hknown⟩
    · exact .merges htip hparents
    · exact .mergesKnown htip hparents hknown

/-- Where a merge commit is drafted the tip was found not to lead to the head, and then the accepted
commits have turned out to be stored. -/
theorem Move.Chosen.stored {m : Move} {strategy : Strategy} {author committer : Signature}
    {tip : Option CommitId} {Leads : CommitId → CommitId → Prop}
    (hm : m.Chosen Leads (fun x y => w.Reveals drafts project x y false) strategy author committer
      commit tip)
    (hadds : m.Adds w project drafts drafts')
    (hstored : drafts = [] ∨ w.AcceptedStored project) :
    drafts' = [] ∨ w.AcceptedStored project := by
  rcases hstored with rfl | hstored
  · cases hm with
    | merges hnot => exact .inr (hnot (settled_nil w project)).1
    | _ => exact .inl hadds
  · exact .inr hstored

/-! ### A chain of steps -/

/-- Without heads to take nothing happens. -/
theorem HeadsTaken.eq_of_nil (hrun : HeadsTaken w project [] drafts p drafts' p') : p' = p := by
  cases hrun
  rfl

theorem HeadsTaken.sameFrame (hrun : HeadsTaken w project commits drafts p drafts' p') :
    SameFrame p p' := by
  induction hrun with
  | nil => exact ⟨rfl, rfl, rfl, rfl, id, fun _ hd => hd⟩
  | cons hstep _ ih =>
    have hfirst := hstep.sameFrame
    exact ⟨ih.branch.trans hfirst.branch, ih.oldTip.trans hfirst.oldTip,
      ih.changes.trans hfirst.changes, ih.state.trans hfirst.state,
      fun h => ih.merges (hfirst.merges h), fun _ hd => ih.drafts (hfirst.drafts hd)⟩

/-- What one step says of the drafts holds of the chain. -/
theorem HeadsTaken.grows (hrun : HeadsTaken w project commits drafts p drafts' p') :
    drafts ⊆ drafts' ∧ ∀ d ∈ drafts', d ∈ drafts ∨ d ∈ p'.drafts := by
  induction hrun with
  | nil => exact ⟨fun _ hd => hd, fun d hd => .inl hd⟩
  | cons hstep hrest ih =>
    refine ⟨fun _ hd => ih.1 (hstep.grows.1 hd), fun d hd => ?_⟩
    rcases ih.2 d hd with hd | hd
    · exact (hstep.grows.2 d hd).imp_right fun hnew => hrest.sameFrame.drafts hnew
    · exact .inr hd

/-- The last tip leads to the first one. -/
theorem HeadsTaken.leads_tip (hrun : HeadsTaken w project commits drafts p drafts' p')
    {all : List Draft} (hdrafts : drafts' ⊆ all) (hmerges : p'.drafts ⊆ all)
    {running : CommitId} (htip : p.newTip = some running) :
    ∃ tip, p'.newTip = some tip ∧ w.Leads all project tip running := by
  induction hrun generalizing running with
  | nil => exact ⟨running, htip, .refl⟩
  | cons hstep hrest ih =>
    have hdrafts₁ := List.Subset.trans hrest.grows.1 hdrafts
    have hmerges₁ := List.Subset.trans hrest.sameFrame.drafts hmerges
    obtain ⟨tip₁, htip₁, _, hleads₁⟩ := hstep.leads hdrafts₁ hmerges₁
    obtain ⟨tip, htip', hleads⟩ := ih hdrafts hmerges htip₁
    exact ⟨tip, htip', hleads.trans (hleads₁ running htip)⟩

/-- The last tip leads to every head that was taken. -/
theorem HeadsTaken.leads_head (hrun : HeadsTaken w project commits drafts p drafts' p')
    {all : List Draft} (hdrafts : drafts' ⊆ all) (hmerges : p'.drafts ⊆ all)
    (hcommit : commit ∈ commits) :
    ∃ tip, p'.newTip = some tip ∧ w.Leads all project tip commit := by
  induction hrun with
  | nil => cases hcommit
  | cons hstep hrest ih =>
    rcases List.mem_cons.1 hcommit with rfl | hlater
    · have hdrafts₁ := List.Subset.trans hrest.grows.1 hdrafts
      have hmerges₁ := List.Subset.trans hrest.sameFrame.drafts hmerges
      -- The tip right after the head was taken leads to it, and later tips lead to this tip.
      obtain ⟨tip₁, htip₁, hhead, _⟩ := hstep.leads hdrafts₁ hmerges₁
      obtain ⟨tip, htip, hleads⟩ := hrest.leads_tip hdrafts hmerges htip₁
      exact ⟨tip, htip, hleads.trans hhead⟩
    · exact ih hdrafts hmerges hlater

/-- Everything has an origin after the chain, if it has one before. -/
theorem HeadsTaken.origin (hrun : HeadsTaken w project commits drafts p drafts' p')
    (hheads : commits ⊆ heads) (htips : ∀ x, p.newTip = some x → Origin heads p x)
    (hparents : ParentsBefore heads p) :
    (∀ x, p'.newTip = some x → Origin heads p' x) ∧ ParentsBefore heads p' := by
  induction hrun with
  | nil => exact ⟨htips, hparents⟩
  | cons hstep _ ih =>
    have hcommits := List.cons_subset.1 hheads
    obtain ⟨htips₁, hparents₁⟩ := hstep.origin hcommits.1 htips hparents
    exact ih hcommits.2 htips₁ hparents₁

/-- Every merge commit of the plan is drafted or known. -/
theorem HeadsTaken.known (hrun : HeadsTaken w project commits drafts p drafts' p')
    (hknown : ∀ d ∈ p.drafts, ∃ c, w.Known drafts project d.id c) :
    ∀ d ∈ p'.drafts, ∃ c, w.Known drafts' project d.id c := by
  induction hrun with
  | nil => exact hknown
  | cons hstep _ ih => exact ih (hstep.known hknown)

/-- Moves one after another are a chain of steps. -/
theorem Moves.headsTaken {author committer : Signature} {moves : List Move}
    (hmoves : Moves w project author committer commits moves drafts p drafts' p') :
    HeadsTaken w project commits drafts p drafts' p' := by
  induction hmoves with
  | nil => exact .nil
  | cons hm hadds _ ih => exact .cons (hm.headTaken hadds) ih

/-! ### The plan of a branch -/

/-- What is said about the plan of a segment.  `drafts` are the drafts of the project. -/
structure PlanOf (w : World) (s : Segment) (drafts : List Draft) (p : BranchPlan) : Prop where
  branch_eq : p.branch = s.branch
  changes_eq : p.changes = s.changes.map (·.id)
  merges_eq : p.merges = p.drafts.map Draft.id
  resolved : ∃ how, p.state = .resolved how
  oldTip_eq : ∃ tips, w.branches s.branch.project = .ok tips ∧
    p.oldTip = (tips.find? (·.1 == s.branch)).map (·.2)
  known : ∀ d ∈ p.drafts, ∃ c, w.Known drafts s.branch.project d.id c
  tip_origin : ∀ x, p.newTip = some x → Origin (s.headChanges.filterMap (·.currentCommit?)) p x
  parents_before : ParentsBefore (s.headChanges.filterMap (·.currentCommit?)) p
  headed : p.newTip ≠ p.oldTip ∨ p.drafts ≠ [] → ∃ t ∈ s.headChanges, ∃ top, t.currentCommit? = some top
  leads_old : ∀ all, drafts ⊆ all → p.drafts ⊆ all → ∀ old, p.oldTip = some old →
    ∃ tip, p.newTip = some tip ∧ w.Leads all s.branch.project tip old
  leads_head : ∀ all, drafts ⊆ all → p.drafts ⊆ all →
    ∀ t ∈ s.headChanges, ∀ top, t.currentCommit? = some top →
      ∃ tip, p.newTip = some tip ∧ w.Leads all s.branch.project tip top

/-- The parents of a merge commit have an origin. -/
theorem PlanOf.parent_origin {s : Segment} (hplan : p.PlanOf w s drafts) {d : Draft}
    (hd : d ∈ p.drafts) {x : CommitId} (hx : x ∈ d.parents) :
    Origin (s.headChanges.filterMap (·.currentCommit?)) p x := by
  obtain ⟨earlier, later, hsplit⟩ := List.append_of_mem hd
  refine (hplan.parents_before earlier d later hsplit x hx).imp_right fun h => h.imp_right ?_
  rintro ⟨d', hd', hid⟩
  exact ⟨d', by simp [hsplit, hd'], hid⟩

/-- More drafts in the project do not spoil a plan. -/
theorem PlanOf.mono {s : Segment} {more : List Draft} (hplan : p.PlanOf w s drafts)
    (hsub : drafts ⊆ more) : p.PlanOf w s more where
  branch_eq := hplan.branch_eq
  changes_eq := hplan.changes_eq
  merges_eq := hplan.merges_eq
  resolved := hplan.resolved
  oldTip_eq := hplan.oldTip_eq
  known d hd := by
    obtain ⟨c, hc⟩ := hplan.known d hd
    exact ⟨c, hc.mono hsub⟩
  tip_origin := hplan.tip_origin
  parents_before := hplan.parents_before
  headed := hplan.headed
  leads_old all hall := hplan.leads_old all (fun _ hd => hall (hsub hd))
  leads_head all hall := hplan.leads_head all (fun _ hd => hall (hsub hd))

end BranchPlan

/-! ### Planning follows the steps -/

namespace World

open BranchPlan

variable {w : World} {ds : ProjectName → List Draft} {h h' : History}
variable {project : ProjectName} {policy : Policy} {actor : Account} {segment : Segment}

/-- Reading the files of a commit. -/
theorem yields_treeAt (hf : h.Faithful w ds) {id : CommitId} {tree : Tree}
    (hy : w.Yields (treeAt project id) h tree h') :
    h'.Faithful w ds ∧ ∃ c, w.Known (ds project) project id c := by
  simp only [treeAt, yields_bind, yields_pure] at hy
  obtain ⟨c, _, hc, rfl, rfl⟩ := hy
  obtain ⟨hf', hknown⟩ := yields_commit hf hc
  exact ⟨hf', c, hknown⟩

/-- Reading the files at the merge base keeps the history faithful. -/
theorem yields_baseTree (hf : h.Faithful w ds) {running commit : CommitId} {tree : Tree}
    (hy : w.Yields (baseTree project running commit) h tree h') : h'.Faithful w ds := by
  simp only [baseTree, yields_bind] at hy
  obtain ⟨base, h₁, hbase, htree⟩ := hy
  have hf₁ := yields_mergeBase? hf hbase
  split at htree
  · exact (yields_treeAt hf₁ htree).1
  · obtain ⟨_, rfl⟩ := yields_pure.1 htree
    exact hf₁

/-- What is known of a candidate when the test whether a step brings it in has come to `found`. -/
def Sifted (Leads Unrelated : CommitId → CommitId → Prop) (integrated : List ChangeId)
    (running commit : CommitId) (e : ChangeId × CommitId) (found : Bool) : Prop :=
  if found = true then e.1 ∉ integrated ∧ Leads commit e.2 ∧ Unrelated running e.2
  else e.1 ∈ integrated ∨ Unrelated commit e.2 ∨ Leads running e.2

/-- Finding out which changes a step brings in. -/
theorem yields_coveredBy (hf : h.Faithful w ds) {commit running : CommitId}
    {integrated : List ChangeId} {changes : List Change} {covered : List (ChangeId × CommitId)}
    (hy : w.Yields (coveredBy project commit running integrated changes) h covered h') :
    h'.Faithful w ds ∧ Covers (w.Leads (ds project) project)
      (fun x y => w.Reveals (ds project) project x y false) (Segment.placed changes) integrated
      running commit covered := by
  obtain ⟨hf', hsublist, hsound, hcomplete⟩ := yields_filterM (I := fun h => h.Faithful w ds)
    (P := Sifted (w.Leads (ds project) project)
      (fun x y => w.Reveals (ds project) project x y false) integrated running commit)
    (fun e _ h b h' hI hb => by
      split at hb
      · next hbefore =>
        obtain ⟨rfl, rfl⟩ := yields_pure.1 hb
        exact ⟨hI, .inl (List.contains_iff_mem.1 hbefore)⟩
      · next hnew =>
        rw [List.contains_iff_mem] at hnew
        simp only [yields_bind] at hb
        obtain ⟨inside, h₁, hasked, hb⟩ := hb
        obtain ⟨hI₁, hinside⟩ := yields_isAncestor_reveals hI hasked
        cases inside with
        | false =>
          obtain ⟨rfl, rfl⟩ := yields_pure.1 hb
          exact ⟨hI₁, .inr (.inl hinside)⟩
        | true =>
          simp only [if_true, yields_bind, yields_pure] at hb
          obtain ⟨old, h₂, hasked, rfl, rfl⟩ := hb
          obtain ⟨hI₂, hold⟩ := yields_isAncestor_reveals hI₁ hasked
          cases old with
          | false => exact ⟨hI₂, hnew, hinside, hold⟩
          | true => exact ⟨hI₂, .inr (.inr hold)⟩) hf hy
  exact ⟨hf', hsublist, hsound, hcomplete⟩

/-- Drafting a merge commit: it has the two parents, the requester and the server have signed it, it
announces the covered changes, and it is added or known. -/
theorem yields_draftMerge (hf : h.Faithful w ds) {running commit : CommitId}
    {covered : List (ChangeId × CommitId)} {r : Except (List String) Draft}
    (hy : w.Yields (draftMerge policy actor project running commit covered) h r h') :
    ∃ ds', h'.Faithful w ds' ∧ (∀ q, q ≠ project → ds' q = ds q) ∧
      match r with
      | .ok d => d.parents = [running, commit] ∧ d.author = actor.ident ∧
          d.committer = policy.serverIdent ∧ Announces w (ds project) project covered d ∧
          (Move.merges d).Adds w project (ds project) (ds' project)
      | .error _ => ds' project = ds project := by
  simp only [draftMerge, yields_bind] at hy
  obtain ⟨base, h₁, hbase, ours, h₂, hours, theirs, h₃, htheirs, hy⟩ := hy
  have hf₁ := yields_baseTree hf hbase
  obtain ⟨hf₂, c, hknown⟩ := yields_treeAt hf₁ hours
  have hf₃ := (yields_treeAt hf₂ htheirs).1
  split at hy
  · obtain ⟨rfl, rfl⟩ := yields_pure.1 hy
    exact ⟨ds, hf₃, fun _ _ => rfl, rfl⟩
  · simp only [yields_bind, yields_pure] at hy
    obtain ⟨subjects, h₄, hsubjects, id, h₅, hdraft, rfl, rfl⟩ := hy
    obtain ⟨hf₄, hquoted⟩ := yields_mapM (I := fun h => h.Faithful w ds)
      (R := fun e s => s.1 = e.1 ∧ ∃ c, w.Known (ds project) project e.2 c ∧ s.2 = c.subject)
      (fun e _ h s h' hI hs => by
        simp only [yields_bind, yields_pure] at hs
        obtain ⟨c, _, hc, rfl, rfl⟩ := hs
        obtain ⟨hI', hcommit⟩ := yields_commit hI hc
        exact ⟨hI', rfl, c, hcommit, rfl⟩) hf₃ hsubjects
    obtain ⟨ds', hf', hother, hdrafts⟩ := yields_addDraft hf₄ (hknown.housed hf) hdraft
    have hlines : ∀ s ∈ subjects, '\n' ∉ s.2.toList := by
      intro s hs
      obtain ⟨e, _, _, c, _, hsubject⟩ := exists_left_of_forall₂ hquoted hs
      rw [hsubject]
      exact c.newline_not_mem_subject
    exact ⟨ds', hf', hother, rfl, rfl, rfl, ⟨subjects, hquoted, rfl, tellsOf_mergeMessage hlines⟩,
      hdrafts⟩

/-- Taking one head: the plan is given up, or the strategy has chosen a move. -/
theorem yields_takeHead_move (hf : h.Faithful w ds) {p p' : BranchPlan}
    {integrated integrated' : List ChangeId} {head : ChangeId} {commit : CommitId}
    (hy : w.Yields (takeHead policy actor segment p integrated head commit) h
      (p', integrated') h') :
    ∃ ds', h'.Faithful w ds' ∧ (∀ q, q ≠ segment.branch.project → ds' q = ds q) ∧
      ((∃ problem, p'.state = .aborted problem) ∧
          ds' segment.branch.project = ds segment.branch.project ∨
        ∃ m covered, p' = p.take commit m ∧ integrated' = integrated ++ covered.map (·.1) ∧
          m.Chosen (w.Leads (ds segment.branch.project) segment.branch.project)
            (fun x y => w.Reveals (ds segment.branch.project) segment.branch.project x y false)
            p.strategy actor.ident policy.serverIdent commit p.newTip ∧
          m.Adds w segment.branch.project (ds segment.branch.project)
            (ds' segment.branch.project) ∧
          m.Brings w segment.branch.project (ds segment.branch.project)
            (Segment.placed segment.changes) integrated commit p.newTip covered) := by
  unfold takeHead at hy
  split at hy
  · -- The branch is not there yet.
    next hnone =>
    obtain ⟨heq, rfl⟩ := yields_pure.1 hy
    cases heq
    exact ⟨ds, hf, fun _ _ => rfl,
      .inr ⟨.begins, [], rfl, by simp, hnone ▸ .begins, rfl, hnone ▸ .begins⟩⟩
  · next running htip =>
    simp only [yields_bind] at hy
    obtain ⟨behind, h₁, hb, hy⟩ := hy
    obtain ⟨hf₁, hbehind⟩ := yields_isAncestor_reveals hf hb
    cases behind with
    | true =>
      obtain ⟨heq, rfl⟩ := yields_pure.1 hy
      cases heq
      exact ⟨ds, hf₁, fun _ _ => rfl,
        .inr ⟨.stays, [], rfl, by simp, htip ▸ .stays hbehind, rfl, htip ▸ .stays⟩⟩
    | false =>
      simp only [Bool.false_eq_true, if_false, yields_bind] at hy
      obtain ⟨possible, h₂, hpossible, hy⟩ := hy
      obtain ⟨hf₂, hahead⟩ := yields_isAncestor_reveals hf₁ hpossible
      split at hy
      · -- The strategy asks for a fast-forward, which is not possible.
        obtain ⟨heq, rfl⟩ := yields_pure.1 hy
        cases heq
        exact ⟨ds, hf₂, fun _ _ => rfl, .inl ⟨⟨_, rfl⟩, rfl⟩⟩
      · next hallowed =>
        simp only [yields_bind] at hy
        obtain ⟨covered, h₃, hcovered, hy⟩ := hy
        obtain ⟨hf₃, hcovers⟩ := yields_coveredBy hf₂ hcovered
        split at hy
        · next hforward =>
          -- The head leads to the tip, and the strategy has nothing against a fast-forward.
          obtain ⟨heq, rfl⟩ := yields_pure.1 hy
          cases heq
          rw [Bool.and_eq_true, bne_iff_ne] at hforward
          obtain ⟨hstrategy, rfl⟩ := hforward
          exact ⟨ds, hf₃, fun _ _ => rfl, .inr ⟨.advances, covered, rfl, rfl,
            htip ▸ .advances hbehind hahead hstrategy, rfl, htip ▸ .advances hcovers⟩⟩
        · next hmerge =>
          simp only [yields_bind] at hy
          obtain ⟨r, h₄, hr, hy⟩ := hy
          obtain ⟨ds', hf', hother, hdrafts⟩ := yields_draftMerge hf₃ hr
          split at hy
          · next d =>
            obtain ⟨heq, rfl⟩ := yields_pure.1 hy
            cases heq
            obtain ⟨hparents, hauthor, hcommitter, hannounces, hadds⟩ := hdrafts
            refine ⟨ds', hf', hother, .inr ⟨.merges d, covered, rfl, rfl, htip ▸ ?_, hadds,
              htip ▸ .merges hcovers hannounces⟩⟩
            refine .merges hbehind ?_ hparents hauthor hcommitter
            refine (Move.merges_of_strategy hallowed hmerge).imp_right fun ⟨hnecessary, himpossible⟩ => ?_
            subst himpossible
            exact ⟨hnecessary, hahead⟩
          · obtain ⟨heq, rfl⟩ := yields_pure.1 hy
            cases heq
            exact ⟨ds', hf', hother, .inl ⟨⟨_, rfl⟩, hdrafts⟩⟩

/-- Taking the heads of a branch: the plan is given up, or it comes about in rounds.  Where there are
drafts in the end but none before, the accepted commits have turned out to be stored. -/
theorem yields_takeHeads_rounds (hf : h.Faithful w ds) {p q : BranchPlan} (hidle : p.state = .idle)
    {integrated : List ChangeId} {heads : List Change}
    (hy : w.Yields (takeHeads policy actor segment p integrated heads) h q h') :
    ∃ ds', h'.Faithful w ds' ∧ (∀ r, r ≠ segment.branch.project → ds' r = ds r) ∧
      (ds segment.branch.project = [] ∨ w.AcceptedStored segment.branch.project →
        ds' segment.branch.project = [] ∨ w.AcceptedStored segment.branch.project) ∧
      ((∃ problem, q.state = .aborted problem) ∨ ∃ rounds p', q = p'.resolve ∧
        rounds.map (·.head) = Segment.placed heads ∧
        Rounds w segment.branch.project actor.ident policy.serverIdent
          (Segment.placed segment.changes) rounds integrated
          (ds segment.branch.project) p (ds' segment.branch.project) p') := by
  induction heads generalizing p integrated ds h with
  | nil =>
    obtain ⟨rfl, rfl⟩ := yields_pure.1 hy
    exact ⟨ds, hf, fun _ _ => rfl, id, .inr ⟨[], p, rfl, rfl, .nil⟩⟩
  | cons head heads ih =>
    rw [takeHeads] at hy
    split at hy
    · next hnone =>
      have hplaced : Segment.placed (head :: heads) = Segment.placed heads := by
        simp [Segment.placed, hnone]
      rw [hplaced]
      exact ih hf hidle hy
    · next commit hcommit =>
      have hplaced : Segment.placed (head :: heads) = (head.id, commit) :: Segment.placed heads := by
        simp [Segment.placed, hcommit]
      simp only [yields_bind] at hy
      obtain ⟨⟨p₁, integrated₁⟩, h₁, hhead, hy⟩ := hy
      obtain ⟨ds₁, hf₁, hother₁, ⟨⟨problem, habort⟩, hsame⟩ |
        ⟨m, covered, rfl, rfl, hm, hadds, hbrings⟩⟩ := yields_takeHead_move hf hhead
      · simp only [habort, BranchState.isTerminal, if_true] at hy
        obtain ⟨rfl, rfl⟩ := yields_pure.1 hy
        exact ⟨ds₁, hf₁, hother₁, fun h => hsame ▸ h, .inl ⟨problem, habort⟩⟩
      · -- No move gives a plan up.
        have hidle₁ : (p.take commit m).state = .idle := by rw [take_state, hidle]
        simp only [hidle₁, BranchState.isTerminal] at hy
        obtain ⟨ds', hf', hother, hstored, hend⟩ := ih hf₁ hidle₁ hy
        rw [hplaced]
        refine ⟨ds', hf', fun r hr => (hother r hr).trans (hother₁ r hr), ?_, hend.imp_right ?_⟩
        · exact fun h => hstored (hm.stored hadds h)
        · rintro ⟨rounds, p', hq, hheads, hrounds⟩
          exact ⟨⟨(head.id, commit), m, covered⟩ :: rounds, p', hq, by rw [List.map_cons, hheads],
            .cons hm hadds hbrings hrounds⟩

/-- Planning a branch: the plan is given up, or it comes about in rounds that start at the tip. -/
theorem yields_compute_rounds (hf : h.Faithful w ds) {p : BranchPlan}
    (hy : w.Yields (BranchPlan.compute policy actor segment) h p h') :
    ∃ ds', h'.Faithful w ds' ∧ (∀ r, r ≠ segment.branch.project → ds' r = ds r) ∧
      (ds segment.branch.project = [] ∨ w.AcceptedStored segment.branch.project →
        ds' segment.branch.project = [] ∨ w.AcceptedStored segment.branch.project) ∧
      ((∃ problem, p.state = .aborted problem) ∨ ∃ tips rounds p',
        w.branches segment.branch.project = .ok tips ∧ p = p'.resolve ∧
        rounds.map (·.head) = Segment.placed segment.headChanges ∧
        Rounds w segment.branch.project actor.ident policy.serverIdent
          (Segment.placed segment.changes) rounds [] (ds segment.branch.project)
          (start segment (policy.strategyFor segment.branch.project)
            ((tips.find? (·.1 == segment.branch)).map (·.2)))
          (ds' segment.branch.project) p') := by
  simp only [BranchPlan.compute, yields_bind] at hy
  obtain ⟨oldTip, h₁, htip, hy⟩ := hy
  obtain ⟨hf₁, tips, hbranches, rfl⟩ := yields_tip? hf htip
  obtain ⟨ds', hf', hother, hstored, hend⟩ := yields_takeHeads_rounds hf₁ rfl hy
  refine ⟨ds', hf', hother, hstored, hend.imp_right ?_⟩
  rintro ⟨rounds, p', hp, hheads, hrounds⟩
  exact ⟨tips, rounds, p', hbranches, hp, hheads, hrounds⟩

/-- Planning a branch: the plan is given up, or it comes about by moves that start at the tip. -/
theorem yields_compute_moves (hf : h.Faithful w ds) {p : BranchPlan}
    (hy : w.Yields (BranchPlan.compute policy actor segment) h p h') :
    ∃ ds', h'.Faithful w ds' ∧ (∀ r, r ≠ segment.branch.project → ds' r = ds r) ∧
      (ds segment.branch.project = [] ∨ w.AcceptedStored segment.branch.project →
        ds' segment.branch.project = [] ∨ w.AcceptedStored segment.branch.project) ∧
      ((∃ problem, p.state = .aborted problem) ∨ ∃ tips moves p',
        w.branches segment.branch.project = .ok tips ∧ p = p'.resolve ∧
        Moves w segment.branch.project actor.ident policy.serverIdent
          (segment.headChanges.filterMap (·.currentCommit?)) moves (ds segment.branch.project)
          (start segment (policy.strategyFor segment.branch.project)
            ((tips.find? (·.1 == segment.branch)).map (·.2)))
          (ds' segment.branch.project) p') := by
  obtain ⟨ds', hf', hother, hstored, hend⟩ := yields_compute_rounds hf hy
  refine ⟨ds', hf', hother, hstored, hend.imp_right ?_⟩
  rintro ⟨tips, rounds, p', hbranches, hp, hheads, hrounds⟩
  have hcommits : rounds.map (·.head.2) = segment.headChanges.filterMap (·.currentCommit?) := by
    rw [← Segment.map_placed, ← hheads, List.map_map]
    rfl
  exact ⟨tips, rounds.map (·.move), p', hbranches, hp, hcommits ▸ hrounds.moves⟩

/-- Planning one branch, unless the plan is given up. -/
theorem yields_branchPlan (hf : h.Faithful w ds) {p : BranchPlan}
    (hy : w.Yields (BranchPlan.compute policy actor segment) h p h')
    (hkept : p.state.problem? = none) :
    ∃ ds', h'.Faithful w ds' ∧ p.PlanOf w segment (ds' segment.branch.project) ∧
      ∀ r, ds r ⊆ ds' r ∧ ∀ d ∈ ds' r, d ∈ ds r ∨ r = segment.branch.project ∧ d ∈ p.drafts := by
  obtain ⟨ds', hf', hother, -, hend⟩ := yields_compute_moves hf hy
  rcases hend with ⟨problem, habort⟩ | ⟨tips, moves, p', hbranches, rfl, hmoves⟩
  · rw [habort] at hkept
    cases hkept
  have hrun := hmoves.headsTaken
  have hframe := hrun.sameFrame
  have horigin := hrun.origin (fun _ hx => hx) (fun x hx => .inl hx)
    (by simp [ParentsBefore, BranchPlan.start])
  refine ⟨ds', hf', ?_, fun r => ?_⟩
  · refine ⟨hframe.branch, hframe.changes, hframe.merges rfl, ⟨_, rfl⟩, ⟨tips, hbranches, ?_⟩,
      hrun.known (by simp [BranchPlan.start]), horigin.1, horigin.2, fun hmoves => ?_, ?_, ?_⟩
    · exact hframe.oldTip
    · -- Without a head to take the tip stays.
      cases hheads : segment.headChanges.filterMap (·.currentCommit?) with
      | nil =>
        rw [hheads] at hrun
        have hsame := hrun.eq_of_nil
        subst hsame
        rcases hmoves with hmoves | hdrafts
        · exact absurd rfl hmoves
        · exact absurd rfl hdrafts
      | cons top tops =>
        have hmem : top ∈ segment.headChanges.filterMap (·.currentCommit?) := by simp [hheads]
        obtain ⟨t, ht, htop⟩ := List.mem_filterMap.1 hmem
        exact ⟨t, ht, top, htop⟩
    · intro all hdrafts hmerges old hold
      exact hrun.leads_tip hdrafts hmerges (hframe.oldTip.symm.trans hold)
    · intro all hdrafts hmerges t ht top htop
      exact hrun.leads_head hdrafts hmerges (List.mem_filterMap.2 ⟨t, ht, htop⟩)
  · by_cases hr : r = segment.branch.project
    · subst hr
      exact ⟨hrun.grows.1, fun d hd => (hrun.grows.2 d hd).imp_right fun hnew => ⟨rfl, hnew⟩⟩
    · rw [hother r hr]
      exact ⟨fun _ hd => hd, fun d hd => .inl hd⟩

end World

/-! ### Planning a branch only asks -/

namespace BranchPlan

open Study

variable {project : ProjectName} {policy : Policy} {actor : Account} {segment : Segment}

theorem isInquiry_treeAt {id : CommitId} : Reading.IsInquiry (treeAt project id) :=
  History.isInquiry_commit.bind fun c => isInquiry_pure c.tree

theorem isInquiry_coveredBy {commit running : CommitId} {integrated : List ChangeId}
    {changes : List Change} :
    Reading.IsInquiry (coveredBy project commit running integrated changes) := by
  refine isInquiry_filterM fun c => ?_
  split
  · exact isInquiry_pure false
  · refine History.isInquiry_isAncestor.bind fun b => ?_
    split
    · exact History.isInquiry_isAncestor.bind fun b => isInquiry_pure _
    · exact isInquiry_pure false

theorem isInquiry_draftMerge {running commit : CommitId} {covered : List (ChangeId × CommitId)} :
    Reading.IsInquiry (draftMerge policy actor project running commit covered) := by
  refine IsInquiry.bind ?_ fun base => ?_
  · refine History.isInquiry_mergeBase?.bind fun base => ?_
    split
    · exact isInquiry_treeAt
    · exact isInquiry_pure _
  · refine isInquiry_treeAt.bind fun ours => isInquiry_treeAt.bind fun theirs => ?_
    split
    · exact isInquiry_pure _
    · refine IsInquiry.bind (isInquiry_mapM fun c _ => ?_) fun subjects => ?_
      · exact History.isInquiry_commit.bind fun c => isInquiry_pure _
      · exact History.isInquiry_addDraft.bind fun id => isInquiry_pure _

theorem isInquiry_takeHead {p : BranchPlan} {integrated : List ChangeId} {head : ChangeId}
    {commit : CommitId} :
    Reading.IsInquiry (takeHead policy actor segment p integrated head commit) := by
  unfold takeHead
  split
  · exact isInquiry_pure _
  · refine History.isInquiry_isAncestor.bind fun b => ?_
    split
    · exact isInquiry_pure _
    · refine History.isInquiry_isAncestor.bind fun possible => ?_
      split
      · exact isInquiry_pure _
      · refine isInquiry_coveredBy.bind fun covered => ?_
        dsimp only
        split
        · exact isInquiry_pure _
        · refine isInquiry_draftMerge.bind fun r => ?_
          split
          · exact isInquiry_pure _
          · exact isInquiry_pure _

theorem isInquiry_takeHeads (p : BranchPlan) (integrated : List ChangeId) (heads : List Change) :
    Reading.IsInquiry (takeHeads policy actor segment p integrated heads) := by
  induction heads generalizing p integrated with
  | nil => exact isInquiry_pure _
  | cons head heads ih =>
    rw [takeHeads]
    split
    · exact ih p integrated
    · refine isInquiry_takeHead.bind fun r => ?_
      dsimp only
      split
      · exact isInquiry_pure _
      · exact ih r.1 r.2

theorem isInquiry_compute : Reading.IsInquiry (BranchPlan.compute policy actor segment) :=
  History.isInquiry_tip?.bind fun _ => isInquiry_takeHeads _ _ _

end BranchPlan
end Landing
