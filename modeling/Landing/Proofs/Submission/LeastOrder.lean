import Landing.Proofs.Submission.LeastClosure

/-!
# The order of a batch is the least one

Within a branch a change comes after all changes whose commit its own leads to, and of
several changes that may come the one with the lowest number does
(`LeastFirst`).  There is only one such order (`LeastFirst.unique`), so a batch does not
depend on the order in which its changes were gathered.

`Batch.order_least` says that ordering comes to an end with this batch, provided that
no commit leads back to itself.  Then counting down leaves nothing over: among the
changes that wait there is always one without a waiting change below it.
-/

namespace Landing

open World

/-! ### Least orders -/

section

variable {α β : Type} {Under : α → α → Prop} {num : α → ChangeId} {l l' : List α}

/-- Every member of the list comes after those that are under it, and of all members that could come
in its place it has the lowest number. -/
def LeastFirst (Under : α → α → Prop) (num : α → ChangeId) (l : List α) : Prop :=
  ∀ pre c post, l = pre ++ c :: post →
    (∀ a ∈ l, Under a c → a ∈ pre) ∧
      ∀ d ∈ post, (∀ a ∈ l, Under a d → a ∈ pre) → num c < num d

theorem leastFirst_nil : LeastFirst Under num [] := by
  intro pre c post heq
  simp at heq

/-- A member may be put in front if none is under it and it has the lowest number of all such. -/
theorem LeastFirst.cons {next : α} (hl : LeastFirst Under num l) (hnew : next ∉ l)
    (hfree : ∀ a ∈ next :: l, ¬ Under a next)
    (hleast : ∀ d ∈ l, (∀ a ∈ next :: l, ¬ Under a d) → num next < num d) :
    LeastFirst Under num (next :: l) := by
  intro pre c post heq
  cases pre with
  | nil =>
    obtain ⟨rfl, rfl⟩ := List.cons.inj heq
    refine ⟨fun a ha hunder => absurd hunder (hfree a ha), fun d hd hready => ?_⟩
    refine hleast d hd fun a ha hunder => ?_
    cases hready a ha hunder
  | cons first pre =>
    rw [List.cons_append] at heq
    obtain ⟨hfirst, htail⟩ := List.cons.inj heq
    subst hfirst
    obtain ⟨hafter, hlater⟩ := hl pre c post htail
    constructor
    · intro a ha hunder
      rcases List.mem_cons.1 ha with rfl | hal
      · exact List.mem_cons_self
      · exact List.mem_cons_of_mem _ (hafter a hal hunder)
    · intro d hd hready
      refine hlater d hd fun a ha hunder => ?_
      rcases List.mem_cons.1 (hready a (List.mem_cons_of_mem _ ha) hunder) with rfl | hpre
      · exact absurd ha hnew
      · exact hpre

/-- There is one least order only. -/
theorem LeastFirst.unique (hl : LeastFirst Under num l) (hl' : LeastFirst Under num l')
    (hperm : l.Perm l') : l = l' := by
  -- After a common beginning, either list would go on with the lower number of the two.
  have hrest : ∀ post pre post', l = pre ++ post → l' = pre ++ post' → post = post' := by
    intro post
    induction post with
    | nil =>
      intro pre post' heq heq'
      rw [heq, heq', List.perm_append_left_iff] at hperm
      exact hperm.nil_eq
    | cons c post ih =>
      intro pre post' heq heq'
      have hleft : (c :: post).Perm post' := by
        rw [heq, heq', List.perm_append_left_iff] at hperm
        exact hperm
      cases post' with
      | nil => cases hleft.eq_nil
      | cons c' post' =>
        by_cases hsame : c = c'
        · subst hsame
          rw [ih (pre ++ [c]) post' (by simp [heq]) (by simp [heq'])]
        · obtain ⟨hafter, hleast⟩ := hl pre c post heq
          obtain ⟨hafter', hleast'⟩ := hl' pre c' post' heq'
          have hc' : c' ∈ post :=
            (List.mem_cons.1 (hleft.symm.subset List.mem_cons_self)).resolve_left (Ne.symm hsame)
          have hc : c ∈ post' :=
            (List.mem_cons.1 (hleft.subset List.mem_cons_self)).resolve_left hsame
          have hlt : num c < num c' :=
            hleast c' hc' fun a ha hunder => hafter' a (hperm.subset ha) hunder
          have hlt' : num c' < num c :=
            hleast' c hc fun a ha hunder => hafter a (hperm.symm.subset ha) hunder
          exact absurd hlt' (UInt32.lt_asymm hlt)
  exact hrest l [] l' rfl rfl

/-- An order is a least one when the order of the images is. -/
theorem LeastFirst.of_map {f : α → β} {Under' : β → β → Prop} {num' : β → ChangeId}
    (hl : LeastFirst Under' num' (l.map f)) (hnodup : (l.map f).Nodup)
    (hunder : ∀ a ∈ l, ∀ c ∈ l, Under a c ↔ Under' (f a) (f c)) (hnum : ∀ a, num a = num' (f a)) :
    LeastFirst Under num l := by
  intro pre c post heq
  obtain ⟨hafter, hleast⟩ := hl (pre.map f) (f c) (post.map f) (by simp [heq])
  have hpre : ∀ a ∈ l, f a ∈ pre.map f → a ∈ pre := by
    intro a ha hmem
    obtain ⟨a', ha', hsame⟩ := List.mem_map.1 hmem
    have ha'l : a' ∈ l := by
      rw [heq]
      exact List.mem_append_left _ ha'
    rw [← List.inj_on_of_nodup_map hnodup ha'l ha hsame]
    exact ha'
  have hc : c ∈ l := by simp [heq]
  constructor
  · intro a ha h
    exact hpre a ha (hafter (f a) (List.mem_map_of_mem ha) ((hunder a ha c hc).1 h))
  · intro d hd hready
    have hdl : d ∈ l := by simp [heq, hd]
    rw [hnum, hnum]
    refine hleast (f d) (List.mem_map_of_mem hd) fun b hb h => ?_
    obtain ⟨a, ha, rfl⟩ := List.mem_map.1 hb
    exact List.mem_map_of_mem (hready a ha ((hunder a ha d hdl).2 h))

end

namespace Countdown

variable {below : List (ChangeId × ChangeId)} {ids waiting : List ChangeId}

/-- Among the changes that wait there is always one without a waiting change below it. -/
def Unlocked (below : List (ChangeId × ChangeId)) (ids : List ChangeId) : Prop :=
  ∀ waiting ⊆ ids, waiting ≠ [] → ∃ c ∈ waiting, ∀ a ∈ waiting, (a, c) ∉ below

theorem Unlocked.mono (hunlocked : Unlocked below ids) (hsub : waiting ⊆ ids) :
    Unlocked below waiting :=
  fun more hmore => hunlocked more (List.Subset.trans hmore hsub)

/-- The first number of an ascending list that passes a test is the lowest one that does. -/
theorem lt_of_find?_eq_some {test : ChangeId → Bool} {next d : ChangeId}
    (hascending : waiting.Pairwise (· < ·)) (hnext : waiting.find? test = some next)
    (hd : d ∈ waiting) (hpasses : test d = true) (hne : d ≠ next) : next < d := by
  obtain ⟨_, as, bs, hwaiting, hbefore⟩ := List.find?_eq_some_iff_append.1 hnext
  rw [hwaiting] at hascending hd
  rcases List.mem_append.1 hd with has | hlater
  · have hnot := hbefore d has
    rw [hpasses] at hnot
    cases hnot
  · have hdbs : d ∈ bs := (List.mem_cons.1 hlater).resolve_left hne
    exact (List.pairwise_cons.1 (List.pairwise_append.1 hascending).2.1).1 d hdbs

/-- Arranging brings the least order. -/
theorem Unlocked.leastFirst_arrange (hunlocked : Unlocked below waiting)
    (hascending : waiting.Pairwise (· < ·)) {count : Nat} (hcount : waiting.length ≤ count) :
    LeastFirst (fun a c => (a, c) ∈ below) id (arrange below count waiting) := by
  induction count generalizing waiting with
  | zero =>
    rw [arrange, List.eq_nil_of_length_eq_zero (Nat.le_zero.1 hcount)]
    exact leastFirst_nil
  | succ count ih =>
    have hfree : ∀ c, (!waiting.any fun a => below.contains (a, c)) = true ↔
        ∀ a ∈ waiting, (a, c) ∉ below := by
      intro c
      simp
    rw [arrange]
    split
    · next next hnext =>
      have hown := List.find?_some hnext
      have hmem : next ∈ waiting := List.mem_of_find?_eq_some hnext
      have hnodup : waiting.Nodup := hascending.imp fun hlt => UInt32.ne_of_lt hlt
      have hrest : ∀ a, a ∈ arrange below count (waiting.erase next) ↔ a ≠ next ∧ a ∈ waiting := by
        intro a
        rw [(perm_arrange ..).mem_iff, hnodup.mem_erase_iff]
      have hall : ∀ a ∈ next :: arrange below count (waiting.erase next), a ∈ waiting := by
        intro a ha
        rcases List.mem_cons.1 ha with rfl | hmore
        · exact hmem
        · exact ((hrest a).1 hmore).2
      refine LeastFirst.cons ?_ ?_ (fun a ha => (hfree next).1 hown a (hall a ha)) ?_
      · refine ih (hunlocked.mono List.erase_subset) (hascending.sublist List.erase_sublist) ?_
        rw [List.length_erase_of_mem hmem]
        omega
      · exact fun hagain => ((hrest next).1 hagain).1 rfl
      · intro d hd hdfree
        obtain ⟨hne, hdmem⟩ := (hrest d).1 hd
        refine lt_of_find?_eq_some hascending hnext hdmem ((hfree d).2 fun a ha => hdfree a ?_) hne
        by_cases hsame : a = next
        · exact hsame ▸ List.mem_cons_self
        · exact List.mem_cons_of_mem _ ((hrest a).2 ⟨hsame, ha⟩)
    · next hnone =>
      -- If anything waited, there would be one that may come.
      by_cases hempty : waiting = []
      · rw [hempty]
        exact leastFirst_nil
      · obtain ⟨c, hc, hcfree⟩ := hunlocked waiting (List.Subset.refl _) hempty
        exact absurd ((hfree c).2 hcfree) (List.find?_eq_none.1 hnone c hc)

/-- Counting down leaves nothing over. -/
theorem Unlocked.exists_run (hunlocked : Unlocked below ids)
    (hascending : ids.Pairwise (compare · · = .lt))
    (hpairs : ∀ e ∈ below, e.1 ∈ ids ∧ e.2 ∈ ids) :
    ∃ done, run below ids.length (start below ids) = some done ∧
      done.listed = arrange below ids.length ids := by
  obtain ⟨done, hrun, hinv, hkeys, hend⟩ := Countdown.exists_run hascending hpairs
  refine ⟨done, hrun, ?_⟩
  have hnone : waits ids done.listed = [] := by
    by_contra hne
    have hsub : waits ids done.listed ⊆ ids := List.filter_sublist.subset
    obtain ⟨c, hc, hfree⟩ := hunlocked (waits ids done.listed) hsub hne
    have hready : c ∈ done.ready.keys := by
      rw [hinv.ready_keys hascending fun e he => (hpairs e he).1, List.mem_filter]
      simpa [hc] using hfree
    rw [hkeys] at hready
    cases hready
  rw [hnone, List.append_nil] at hend
  exact hend

end Countdown

/-! ### Changes under each other -/

namespace World

variable {w : World} {project : ProjectName} {a b c : Change}

/-- The commit of `c` leads to that of `a`, and it is another one. -/
def Under (w : World) (project : ProjectName) (a c : Change) : Prop :=
  ∃ lower upper, a.currentCommit? = some lower ∧ c.currentCommit? = some upper ∧ lower ≠ upper ∧
    w.Leads [] project upper lower

/-- Leading to another commit takes at least one step. -/
theorem Under.transGen (h : w.Under project a c) : ∃ lower upper, a.currentCommit? = some lower ∧
    c.currentCommit? = some upper ∧ Relation.TransGen (w.Parent [] project) upper lower := by
  obtain ⟨lower, upper, hlower, hupper, hne, hleads⟩ := h
  rcases Relation.reflTransGen_iff_eq_or_transGen.1 hleads with heq | htrans
  · exact absurd heq hne
  · exact ⟨lower, upper, hlower, hupper, htrans⟩

/-- Of some changes there is always one that none of them is under. -/
theorem exists_lowest (hacyclic : w.Acyclic) (project : ProjectName) {members : List Change}
    (hne : members ≠ []) : ∃ c ∈ members, ∀ a ∈ members, ¬ w.Under project a c := by
  let Way : {c // c ∈ members} → {c // c ∈ members} → Prop := fun a c =>
    ∃ lower upper, a.1.currentCommit? = some lower ∧ c.1.currentCommit? = some upper ∧
      Relation.TransGen (w.Parent [] project) upper lower
  have htrans : IsTrans _ Way := ⟨by
    rintro x y z ⟨lower, mid, hlower, hmid, hway⟩ ⟨mid', upper, hmid', hupper, hway'⟩
    cases hmid.symm.trans hmid'
    exact ⟨lower, upper, hlower, hupper, hway'.trans hway⟩⟩
  have hirrefl : Std.Irrefl Way := ⟨by
    rintro x ⟨lower, upper, hlower, hupper, hway⟩
    cases hlower.symm.trans hupper
    exact hacyclic project lower hway⟩
  have hfinite : Finite {c // c ∈ members} := List.finite_toSet members
  have hwf : WellFounded Way := Finite.wellFounded_of_trans_of_irrefl Way
  obtain ⟨first, more, hmembers⟩ := List.exists_cons_of_ne_nil hne
  have hfirst : first ∈ members := by simp [hmembers]
  obtain ⟨⟨c, hc⟩, -, hlowest⟩ := hwf.has_min Set.univ ⟨⟨first, hfirst⟩, trivial⟩
  exact ⟨c, hc, fun a ha hunder => hlowest ⟨a, ha⟩ trivial hunder.transGen⟩

end World

/-! ### The order within a branch -/

namespace Segment

variable {w : World} {h h' : History} {branch : Branch} {members : List Change} {s : Segment}
variable {below : List (ChangeId × ChangeId)}

/-- The pairs are those of the changes of which the first is under the second. -/
def Pairs (w : World) (project : ProjectName) (members : List Change)
    (below : List (ChangeId × ChangeId)) : Prop :=
  ∀ lower upper, (lower, upper) ∈ below ↔
    ∃ a ∈ members, ∃ c ∈ members, a.id = lower ∧ c.id = upper ∧ w.Under project a c

open Classical in
/-- The changes for one branch are in the least order. -/
structure LeastOrder (w : World) (changes : List Change) (s : Segment) : Prop where
  perm : s.changes.Perm (changes.filter (·.dest == s.branch))
  leastFirst : LeastFirst (w.Under s.branch.project) (·.id) s.changes
  /-- The heads are the changes that are under no other one, in the order of the changes. -/
  heads_eq : s.heads =
    (s.changes.filter fun c => ∀ u ∈ s.changes, ¬ w.Under s.branch.project c u).map (·.id)
  dominated : ∀ c ∈ s.changes, ∀ commit, c.currentCommit? = some commit →
    ∃ t ∈ s.headChanges, ∃ top, t.currentCommit? = some top ∧
      w.Leads [] s.branch.project top commit
  /-- Counting down by the pairs comes to an end when all changes are listed. -/
  counted : ∃ below done, Pairs w s.branch.project s.changes below ∧
    Countdown.run below s.changes.length (Countdown.start below (byId s.changes).keys) = some done ∧
    done.listed = s.changes.map (·.id)

/-- Two changes of the same number are one. -/
theorem eq_of_id (hnodup : (members.map (·.id)).Nodup) {a c : Change} (ha : a ∈ members)
    (hc : c ∈ members) (hid : a.id = c.id) : a = c :=
  List.inj_on_of_nodup_map hnodup ha hc hid

/-- Asking for the pairs brings all of them and no others. -/
theorem pairs_of_yields (hf : h.Fresh w) (hnodup : (members.map (·.id)).Nodup)
    {project : ProjectName} (hy : w.Yields (pairs project (placed members)) h below h') :
    h'.Fresh w ∧ Pairs w project members below := by
  obtain ⟨hf', hsound, hcomplete⟩ := World.yields_pairs hf hy
  refine ⟨hf', fun lower upper => ⟨fun hmem => ?_, ?_⟩⟩
  · obtain ⟨l, hl, u, hu, heq, -, hne, hleads⟩ := hsound _ hmem
    obtain ⟨rfl, rfl⟩ := Prod.mk.inj heq
    obtain ⟨a, ha, hida, hlower⟩ := mem_placed.1 hl
    obtain ⟨c, hc, hidc, hupper⟩ := mem_placed.1 hu
    exact ⟨a, ha, c, hc, hida, hidc, l.2, u.2, hlower, hupper, hne, hleads⟩
  · rintro ⟨a, ha, c, hc, rfl, rfl, commit, top, hcommit, htop, hne, hleads⟩
    refine hcomplete (a.id, commit) (mem_placed.2 ⟨a, ha, rfl, hcommit⟩) (c.id, top)
      (mem_placed.2 ⟨c, hc, rfl, htop⟩) (fun hid => hne ?_) hne hleads
    rw [eq_of_id hnodup ha hc hid, htop] at hcommit
    exact (Option.some.inj hcommit).symm

namespace Pairs

variable {project : ProjectName}

theorem mem_keys (hpairs : Pairs w project members below) :
    ∀ e ∈ below, e.1 ∈ (byId members).keys ∧ e.2 ∈ (byId members).keys := by
  intro e he
  obtain ⟨a, ha, c, hc, hlower, hupper, -⟩ := (hpairs e.1 e.2).1 he
  exact ⟨mem_keys_byId.2 ⟨a, ha, hlower⟩, mem_keys_byId.2 ⟨c, hc, hupper⟩⟩

/-- A pair says something about the two changes of these numbers. -/
theorem mem_iff (hpairs : Pairs w project members below) (hnodup : (members.map (·.id)).Nodup)
    {a c : Change} (ha : a ∈ members) (hc : c ∈ members) :
    (a.id, c.id) ∈ below ↔ w.Under project a c := by
  rw [hpairs]
  constructor
  · rintro ⟨a', ha', c', hc', hida, hidc, hunder⟩
    rw [eq_of_id hnodup ha' ha hida, eq_of_id hnodup hc' hc hidc] at hunder
    exact hunder
  · exact fun hunder => ⟨a, ha, c, hc, rfl, rfl, hunder⟩

/-- No change waits in vain. -/
theorem unlocked (hpairs : Pairs w project members below) (hnodup : (members.map (·.id)).Nodup)
    (hacyclic : w.Acyclic) : Countdown.Unlocked below (byId members).keys := by
  intro waiting hsub hne
  obtain ⟨id, hid⟩ := List.exists_mem_of_ne_nil waiting hne
  obtain ⟨m, hm, rfl⟩ := mem_keys_byId.1 (hsub hid)
  have hsome : members.filter (waiting.contains ·.id) ≠ [] :=
    List.ne_nil_of_mem (List.mem_filter.2 ⟨hm, List.contains_iff_mem.2 hid⟩)
  obtain ⟨c, hc, hlowest⟩ := World.exists_lowest hacyclic project hsome
  obtain ⟨hcmem, hcwaits⟩ := List.mem_filter.1 hc
  refine ⟨c.id, List.contains_iff_mem.1 hcwaits, fun id hid hpair => ?_⟩
  obtain ⟨a, ha, rfl⟩ := mem_keys_byId.1 (hsub hid)
  refine hlowest a (List.mem_filter.2 ⟨ha, List.contains_iff_mem.2 hid⟩) ?_
  exact (hpairs.mem_iff hnodup ha hcmem).1 hpair

/-- A change is the lower one of no pair when it is under no other one. -/
theorem not_lower_iff (hpairs : Pairs w project members below)
    (hnodup : (members.map (·.id)).Nodup) {changes : List Change} (hperm : changes.Perm members)
    {c : Change} (hc : c ∈ changes) :
    (!below.any (·.1 == c.id)) = true ↔ ∀ u ∈ changes, ¬ w.Under project c u := by
  simp only [Bool.not_eq_true', List.any_eq_false, beq_iff_eq]
  constructor
  · intro hnone u hu hunder
    exact hnone _ ((hpairs.mem_iff hnodup (hperm.subset hc) (hperm.subset hu)).2 hunder) rfl
  · intro hnone e he hlower
    obtain ⟨a, ha, u, hu, hid, -, hunder⟩ := (hpairs e.1 e.2).1 he
    rw [eq_of_id hnodup ha (hperm.subset hc) (hid.trans hlower)] at hunder
    exact hnone u (hperm.symm.subset hu) hunder

end Pairs

/-- The changes are looked up under the numbers as they were arranged. -/
theorem map_id_arranged (branch : Branch) (members : List Change)
    (below : List (ChangeId × ChangeId)) : (arranged branch members below).changes.map (·.id) =
      Countdown.arrange below (byId members).keys.length (byId members).keys := by
  rw [arranged, List.map_filterMap]
  refine (List.filterMap_congr fun id hid => ?_).trans List.filterMap_some
  obtain ⟨c, hget⟩ := Table.mem_keys.1 ((Countdown.perm_arrange ..).subset hid)
  obtain ⟨c', -, heq⟩ := List.mem_map.1 (Table.mem_of_get?_ofList hget)
  obtain ⟨rfl, rfl⟩ := Prod.mk.inj heq
  rw [hget]
  rfl

/-- Two lists of the same changes make one table. -/
theorem keys_byId_of_perm {changes : List Change} (hperm : changes.Perm members) :
    (byId changes).keys = (byId members).keys := by
  refine Table.eq_of_ascending_keys (Table.ascending_keys _) (Table.ascending_keys _) fun id => ?_
  simp only [mem_keys_byId, hperm.mem_iff]

/-- Ordering the changes of one branch brings the least order. -/
theorem leastOrder_of_yields (hf : h.Fresh w) (hacyclic : w.Acyclic) {changes : List Change}
    (hmembers : members = changes.filter (·.dest == branch))
    (hnodup : (members.map (·.id)).Nodup) (hy : w.Yields (order branch members) h s h') :
    s.branch = branch ∧ s.LeastOrder w changes := by
  have horder := (World.yields_order hf hnodup hy).2
  obtain ⟨below, hbelow, rfl⟩ := yields_order hy
  have hpairs := (pairs_of_yields hf hnodup hbelow).2
  have hunlocked := hpairs.unlocked hnodup hacyclic
  have hascending := Table.ascending_keys (byId members)
  have hperm := perm_arranged branch hnodup below
  have hmap := map_id_arranged branch members below
  refine ⟨rfl, hmembers ▸ hperm, ?_, ?_, fun c hc commit hcommit => ?_, ?_⟩
  · have hids := hunlocked.leastFirst_arrange
      (hascending.imp fun hlt => Std.compare_eq_lt.1 hlt) (Nat.le_refl _)
    rw [← hmap] at hids
    refine hids.of_map (((hperm.map _).nodup_iff).2 hnodup) (fun a ha c hc => ?_) fun _ => rfl
    exact (hpairs.mem_iff hnodup (hperm.subset ha) (hperm.subset hc)).symm
  · show (Countdown.arrange below _ _).filter _ = _
    classical
    rw [← hmap, List.filter_map]
    congr 1
    refine List.filter_congr fun c hc => ?_
    rw [Bool.eq_iff_iff, decide_eq_true_iff]
    exact hpairs.not_lower_iff hnodup hperm hc
  · exact horder.dominated hacyclic hc hcommit
  · obtain ⟨done, hrun, hlisted⟩ := hunlocked.exists_run hascending hpairs.mem_keys
    refine ⟨below, done, fun lower upper => ?_, ?_, hlisted.trans hmap.symm⟩
    · simp only [hperm.mem_iff]
      exact hpairs lower upper
    · have hlength := congrArg List.length hmap
      rw [List.length_map, (Countdown.perm_arrange ..).length_eq] at hlength
      rw [keys_byId_of_perm hperm, hlength]
      exact hrun

/-- It does not matter in which order the changes are given. -/
theorem LeastOrder.of_perm {changes changes' : List Change} (horder : s.LeastOrder w changes')
    (hperm : changes'.Perm changes) : s.LeastOrder w changes :=
  { horder with perm := horder.perm.trans (hperm.filter _) }

/-- A branch has one least order only. -/
theorem LeastOrder.unique {changes : List Change} {s' : Segment}
    (horder : s.LeastOrder w changes) (horder' : s'.LeastOrder w changes)
    (hbranch : s.branch = s'.branch) : s = s' := by
  have hmembers := horder.perm
  rw [hbranch] at hmembers
  have hleast' := horder'.leastFirst
  rw [← hbranch] at hleast'
  have hsame := horder.leastFirst.unique hleast' (hmembers.trans horder'.perm.symm)
  have hheads := horder.heads_eq
  rw [hsame, hbranch, ← horder'.heads_eq] at hheads
  cases s
  cases s'
  simp only [Segment.mk.injEq]
  exact ⟨hbranch, hsame, hheads⟩

end Segment

/-! ### The batch as a whole -/

namespace Batch

variable {w : World} {h h' : History} {changes changes' : List Change} {b b' : Batch}

/-- There is one segment for every branch, in branch order, and each of them is in the least order. -/
structure LeastOrder (w : World) (changes : List Change) (b : Batch) : Prop where
  ascending : (b.segments.map (·.branch)).Pairwise (compare · · = .lt)
  branches : ∀ branch, branch ∈ b.segments.map (·.branch) ↔ ∃ c ∈ changes, c.dest = branch
  segments : ∀ s ∈ b.segments, s.LeastOrder w changes

/-- It does not matter in which order the changes are given. -/
theorem LeastOrder.of_perm (horder : b.LeastOrder w changes') (hperm : changes'.Perm changes) :
    b.LeastOrder w changes where
  ascending := horder.ascending
  branches := fun branch => by simp only [horder.branches, hperm.mem_iff]
  segments := fun s hs => (horder.segments s hs).of_perm hperm

/-- Changes have one least order only. -/
theorem LeastOrder.unique (horder : b.LeastOrder w changes) (horder' : b'.LeastOrder w changes) :
    b = b' := by
  have hbranches : b.segments.map (·.branch) = b'.segments.map (·.branch) := by
    refine Table.eq_of_ascending_keys horder.ascending horder'.ascending fun branch => ?_
    rw [horder.branches, horder'.branches]
  have hsegments : b.segments = b'.segments := by
    refine List.ext_getElem ?_ fun i hi hi' => ?_
    · simpa using congrArg List.length hbranches
    · refine (horder.segments _ (List.getElem_mem hi)).unique
        (horder'.segments _ (List.getElem_mem hi')) ?_
      have hbranch := List.getElem_of_eq hbranches (by simpa using hi)
      simpa using hbranch
  cases b
  cases b'
  exact congrArg Batch.mk hsegments

/-- Ordering brings the least order. -/
theorem leastOrder_of_yields (hf : h.Fresh w) (hacyclic : w.Acyclic)
    (hnodup : (changes.map (·.id)).Nodup) (hy : w.Yields (order changes) h b h') :
    b.LeastOrder w changes := by
  have hbranches := World.branches_of_batch hy
  have horder := (World.yields_batch hf hnodup hy).2
  refine ⟨?_, fun branch => ⟨fun hmem => ?_, ?_⟩, ?_⟩
  · rw [← hbranches]
    exact Table.ascending_keys _
  · obtain ⟨s, hs, rfl⟩ := List.mem_map.1 hmem
    obtain ⟨c, hc⟩ := List.exists_mem_of_ne_nil _ (horder.changes_ne_nil hbranches hs)
    exact ⟨c, horder.mem_of_segment hs hc⟩
  · rintro ⟨c, hc, rfl⟩
    obtain ⟨s, hs, hbranch⟩ := horder.covers c hc
    exact List.mem_map.2 ⟨s, hs, hbranch⟩
  · simp only [order, yields_bind, yields_pure] at hy
    obtain ⟨segments, _, hsegments, rfl, rfl⟩ := hy
    obtain ⟨-, hall⟩ := World.yields_mapM (I := fun h => h.Fresh w)
      (R := fun (_ : Branch × List Change) (s : Segment) => s.LeastOrder w changes)
      (fun e he h s h' hI hs => by
        have hgroup := mem_byBranch he
        have hown : (e.2.map (·.id)).Nodup := by
          rw [hgroup]
          exact hnodup.sublist (List.filter_sublist.map _)
        exact ⟨(World.yields_order hI hown hs).1,
          (Segment.leastOrder_of_yields hI hacyclic hgroup hown hs).2⟩) hf hsegments
    intro s hs
    obtain ⟨e, -, horder⟩ := exists_left_of_forall₂ hall hs
    exact horder

end Batch

/-! ### Ordering comes to an end -/

namespace World

variable {w : World} {h : History} {project : ProjectName}

/-- Asking for the pairs fails only if something that a commit leads to is missing. -/
theorem ends_pairs (ha : h.Ample w fun _ => []) (all : List (ChangeId × CommitId)) :
    w.Ends (Segment.pairs project all) h (fun _ h' => h'.Ample w fun _ => [])
      (fun _ => ∃ e ∈ all, ¬ w.Stocked project ∨
        ∃ x, w.Leads [] project e.2 x ∧ w.commit? project x = none) := by
  have hrow : ∀ lower ∈ all, ∀ h : History, (h.Ample w fun _ => []) →
      w.Ends (Segment.pairsAbove project lower all) h (fun _ h' => h'.Ample w (fun _ => []) ∧ True)
        (fun _ => ∃ e ∈ all, ¬ w.Stocked project ∨
          ∃ x, w.Leads [] project e.2 x ∧ w.commit? project x = none) := by
    intro lower _ h ha
    refine (ends_filterM (fun upper hupper h ha => ?_) ha).bind fun above h₁ ha₁ =>
      ends_pure ⟨ha₁, trivial⟩
    split
    · exact ends_pure ha
    · refine (ends_isAncestor (settled_nil w project) ha.ready).mono (fun _ _ hr => hr.toAmple) ?_
      rintro e (hmissing | ⟨x, hleads, hx⟩)
      · exact ⟨upper, hupper, .inl hmissing⟩
      · refine ⟨upper, hupper, .inr ⟨x, hleads, ?_⟩⟩
        exact Option.eq_none_iff_forall_ne_some.2 fun c hc => hx c (.inl hc)
  exact (ends_mapM hrow ha).bind fun lists h₁ hlists => ends_pure hlists.1

/-- Ordering the changes of one branch fails only if the history of one of them misses something. -/
theorem ends_order (ha : h.Ample w fun _ => []) {branch : Branch} {members : List Change}
    (hdest : ∀ c ∈ members, c.dest = branch) :
    w.Ends (Segment.order branch members) h (fun _ h' => h'.Ample w fun _ => [])
      (fun _ => ∃ c ∈ members, ¬ w.WholeChange c) := by
  have hpairs := (ends_pairs ha (Segment.placed members)).and_yields (x :=
    Segment.pairs branch.project (Segment.placed members))
    fun below h' hy => Segment.mem_keys_of_pairs hy
  refine (hpairs.mono (fun _ _ hp => hp) ?_).bind fun below h₁ hasked => ?_
  · rintro - ⟨e, he, hbroken⟩
    obtain ⟨c, hc, -, hcommit⟩ := Segment.mem_placed.1 he
    refine ⟨c, hc, fun hwhole => ?_⟩
    rw [← hdest c hc] at hbroken
    rcases hbroken with hstocked | ⟨x, hleads, hx⟩
    · exact hstocked (hwhole.stocked hcommit)
    · have hstored := (hwhole e.2 hcommit).1 x hleads
      rw [hx] at hstored
      cases hstored
  · rw [Segment.list?_byId hasked.2]
    exact ends_pure hasked.1

end World

namespace Batch

variable {w : World} {h : History} {changes changes' : List Change}

theorem ends_order (ha : h.Ample w fun _ => []) (changes : List Change) :
    w.Ends (order changes) h (fun _ _ => True) (fun _ => ∃ c ∈ changes, ¬ w.WholeChange c) := by
  refine (World.ends_mapM (I := fun h => h.Ample w fun _ => []) (R := fun _ _ => True)
    (fun e he h ha => ?_) ha).bind fun segments h₁ hsegments => World.ends_pure trivial
  have hgroup := mem_byBranch he
  refine (World.ends_order ha fun c hc => ?_).mono (fun _ _ ha' => ⟨ha', trivial⟩) ?_
  · rw [hgroup] at hc
    exact beq_iff_eq.1 (List.mem_filter.1 hc).2
  · rintro - ⟨c, hc, hbroken⟩
    rw [hgroup] at hc
    exact ⟨c, (List.mem_filter.1 hc).1, hbroken⟩

/-- What comes of ordering changes. -/
inductive Ordered (w : World) (changes : List Change) (b : Batch) : Except StoreError Batch → Prop
  /-- The batch in the least order is given. -/
  | least : b.LeastOrder w changes → Ordered w changes b (.ok b)
  /-- A store call failed, since the history of a change misses something. -/
  | failed {c : Change} {e : StoreError} : c ∈ changes → ¬ w.WholeChange c →
    Ordered w changes b (.error e)

/-- **The order of a batch is the least one.**  Where no commit leads back to itself, ordering changes
with different numbers comes to an end from every history without drafts whose budget exceeds the
reach of the world.  It gives the one batch in the least order, in whatever order the changes are
given, unless the history of a change misses something. -/
theorem order_least (hacyclic : w.Acyclic) (hnodup : (changes.map (·.id)).Nodup) :
    ∃ b : Batch, ∀ changes' : List Change, changes'.Perm changes → ∀ h : History, h.Fresh w →
      w.reach ≤ h.budget → ∃ r h', Program.result w (order changes' h) = some (r, h') ∧
        Ordered w changes b r := by
  have hend : ∀ changes' : List Change, changes'.Perm changes → ∀ h : History, h.Fresh w →
      w.reach ≤ h.budget → ∃ r h', Program.result w (order changes' h) = some (r, h') ∧
        ((∃ b : Batch, r = .ok b ∧ b.LeastOrder w changes) ∨
          ∃ e, r = .error e ∧ ∃ c ∈ changes, ¬ w.WholeChange c) := by
    intro changes' hperm h hfresh hbudget
    have hnodup' : (changes'.map (·.id)).Nodup := ((hperm.map _).nodup_iff).2 hnodup
    obtain ⟨r, h', hresult, hr⟩ := (ends_order (History.ample_of_reach hfresh hbudget)
      changes').and_yields fun b h' hy => leastOrder_of_yields hfresh hacyclic hnodup' hy
    refine ⟨r, h', hresult, ?_⟩
    cases r with
    | ok b => exact .inl ⟨b, rfl, hr.2.of_perm hperm⟩
    | error e =>
      obtain ⟨c, hc, hbroken⟩ := hr
      exact .inr ⟨e, rfl, c, hperm.subset hc, hbroken⟩
  -- If there is no batch in the least order, then there was an error each time.
  obtain ⟨b, hb⟩ : ∃ b : Batch, ∀ b' : Batch, b'.LeastOrder w changes → b' = b := by
    by_cases hsome : ∃ b : Batch, b.LeastOrder w changes
    · obtain ⟨b, hb⟩ := hsome
      exact ⟨b, fun b' hb' => hb'.unique hb⟩
    · exact ⟨.empty, fun b' hb' => absurd ⟨b', hb'⟩ hsome⟩
  refine ⟨b, fun changes' hperm h hfresh hbudget => ?_⟩
  obtain ⟨r, h', hresult, ⟨b', rfl, hb'⟩ | ⟨e, rfl, c, hc, hbroken⟩⟩ :=
    hend changes' hperm h hfresh hbudget
  · obtain rfl := hb b' hb'
    exact ⟨_, h', hresult, .least hb'⟩
  · exact ⟨_, h', hresult, .failed hc hbroken⟩

/-- Two changes at siblings and one in another project, given in an order of their own, are put in the
order of the batch that is submitted. -/
theorem order_least_siblings :
    let w := Sample.siblings.world
    let changes := [Sample.change 3 "q" Sample.z, Sample.change 2 "p" Sample.y,
      Sample.change 1 "p" Sample.x]
    let b := Sample.siblings.plan.batch
    w.Acyclic ∧ (changes.map (·.id)).Nodup ∧ b.LeastOrder w changes ∧
      (∃ h', Program.result w (order changes (.start w.reach)) = some (.ok b, h')) ∧
      ∀ changes' : List Change, changes'.Perm changes → ∀ h : History, h.Fresh w →
        w.reach ≤ h.budget → ∃ r h', Program.result w (order changes' h) = some (r, h') ∧
          Ordered w changes b r := by
  intro w changes b
  have hnodup : (changes.map (·.id)).Nodup := by decide +kernel
  obtain ⟨b', hall⟩ := order_least Sample.siblings.acyclic hnodup
  obtain ⟨r, h', hresult, hordered⟩ := hall changes (.refl _) (.start w.reach)
    (History.faithful_start w _) (Nat.le_refl _)
  have hbatch : (Program.result w (order changes (.start w.reach))).map (·.1) = some (.ok b) := by
    decide +kernel
  obtain rfl : r = .ok b := by
    rw [hresult] at hbatch
    exact Option.some.inj hbatch
  -- So this is the batch that all orders come to.
  cases hordered with
  | least hleast => exact ⟨Sample.siblings.acyclic, hnodup, hleast, ⟨h', hresult⟩, hall⟩

end Batch

end Landing
