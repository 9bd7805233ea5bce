import Landing.Proofs.Submission.Closure
import Landing.Proofs.Submission.Countdown

/-!
# The order of a batch

A batch has one segment for every branch of its changes, and a segment holds
exactly the changes for its branch (`World.yields_batch`).  The heads of a
segment dominate it: every change of the segment that is not a head has another
one above it, so in a history without circles some head leads to every change
(`Segment.OrderOf.dominated`).  This is why it is enough to take the heads.
-/

namespace Landing

open World

/-! ### Changes by branch -/

namespace Batch

variable {changes : List Change} {branch : Branch} {members : List Change}

/-- Grouping by branch keeps every branch's changes in the given order. -/
theorem get?_byBranch (changes : List Change) (branch : Branch) :
    ((byBranch changes).get? branch).getD [] = changes.filter (·.dest == branch) ∧
      (byBranch changes).get? branch ≠ some [] := by
  -- One more change at the end goes to the end of its own branch.
  induction changes using List.reverseRecOn with
  | nil => simp [byBranch]
  | append_singleton changes c ih =>
    have hstep : byBranch (changes ++ [c]) = (byBranch changes).insert c.dest
        (((byBranch changes).get? c.dest).getD [] ++ [c]) := by
      simp [byBranch]
    rw [hstep, List.filter_append]
    by_cases hbranch : c.dest = branch
    · subst hbranch
      rw [Table.get?_insert_self]
      simp [ih.1]
    · rw [Table.get?_insert_of_ne _ _ (Ne.symm hbranch)]
      have hfilter : List.filter (fun x => x.dest == branch) [c] = [] := by simp [hbranch]
      rw [hfilter, List.append_nil]
      exact ih

/-- The group of a branch. -/
theorem mem_byBranch (hentry : (branch, members) ∈ (byBranch changes).entries) :
    members = changes.filter (·.dest == branch) := by
  have hget := (Table.get?_eq_some_iff ..).2 hentry
  have hgroup := (get?_byBranch changes branch).1
  rw [hget] at hgroup
  exact hgroup

/-- Every change is in the group of its branch. -/
theorem exists_mem_byBranch {c : Change} (hc : c ∈ changes) :
    ∃ members, (c.dest, members) ∈ (byBranch changes).entries ∧ c ∈ members := by
  have hgroup := (get?_byBranch changes c.dest).1
  have hmem : c ∈ changes.filter (·.dest == c.dest) := by simp [hc]
  cases hget : (byBranch changes).get? c.dest with
  | none =>
    rw [hget] at hgroup
    rw [← hgroup] at hmem
    cases hmem
  | some members =>
    rw [hget] at hgroup
    refine ⟨members, (Table.get?_eq_some_iff ..).1 hget, ?_⟩
    rw [← hgroup] at hmem
    exact hmem

end Batch

/-! ### The order within a branch -/

namespace Segment

/-- Looking the keys of a table up in another order lists its values in another order. -/
theorem perm_filterMap_get? {byId : Table ChangeId Change} {ids : List ChangeId}
    (hperm : ids.Perm byId.keys) : (ids.filterMap byId.get?).Perm byId.values := by
  have hvalues : byId.keys.filterMap byId.get? = byId.values := by
    rw [Table.keys, List.filterMap_map, Table.values, ← List.filterMap_eq_map]
    refine List.filterMap_congr fun e he => ?_
    exact (Table.get?_eq_some_iff ..).2 he
  rw [← hvalues]
  exact hperm.filterMap _

/-- Changes with different numbers, put into a table by number, are listed in another order. -/
theorem perm_values_ofList {members : List Change} (hnodup : (members.map (·.id)).Nodup) :
    (Table.ofList (members.map fun c => (c.id, c))).values.Perm members := by
  have hkeys : ((members.map fun c => (c.id, c)).map (·.1)).Nodup := by
    rw [List.map_map]
    exact hnodup
  have hget : ∀ k c, (Table.ofList (members.map fun c => (c.id, c))).get? k = some c ↔
      c ∈ members ∧ c.id = k := by
    intro k c
    rw [Table.get?_ofList hkeys]
    simp only [List.mem_map, Prod.mk.injEq]
    constructor
    · rintro ⟨c', hc', rfl, rfl⟩
      exact ⟨hc', rfl⟩
    · rintro ⟨hc, rfl⟩
      exact ⟨c, hc, rfl, rfl⟩
  refine (List.perm_ext_iff_of_nodup ?_ (List.Nodup.of_map _ hnodup)).2 fun c => ?_
  · refine List.Nodup.of_map (·.id) ?_
    rw [Table.map_values_eq_keys fun k c hc => ((hget k c).1 hc).2]
    exact Table.nodup_keys _
  · simp [Table.mem_values, hget]

variable {w : World} {branch : Branch} {members : List Change} {s : Segment}

/-- What is said about the order of the changes for one branch. -/
structure OrderOf (w : World) (branch : Branch) (members : List Change) (s : Segment) : Prop where
  branch_eq : s.branch = branch
  perm : s.changes.Perm members
  /-- Above every change with a commit there is another one, unless the change is a head. -/
  above : ∀ c ∈ s.changes, ∀ commit, c.currentCommit? = some commit → c ∈ s.headChanges ∨
    ∃ u ∈ s.changes, ∃ upper, u.currentCommit? = some upper ∧ commit ≠ upper ∧
      w.Leads [] branch.project upper commit

/-- In a history without circles, some head leads to every change with a commit, if above every such
change that is not a head there is another one. -/
theorem exists_head_of_above {project : ProjectName} (hacyclic : w.Acyclic)
    (habove : ∀ c ∈ s.changes, ∀ commit, c.currentCommit? = some commit → c ∈ s.headChanges ∨
      ∃ u ∈ s.changes, ∃ upper, u.currentCommit? = some upper ∧ commit ≠ upper ∧
        w.Leads [] project upper commit)
    {c : Change} (hc : c ∈ s.changes) {commit : CommitId} (hcommit : c.currentCommit? = some commit) :
    ∃ t ∈ s.headChanges, ∃ top, t.currentCommit? = some top ∧ w.Leads [] project top commit := by
  -- Pairs of a change and its commit, so that every member has a commit.
  let pairs : List (Change × CommitId) :=
    s.changes.filterMap fun c => c.currentCommit?.map fun commit => (c, commit)
  have hpairs : ∀ m, m ∈ pairs ↔ m.1 ∈ s.changes ∧ m.1.currentCommit? = some m.2 := by
    intro m
    simp only [pairs, List.mem_filterMap, Option.map_eq_some_iff]
    constructor
    · rintro ⟨c, hc, commit, hcommit, rfl⟩
      exact ⟨hc, hcommit⟩
    · rintro ⟨hm, hcommit⟩
      exact ⟨m.1, hm, m.2, hcommit, rfl⟩
  have hstep : ∀ m ∈ pairs, m.1 ∈ s.headChanges ∨ ∃ u ∈ pairs, m.2 ≠ u.2 ∧
      w.Leads [] project u.2 m.2 := by
    intro m hm
    obtain ⟨hmem, hcur⟩ := (hpairs m).1 hm
    rcases habove m.1 hmem m.2 hcur with hhead | ⟨u, hu, upper, hupper, hne, hleads⟩
    · exact .inl hhead
    · exact .inr ⟨(u, upper), (hpairs _).2 ⟨hu, hupper⟩, hne, hleads⟩
  obtain ⟨t, ht, htop, hleads⟩ :=
    exists_above (fun m : Change × CommitId => m.2) hacyclic hstep (c, commit)
      ((hpairs _).2 ⟨hc, hcommit⟩)
  exact ⟨t.1, htop, t.2, ((hpairs t).1 ht).2, hleads⟩

/-- In a history without circles, some head leads to every change of the segment. -/
theorem OrderOf.dominated (horder : s.OrderOf w branch members) (hacyclic : w.Acyclic)
    {c : Change} (hc : c ∈ s.changes) {commit : CommitId} (hcommit : c.currentCommit? = some commit) :
    ∃ t ∈ s.headChanges, ∃ top, t.currentCommit? = some top ∧
      w.Leads [] branch.project top commit :=
  exists_head_of_above hacyclic horder.above hc hcommit

/-! ### Asking for the pairs -/

theorem mem_placed {e : ChangeId × CommitId} :
    e ∈ placed members ↔ ∃ c ∈ members, c.id = e.1 ∧ c.currentCommit? = some e.2 := by
  simp only [placed, List.mem_filterMap, Option.map_eq_some_iff]
  constructor
  · rintro ⟨c, hc, commit, hcommit, rfl⟩
    exact ⟨c, hc, rfl, hcommit⟩
  · rintro ⟨c, hc, hid, hcommit⟩
    exact ⟨c, hc, e.2, hcommit, Prod.ext hid rfl⟩

/-- The commits of changes are listed in the order of the changes. -/
theorem map_placed (members : List Change) :
    (placed members).map (·.2) = members.filterMap (·.currentCommit?) := by
  rw [placed, List.map_filterMap]
  refine List.filterMap_congr fun c _ => ?_
  cases c.currentCommit? <;> rfl

theorem mem_keys_byId {id : ChangeId} : id ∈ (byId members).keys ↔ ∃ c ∈ members, c.id = id := by
  simp [byId, Table.mem_keys_ofList]

/-- The changes of one branch, arranged by given pairs. -/
def arranged (branch : Branch) (members : List Change) (below : List (ChangeId × ChangeId)) :
    Segment :=
  let ids := Countdown.arrange below (byId members).keys.length (byId members).keys
  ⟨branch, ids.filterMap (byId members).get?, ids.filter fun id => !below.any (·.1 == id)⟩

/-- Arranging only changes the order. -/
theorem perm_arranged (branch : Branch) (hnodup : (members.map (·.id)).Nodup)
    (below : List (ChangeId × ChangeId)) : (arranged branch members below).changes.Perm members := by
  -- The numbers are arranged and looked up again, which is a detour to another order.
  have hids := Countdown.perm_arrange below (byId members).keys.length (byId members).keys
  exact (perm_filterMap_get? hids).trans (perm_values_ofList hnodup)

/-- What is found under a number is a member of this number. -/
theorem mem_of_get?_byId {id : ChangeId} {c : Change} (hget : (byId members).get? id = some c) :
    c ∈ members ∧ c.id = id := by
  obtain ⟨c', hc', heq⟩ := List.mem_map.1 (Table.mem_of_get?_ofList hget)
  cases heq
  exact ⟨hc', rfl⟩

/-- The arranged changes are the members that are found under their numbers. -/
theorem mem_changes_arranged {below : List (ChangeId × ChangeId)} {c : Change} :
    c ∈ (arranged branch members below).changes ↔ (byId members).get? c.id = some c := by
  constructor
  · intro hc
    obtain ⟨id, -, hget⟩ := List.mem_filterMap.1 hc
    rw [(mem_of_get?_byId hget).2]
    exact hget
  · intro hget
    have hkey : c.id ∈ (byId members).keys :=
      List.mem_map.2 ⟨_, (Table.get?_eq_some_iff ..).1 hget, rfl⟩
    exact List.mem_filterMap.2 ⟨c.id, (Countdown.perm_arrange ..).mem_iff.2 hkey, hget⟩

/-- Different arranged changes have different numbers. -/
theorem nodup_placed_arranged {below : List (ChangeId × ChangeId)} :
    ((placed (arranged branch members below).changes).map (·.1)).Nodup := by
  have hids : (Countdown.arrange below (byId members).keys.length (byId members).keys).Nodup :=
    (Countdown.perm_arrange ..).nodup_iff.2 (Table.nodup_keys _)
  rw [placed, List.map_filterMap, arranged, List.filterMap_filterMap]
  refine hids.filterMap fun id id' number hnumber hnumber' => ?_
  -- A number that is looked up gives a change of this number.
  have hfound : ∀ {id : ChangeId}, number ∈ ((byId members).get? id).bind (fun c =>
      (c.currentCommit?.map fun commit => (c.id, commit)).map (·.1)) → id = number := by
    intro id hnumber
    obtain ⟨c, hget, hc⟩ := Option.bind_eq_some_iff.1 hnumber
    obtain ⟨e, he, rfl⟩ := Option.map_eq_some_iff.1 hc
    obtain ⟨commit, -, rfl⟩ := Option.map_eq_some_iff.1 he
    exact (mem_of_get?_byId hget).2.symm
  rw [hfound hnumber, hfound hnumber']

section

variable {A : (c : StoreCall) → Except StoreError c.Reply → Prop} {h h' : History}
variable {project : ProjectName} {all : List (ChangeId × CommitId)}
variable {below : List (ChangeId × ChangeId)}

/-- The pairs are asked for one by one.  `P` is what an answer tells. -/
theorem yields_pairs {I : History → Prop} {P : CommitId → CommitId → Bool → Prop}
    (hstep : ∀ lower upper h b h', I h →
      Study.Yields A (History.isAncestor project lower upper) h b h' → I h' ∧ P lower upper b)
    (hI : I h) (hy : Study.Yields A (pairs project all) h below h') :
    I h' ∧
      (∀ e ∈ below, ∃ lower ∈ all, ∃ upper ∈ all, e = (lower.1, upper.1) ∧
        lower.1 ≠ upper.1 ∧ lower.2 ≠ upper.2 ∧ P lower.2 upper.2 true) ∧
      ∀ lower ∈ all, ∀ upper ∈ all, lower.1 ≠ upper.1 → lower.2 ≠ upper.2 →
        (lower.1, upper.1) ∈ below ∨ P lower.2 upper.2 false := by
  simp only [pairs, yields_bind, yields_pure] at hy
  obtain ⟨lists, _, hlists, rfl, rfl⟩ := hy
  obtain ⟨hI', hall⟩ := yields_mapM (I := I)
    (R := fun (lower : ChangeId × CommitId) (l : List (ChangeId × ChangeId)) =>
      (∀ e ∈ l, ∃ upper ∈ all, e = (lower.1, upper.1) ∧ lower.1 ≠ upper.1 ∧ lower.2 ≠ upper.2 ∧
        P lower.2 upper.2 true) ∧
      ∀ upper ∈ all, lower.1 ≠ upper.1 → lower.2 ≠ upper.2 →
        (lower.1, upper.1) ∈ l ∨ P lower.2 upper.2 false)
    (fun lower _ h l h' hI hl => by
      simp only [pairsAbove, yields_bind, yields_pure] at hl
      obtain ⟨above, _, habove, rfl, rfl⟩ := hl
      obtain ⟨hI', hsub, hkept, hleft⟩ := yields_filterM (I := I)
        (P := fun (upper : ChangeId × CommitId) b =>
          (b = true → lower.1 ≠ upper.1 ∧ lower.2 ≠ upper.2) ∧
          (lower.1 ≠ upper.1 → lower.2 ≠ upper.2 → P lower.2 upper.2 b))
        (fun upper _ h b h' hI hb => by
          split at hb
          · next hsame =>
            obtain ⟨rfl, rfl⟩ := yields_pure.1 hb
            refine ⟨hI, by simp, fun hid hcommit => ?_⟩
            exact absurd hsame (not_or.2 ⟨hid, hcommit⟩)
          · next hother =>
            obtain ⟨hI', hb⟩ := hstep lower.2 upper.2 h b h' hI hb
            exact ⟨hI', fun _ => not_or.1 hother, fun _ _ => hb⟩) hI habove
      refine ⟨hI', fun e he => ?_, fun upper hupper hid hcommit => ?_⟩
      · obtain ⟨upper, hupper, rfl⟩ := List.mem_map.1 he
        obtain ⟨hdiffers, hanswer⟩ := hkept upper hupper
        obtain ⟨hid, hcommit⟩ := hdiffers rfl
        exact ⟨upper, hsub.subset hupper, rfl, hid, hcommit, hanswer hid hcommit⟩
      · rcases hleft upper hupper with hmem | hanswer
        · exact .inl (List.mem_map.2 ⟨upper, hmem, rfl⟩)
        · exact .inr (hanswer.2 hid hcommit)) hI hlists
  refine ⟨hI', fun e he => ?_, fun lower hlower upper hupper hid hcommit => ?_⟩
  · obtain ⟨l, hl, hel⟩ := List.mem_flatten.1 he
    obtain ⟨lower, hlower, hpairs, _⟩ := exists_left_of_forall₂ hall hl
    exact ⟨lower, hlower, hpairs e hel⟩
  · obtain ⟨l, hl, _, hpairs⟩ := exists_right_of_forall₂ hall hlower
    rcases hpairs upper hupper hid hcommit with hmem | hanswer
    · exact .inl (List.mem_flatten.2 ⟨l, hl, hmem⟩)
    · exact .inr hanswer

/-- The pairs are pairs of members, whatever the answers are. -/
theorem mem_keys_of_pairs (hy : Study.Yields A (pairs project (placed members)) h below h') :
    ∀ e ∈ below, e.1 ∈ (byId members).keys ∧ e.2 ∈ (byId members).keys := by
  intro e he
  obtain ⟨lower, hlower, upper, hupper, rfl, _⟩ :=
    (yields_pairs (I := fun _ => True) (P := fun _ _ _ => True)
      (fun _ _ _ _ _ _ _ => ⟨trivial, trivial⟩) trivial hy).2.1 e he
  obtain ⟨c, hc, hlower, _⟩ := mem_placed.1 hlower
  obtain ⟨u, hu, hupper, _⟩ := mem_placed.1 hupper
  exact ⟨mem_keys_byId.2 ⟨c, hc, hlower⟩, mem_keys_byId.2 ⟨u, hu, hupper⟩⟩

/-- Counting down brings what arranging does: whatever the answers are, no counter goes below zero. -/
theorem list?_byId (hpairs : ∀ e ∈ below, e.1 ∈ (byId members).keys ∧ e.2 ∈ (byId members).keys) :
    Countdown.list? below (byId members).keys =
      some (Countdown.arrange below (byId members).keys.length (byId members).keys) :=
  Countdown.list?_eq_arrange (Table.ascending_keys _) hpairs

/-- To order the changes of one branch is to ask for the pairs and to arrange by them. -/
theorem yields_order (hy : Study.Yields A (order branch members) h s h') :
    ∃ below, Study.Yields A (pairs branch.project (placed members)) h below h' ∧
      s = arranged branch members below := by
  rw [order, yields_bind] at hy
  obtain ⟨below, h₁, hbelow, hs⟩ := hy
  simp only [list?_byId (mem_keys_of_pairs hbelow), yields_pure] at hs
  obtain ⟨rfl, rfl⟩ := hs
  exact ⟨below, hbelow, rfl⟩

end

end Segment

namespace World

variable {w : World} {h h' : History} {project : ProjectName}

/-- The listed pairs are exactly the changes of which the first is below the second. -/
theorem yields_pairs (hf : h.Fresh w) {all : List (ChangeId × CommitId)}
    {below : List (ChangeId × ChangeId)}
    (hy : w.Yields (Segment.pairs project all) h below h') :
    h'.Fresh w ∧
      (∀ e ∈ below, ∃ lower ∈ all, ∃ upper ∈ all, e = (lower.1, upper.1) ∧
        lower.1 ≠ upper.1 ∧ lower.2 ≠ upper.2 ∧ w.Leads [] project upper.2 lower.2) ∧
      ∀ lower ∈ all, ∀ upper ∈ all, lower.1 ≠ upper.1 → lower.2 ≠ upper.2 →
        w.Leads [] project upper.2 lower.2 → (lower.1, upper.1) ∈ below := by
  obtain ⟨hf', hsound, hcomplete⟩ := Segment.yields_pairs (I := fun h => h.Fresh w)
    (P := fun lower upper b => b = true ↔ w.Leads [] project upper lower)
    (fun lower upper h b h' hI hb => by
      obtain ⟨hI', hleads, hexact⟩ := yields_isAncestor_exact hI hb
      exact ⟨hI', hleads, hexact (settled_nil w project)⟩) hf hy
  refine ⟨hf', fun e he => ?_, fun lower hlower upper hupper hid hcommit hleads => ?_⟩
  · obtain ⟨lower, hlower, upper, hupper, heq, hid, hcommit, hanswer⟩ := hsound e he
    exact ⟨lower, hlower, upper, hupper, heq, hid, hcommit, hanswer.1 rfl⟩
  · rcases hcomplete lower hlower upper hupper hid hcommit with hmem | hanswer
    · exact hmem
    · cases hanswer.2 hleads

/-- Ordering the changes of one branch. -/
theorem yields_order (hf : h.Fresh w) {branch : Branch} {members : List Change}
    (hnodup : (members.map (·.id)).Nodup) {s : Segment}
    (hy : w.Yields (Segment.order branch members) h s h') :
    h'.Fresh w ∧ s.OrderOf w branch members := by
  obtain ⟨below, hbelow, rfl⟩ := Segment.yields_order hy
  obtain ⟨hf', hpairs, _⟩ := yields_pairs hf hbelow
  have hperm := Segment.perm_arranged branch hnodup below
  refine ⟨hf', rfl, hperm, fun c hc commit hcommit => ?_⟩
  by_cases hhead : below.any (·.1 == c.id) = true
  · -- The change is below another member, for its number belongs to no other change.
    right
    obtain ⟨e, he, heq⟩ := List.any_eq_true.1 hhead
    obtain ⟨lower, hlower, upper, hupper, rfl, _, hne, hleads⟩ := hpairs e he
    obtain ⟨c', hc', hid, hown⟩ := Segment.mem_placed.1 hlower
    obtain ⟨u, hu, _, htop⟩ := Segment.mem_placed.1 hupper
    have hsame : c' = c :=
      List.inj_on_of_nodup_map hnodup hc' (hperm.subset hc) (hid.trans (beq_iff_eq.1 heq))
    rw [hsame, hcommit] at hown
    cases hown
    exact ⟨u, hperm.symm.subset hu, upper.2, htop, hne, hleads⟩
  · -- No listed pair has the change below, so its number is among those of the heads.
    left
    rw [Bool.not_eq_true] at hhead
    refine List.mem_filter.2 ⟨hc, List.contains_iff_mem.2 (List.mem_filter.2 ⟨?_, ?_⟩)⟩
    · exact (Countdown.perm_arrange ..).symm.subset
        (Segment.mem_keys_byId.2 ⟨c, hperm.subset hc, rfl⟩)
    · rw [hhead]
      rfl

end World

/-! ### The batch as a whole -/

namespace Batch

/-- What is said about the order of a batch: one ordered segment for every branch. -/
structure OrderOf (w : World) (members : List Change) (b : Batch) : Prop where
  nodup : (b.segments.map (·.branch)).Nodup
  segment : ∀ s ∈ b.segments, s.OrderOf w s.branch (members.filter (·.dest == s.branch))
  covers : ∀ c ∈ members, ∃ s ∈ b.segments, s.branch = c.dest

variable {w : World} {members : List Change} {b : Batch} {s : Segment} {c : Change}

theorem OrderOf.mem_of_segment (horder : b.OrderOf w members) (hs : s ∈ b.segments)
    (hc : c ∈ s.changes) : c ∈ members ∧ c.dest = s.branch := by
  have hmem := (horder.segment s hs).perm.subset hc
  simpa using List.mem_filter.1 hmem

/-- The changes of the batch are the gathered ones. -/
theorem OrderOf.mem_changes (horder : b.OrderOf w members) :
    c ∈ b.changes ↔ c ∈ members := by
  constructor
  · intro hc
    obtain ⟨s, hs, hcs⟩ := List.mem_flatMap.1 hc
    exact (horder.mem_of_segment hs hcs).1
  · intro hc
    obtain ⟨s, hs, hdest⟩ := horder.covers c hc
    refine List.mem_flatMap.2 ⟨s, hs, (horder.segment s hs).perm.symm.subset ?_⟩
    simp [hc, hdest]

/-- A change of the batch stands in the segment of its branch. -/
theorem OrderOf.mem_segment (horder : b.OrderOf w members) (hc : c ∈ b.changes) :
    ∃ s ∈ b.segments, c ∈ s.changes ∧ c.dest = s.branch := by
  obtain ⟨s, hs, hcs⟩ := List.mem_flatMap.1 hc
  exact ⟨s, hs, hcs, (horder.mem_of_segment hs hcs).2⟩

end Batch

/-- Ordering the gathered changes. -/
theorem World.yields_batch {w : World} {h h' : History} (hf : h.Fresh w) {members : List Change}
    (hnodup : (members.map (·.id)).Nodup) {b : Batch}
    (hy : w.Yields (Batch.order members) h b h') :
    h'.Fresh w ∧ b.OrderOf w members := by
  simp only [Batch.order, yields_bind, yields_pure] at hy
  obtain ⟨segments, _, hsegments, rfl, rfl⟩ := hy
  obtain ⟨hf', hall⟩ := yields_mapM (I := fun h => h.Fresh w)
    (R := fun (e : Branch × List Change) (s : Segment) =>
      s.OrderOf w e.1 (members.filter (·.dest == e.1)))
    (fun e he h s h' hI hs => by
      -- The group of a branch is the selection of the changes for it.
      have hgroup := Batch.mem_byBranch he
      have hnodupGroup : (e.2.map (·.id)).Nodup := by
        rw [hgroup]
        exact hnodup.sublist (List.filter_sublist.map _)
      rw [← hgroup]
      exact yields_order hI hnodupGroup hs) hf hsegments
  have hbranches : (Batch.byBranch members).keys = segments.map (·.branch) :=
    map_eq_map_of_forall₂ (hall.imp fun e s horder => horder.branch_eq.symm)
  refine ⟨hf', ?_, fun s hs => ?_, fun c hc => ?_⟩
  · rw [← hbranches]
    exact Table.nodup_keys _
  · obtain ⟨e, _, horder⟩ := exists_left_of_forall₂ hall hs
    rw [horder.branch_eq]
    exact horder
  · obtain ⟨group, hentry, _⟩ := Batch.exists_mem_byBranch hc
    obtain ⟨s, hs, horder⟩ := exists_right_of_forall₂ hall hentry
    exact ⟨s, hs, horder.branch_eq⟩

/-- A batch has one segment for every branch, in branch order. -/
theorem World.branches_of_batch {A : (c : StoreCall) → Except StoreError c.Reply → Prop}
    {h h' : History} {members : List Change} {b : Batch}
    (hy : Study.Yields A (Batch.order members) h b h') :
    (Batch.byBranch members).keys = b.segments.map (·.branch) := by
  simp only [Batch.order, yields_bind, yields_pure] at hy
  obtain ⟨segments, _, hsegments, rfl, rfl⟩ := hy
  obtain ⟨_, hall⟩ := yields_mapM (I := fun _ => True)
    (R := fun (e : Branch × List Change) (s : Segment) => e.1 = s.branch)
    (fun e _ h s h' _ hs => by
      obtain ⟨_, _, rfl⟩ := Segment.yields_order hs
      exact ⟨trivial, rfl⟩) trivial hsegments
  exact map_eq_map_of_forall₂ hall

/-- A batch consists of members, whatever the answers are. -/
theorem Batch.mem_members_of_order {A : (c : StoreCall) → Except StoreError c.Reply → Prop}
    {h h' : History} {members : List Change} {b : Batch}
    (hy : Study.Yields A (Batch.order members) h b h') :
    ∀ c ∈ b.changes, c ∈ members := by
  simp only [Batch.order, yields_bind, yields_pure] at hy
  obtain ⟨segments, _, hsegments, rfl, rfl⟩ := hy
  obtain ⟨_, hall⟩ := yields_mapM (I := fun _ => True)
    (R := fun (e : Branch × List Change) (s : Segment) => ∀ c ∈ s.changes, c ∈ e.2)
    (fun e _ h s h' _ hs => by
      obtain ⟨_, _, rfl⟩ := Segment.yields_order hs
      refine ⟨trivial, fun c hc => ?_⟩
      obtain ⟨id, _, hget⟩ := List.mem_filterMap.1 hc
      exact (Segment.mem_of_get?_byId hget).1) trivial hsegments
  intro c hc
  obtain ⟨s, hs, hmem⟩ := List.mem_flatMap.1 hc
  obtain ⟨e, he, hR⟩ := exists_left_of_forall₂ (mem_of_forall₂ hall) hs
  have hgroup := hR.2.2 c hmem
  rw [Batch.mem_byBranch he] at hgroup
  exact (List.mem_filter.1 hgroup).1

/-- No segment is without a change. -/
theorem Batch.OrderOf.changes_ne_nil {w : World} {members : List Change} {b : Batch}
    (horder : b.OrderOf w members)
    (hbranches : (Batch.byBranch members).keys = b.segments.map (·.branch)) {s : Segment}
    (hs : s ∈ b.segments) : s.changes ≠ [] := by
  have hkey : s.branch ∈ (Batch.byBranch members).keys := by
    rw [hbranches]
    exact List.mem_map_of_mem hs
  obtain ⟨e, he, heq⟩ := List.mem_map.1 hkey
  have hget : (Batch.byBranch members).get? s.branch = some e.2 := by
    rw [← heq]
    exact (Table.get?_eq_some_iff ..).2 he
  obtain ⟨hgroup, hne⟩ := Batch.get?_byBranch members s.branch
  rw [hget] at hgroup hne
  intro hnil
  have hperm := (horder.segment s hs).perm
  rw [hnil, ← hgroup] at hperm
  exact hne (congrArg some hperm.nil_eq.symm)

/-- No change is listed twice in a batch of different changes. -/
theorem Batch.OrderOf.nodup_changes {w : World} {members : List Change} {b : Batch}
    (horder : b.OrderOf w members) (hnodup : (members.map (·.id)).Nodup) :
    (b.changes.map (·.id)).Nodup := by
  rw [Batch.changes, List.map_flatMap, List.nodup_flatMap]
  constructor
  · intro s hs
    refine (((horder.segment s hs).perm.map (·.id)).nodup_iff).2 ?_
    exact hnodup.sublist (List.filter_sublist.map _)
  · -- A change of two segments would be for two branches.
    refine (List.pairwise_map.1 horder.nodup).imp_of_mem fun {s s'} hs hs' hne id hid hid' => ?_
    obtain ⟨c, hc, rfl⟩ := List.mem_map.1 hid
    obtain ⟨c', hc', heq⟩ := List.mem_map.1 hid'
    obtain ⟨hmem, hdest⟩ := horder.mem_of_segment hs hc
    obtain ⟨hmem', hdest'⟩ := horder.mem_of_segment hs' hc'
    have hsame : c' = c := List.inj_on_of_nodup_map hnodup hmem' hmem heq
    exact hne (by rw [← hdest, ← hdest', hsame])

/-! ### Ordering only asks -/

namespace Batch

open Study

theorem isInquiry_order {changes : List Change} : Reading.IsInquiry (order changes) := by
  refine (isInquiry_mapM fun e _ => ?_).bind fun segments => isInquiry_pure _
  refine IsInquiry.bind ?_ fun below => by
    split
    · exact isInquiry_pure _
    · exact Reading.isInquiry_exhausted
  refine (isInquiry_mapM fun lower _ => ?_).bind fun lists => isInquiry_pure _
  refine (isInquiry_filterM fun upper => ?_).bind fun above => isInquiry_pure _
  split
  · exact isInquiry_pure false
  · exact History.isInquiry_isAncestor

end Batch
end Landing
