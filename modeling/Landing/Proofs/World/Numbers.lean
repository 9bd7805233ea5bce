import Landing.Proofs.World.Snapshot

/-!
# Change numbers in upload order

A world gives out change numbers with a counter.  The counter is not saved, so a loaded
world counts on from the records that it finds.  A `Ledger` keeps, beside the world, which
numbers came up in a run of allocations, insertions, deletions and loads.

The counter stands right behind the greatest number that it knows of, where it knows of
the numbers that came up since the world was loaded and of the records found then
(`World.Counts`, kept by `Ledger.Sound.step`).  So a number is greater than all before it
exactly when the greatest of them is known, or a greater one is, and the last number of
all has not come up (`Ledger.Sound.ahead_iff`).
-/

namespace Landing

namespace World

/-- The greatest change number. -/
def lastNumber : ChangeId := 4294967295

/-- The counter stands right behind the greatest of these numbers, or at one. -/
structure Counts (next : ChangeId) (known : List ChangeId) : Prop where
  above : ∀ k ∈ known, k < next
  first_or_behind : next = 1 ∨ ∃ k ∈ known, next = k + 1

/-! ### The counter -/

theorem lt_add_one {k : ChangeId} (h : k ≠ lastNumber) : k < k + 1 := by
  rw [UInt32.lt_iff_toNat_lt, UInt32.toNat_add]
  rw [ne_eq, ← UInt32.toNat_inj] at h
  have hlast : lastNumber.toNat = 4294967295 := rfl
  have hone : (1 : UInt32).toNat = 1 := rfl
  have := k.toNat_lt
  omega

/-- Below the next number is everything up to this one. -/
theorem le_of_lt_add_one {j k : ChangeId} (h : j < k + 1) : j ≤ k := by
  rw [UInt32.lt_iff_toNat_lt, UInt32.toNat_add] at h
  rw [UInt32.le_iff_toNat_le]
  have hone : (1 : UInt32).toNat = 1 := rfl
  have := Nat.mod_le (k.toNat + 1) (2 ^ 32)
  omega

theorem lt_max {j n m : ChangeId} (h : j < n ∨ j < m) : j < max n m := by
  change j < if n ≤ m then m else n
  simp only [UInt32.lt_iff_toNat_lt] at h
  split <;> rw [UInt32.le_iff_toNat_le] at * <;> rw [UInt32.lt_iff_toNat_lt] <;> omega

theorem le_lastNumber (n : ChangeId) : n ≤ lastNumber := by
  rw [UInt32.le_iff_toNat_le]
  exact Nat.le_of_lt_succ n.toNat_lt

theorem counts_empty : Counts empty.nextId [] where
  above _ hk := nomatch hk
  first_or_behind := .inl rfl

section

variable {n : ChangeId} {known known' : List ChangeId}

/-- Only which numbers are known counts. -/
theorem Counts.congr (h : Counts n known) (hsame : ∀ k, k ∈ known' ↔ k ∈ known) :
    Counts n known' where
  above k hk := h.above k ((hsame k).1 hk)
  first_or_behind := by
    simp only [hsame]
    exact h.first_or_behind

/-- Giving out a number. -/
theorem Counts.allocate (h : Counts n known) (hn : n ≠ lastNumber) :
    Counts (n + 1) (n :: known) where
  above k hk := by
    have hnext := lt_add_one hn
    obtain rfl | hk := List.mem_cons.1 hk
    · exact hnext
    · exact UInt32.lt_trans (h.above k hk) hnext
  first_or_behind := .inr ⟨n, List.mem_cons_self, rfl⟩

/-- Inserting a change under a number of its own. -/
theorem Counts.insert (h : Counts n known) {id : ChangeId} (hid : id ≠ lastNumber) :
    Counts (max n (id + 1)) (id :: known) where
  above k hk := by
    obtain rfl | hk := List.mem_cons.1 hk
    · exact lt_max (.inr (lt_add_one hid))
    · exact lt_max (.inl (h.above k hk))
  first_or_behind := by
    change (if n ≤ id + 1 then id + 1 else n) = 1 ∨
      ∃ k ∈ id :: known, (if n ≤ id + 1 then id + 1 else n) = k + 1
    split
    · exact .inr ⟨id, List.mem_cons_self, rfl⟩
    · exact h.first_or_behind.imp_right fun ⟨k, hk, heq⟩ => ⟨k, List.mem_cons_of_mem id hk, heq⟩

/-- The next number is ahead of others exactly when the known numbers reach them. -/
theorem Counts.ahead_iff (h : Counts n known) (hknown : lastNumber ∉ known) {id : ChangeId} :
    id < n ↔ id = 0 ∨ ∃ k ∈ known, id ≤ k := by
  constructor
  · intro hid
    obtain rfl | ⟨k, hk, rfl⟩ := h.first_or_behind
    · exact .inl (UInt32.le_zero_iff.1 (le_of_lt_add_one (k := 0) hid))
    · exact .inr ⟨k, hk, le_of_lt_add_one hid⟩
  · rintro (rfl | ⟨k, hk, hle⟩)
    · obtain rfl | ⟨k, hk, rfl⟩ := h.first_or_behind
      · decide
      · have hlast : k ≠ lastNumber := fun heq => hknown (heq ▸ hk)
        exact UInt32.lt_of_le_of_lt UInt32.zero_le (lt_add_one hlast)
    · exact UInt32.lt_of_le_of_lt hle (h.above k hk)

end

variable {w : World}

theorem counts_foldl_insertChange {changes : List Change} {known : List ChangeId}
    (h : Counts w.nextId known) (hlast : ∀ c ∈ changes, c.id ≠ lastNumber) :
    Counts (changes.foldl insertChange w).nextId (changes.map (·.id) ++ known) := by
  induction changes generalizing w known with
  | nil => exact h
  | cons c changes ih =>
    have hfirst : Counts (w.insertChange c).nextId (c.id :: known) :=
      h.insert (hlast c List.mem_cons_self)
    refine (ih hfirst fun c' hc' => hlast c' (List.mem_cons_of_mem c hc')).congr fun k => ?_
    simp only [List.map_cons, List.cons_append, List.mem_cons, List.mem_append]
    exact or_left_comm

/-- A loaded world counts on from the records that it finds. -/
theorem Filed.counts_reload (h : w.Filed) (hlast : lastNumber ∉ w.changes.keys) :
    Counts w.reload.nextId w.changes.keys := by
  have hkeys : w.changes.values.map (·.id) = w.changes.keys := Table.map_values_eq_keys h.changes
  have hvalues : ∀ c ∈ w.changes.values, c.id ≠ lastNumber := by
    intro c hc heq
    refine hlast ?_
    rw [← hkeys, ← heq]
    exact List.mem_map_of_mem hc
  have hcounts :=
    counts_foldl_insertChange (w := { empty with projects := Table.ofList w.projects.entries })
      counts_empty hvalues
  rw [hkeys, List.append_nil] at hcounts
  rw [reload, ofEntries, foldl_addAccount, foldl_hideBranch]
  exact hcounts

end World

open World

/-! ### Runs -/

/-- What is done with the numbers of changes. -/
inductive Deed
  | allocate
  | insert (c : Change)
  | delete (id : ChangeId)
  | reload
  deriving DecidableEq

/-- A world, the numbers that it gave out, all numbers that came up, and those that its counter
knows of; what came up last stands first. -/
structure Ledger where
  world : World
  given : List ChangeId
  used : List ChangeId
  known : List ChangeId

namespace Ledger

/-- An empty world. -/
def start : Ledger := ⟨.empty, [], [], []⟩

def step (l : Ledger) : Deed → Option Ledger
  | .allocate =>
    let (id, w) := l.world.allocate
    some ⟨w, id :: l.given, id :: l.used, id :: l.known⟩
  | .insert c => some ⟨l.world.insertChange c, l.given, c.id :: l.used, c.id :: l.known⟩
  | .delete id => some { l with world := l.world.deleteChange id }
  | .reload => (load? l.world.save).map fun w => { l with world := w, known := w.changes.keys }

def run (l : Ledger) (deeds : List Deed) : Option Ledger := deeds.foldlM step l

/-- What a deed comes to where saving and loading succeeds. -/
def next (l : Ledger) (d : Deed) : Ledger :=
  match d with
  | .allocate =>
    let (id, w) := l.world.allocate
    ⟨w, id :: l.given, id :: l.used, id :: l.known⟩
  | .insert c => ⟨l.world.insertChange c, l.given, c.id :: l.used, c.id :: l.known⟩
  | .delete id => { l with world := l.world.deleteChange id }
  | .reload => { l with world := l.world.reload, known := l.world.reload.changes.keys }

/-- The next number is greater than all that came up. -/
def Ahead (l : Ledger) : Prop := ∀ id ∈ l.used, id < l.world.allocate.1

/-- The last number did not come up, and known numbers reach all that did. -/
def Remembers (l : Ledger) : Prop :=
  lastNumber ∉ l.used ∧ ∀ id ∈ l.used, id = 0 ∨ ∃ k ∈ l.known, id ≤ k

/-- What holds of a ledger throughout a run. -/
structure Sound (l : Ledger) : Prop where
  filed : l.world.Filed
  keys : ∀ k ∈ l.world.changes.keys, k ∈ l.known
  known : ∀ k ∈ l.known, k ∈ l.used
  given : ∀ k ∈ l.given, k ∈ l.used
  counts : lastNumber ∉ l.known → Counts l.world.nextId l.known

variable {l l' : Ledger} {deeds : List Deed}

theorem sound_start : start.Sound where
  filed := filed_empty
  keys _ hk := nomatch hk
  known _ hk := nomatch hk
  given _ hk := nomatch hk
  counts _ := counts_empty

/-- Saving and loading succeeds. -/
theorem Sound.step_eq (h : l.Sound) (d : Deed) : l.step d = some (l.next d) := by
  cases d with
  | reload => rw [step, h.filed.load?_save_eq, Option.map_some, next]
  | _ => rfl

theorem Sound.next (h : l.Sound) (d : Deed) : (l.next d).Sound := by
  cases d with
  | allocate =>
    refine ⟨h.filed.allocate, ?_, ?_, ?_, ?_⟩
    · exact fun k hk => List.mem_cons_of_mem _ (h.keys k hk)
    · exact fun k hk => List.cons_subset_cons _ h.known hk
    · exact fun k hk => List.cons_subset_cons _ h.given hk
    · intro hlast
      obtain ⟨hne, hlast⟩ := not_or.1 (mt List.mem_cons.2 hlast)
      exact (h.counts hlast).allocate (Ne.symm hne)
  | insert c =>
    refine ⟨h.filed.insertChange c, ?_, ?_, ?_, ?_⟩
    · intro k hk
      exact List.mem_cons.2 ((Table.mem_keys_insert.1 hk).imp_right (h.keys k))
    · exact fun k hk => List.cons_subset_cons _ h.known hk
    · exact fun k hk => List.mem_cons_of_mem _ (h.given k hk)
    · intro hlast
      obtain ⟨hne, hlast⟩ := not_or.1 (mt List.mem_cons.2 hlast)
      exact (h.counts hlast).insert (Ne.symm hne)
  | delete id =>
    refine ⟨h.filed.deleteChange id, fun k hk => ?_, h.known, h.given, h.counts⟩
    obtain ⟨c, hget⟩ := Table.mem_keys.1 hk
    rw [Ledger.next, deleteChange, Table.get?_erase] at hget
    split at hget
    · cases hget
    · exact h.keys k (Table.mem_keys.2 ⟨c, hget⟩)
  | reload =>
    obtain ⟨n, hreload⟩ := h.filed.exists_reload_eq
    have hkeys : l.world.reload.changes.keys = l.world.changes.keys := by rw [hreload]
    refine ⟨filed_of_load? h.filed.load?_save_eq, fun _ hk => hk, fun k hk => ?_, h.given, ?_⟩
    · change k ∈ l.world.reload.changes.keys at hk
      rw [hkeys] at hk
      exact h.known k (h.keys k hk)
    · intro hlast
      change lastNumber ∉ l.world.reload.changes.keys at hlast
      change Counts l.world.reload.nextId l.world.reload.changes.keys
      rw [hkeys] at hlast ⊢
      exact h.filed.counts_reload hlast

/-- Every run comes to an end. -/
theorem Sound.run_eq (h : l.Sound) (deeds : List Deed) :
    l.run deeds = some (deeds.foldl Ledger.next l) ∧ (deeds.foldl Ledger.next l).Sound := by
  induction deeds generalizing l with
  | nil => exact ⟨rfl, h⟩
  | cons d deeds ih =>
    rw [run, List.foldlM_cons, h.step_eq, List.foldl_cons]
    exact ih (h.next d)

theorem sound_of_run (h : start.run deeds = some l) : l.Sound := by
  obtain ⟨hrun, hsound⟩ := sound_start.run_eq deeds
  rw [h] at hrun
  cases hrun
  exact hsound

/-- The next number is greater than all before it exactly when these are remembered. -/
theorem Sound.ahead_iff (h : l.Sound) : l.Ahead ↔ l.Remembers := by
  constructor
  · intro hahead
    have hlast : lastNumber ∉ l.used := fun hmem =>
      UInt32.not_lt.2 (le_lastNumber l.world.allocate.1) (hahead lastNumber hmem)
    have hknown : lastNumber ∉ l.known := fun hmem => hlast (h.known _ hmem)
    exact ⟨hlast, fun id hid => ((h.counts hknown).ahead_iff hknown).1 (hahead id hid)⟩
  · rintro ⟨hlast, hreached⟩ id hid
    have hknown : lastNumber ∉ l.known := fun hmem => hlast (h.known _ hmem)
    exact ((h.counts hknown).ahead_iff hknown).2 (hreached id hid)

/-- Whenever the run comes to a deed, the ledger is as `P` says. -/
def Throughout (P : Ledger → Deed → Prop) (deeds : List Deed) : Prop :=
  ∀ i < deeds.length, ∀ d ∈ deeds[i]?, ∀ l ∈ start.run (deeds.take i), P l d

/-- Every number that is given out is greater than all that came up before. -/
def InUploadOrder : List Deed → Prop := Throughout fun l d => d = .allocate → l.Ahead

/-- When a number is given out, the last number did not come up yet. -/
def LastUnused : List Deed → Prop := Throughout fun l d => d = .allocate → lastNumber ∉ l.used

/-- When the world is saved and loaded, there are records for the greatest of the numbers. -/
def Recorded : List Deed → Prop :=
  Throughout fun l d => d = .reload → ∀ id ∈ l.used, ∃ k ∈ l.world.changes.keys, id ≤ k

/-- A change is inserted under the number just given out or a greater one but the last. -/
def Admits (l : Ledger) : Deed → Prop
  | .insert c => ∃ id ∈ l.given.head?, id ≤ c.id ∧ c.id < lastNumber
  | _ => True

def Orderly : List Deed → Prop := Throughout Admits

/-- What holds at the start and is kept by every deed of a run holds all along. -/
theorem run_induction (deeds : List Deed) {P : Ledger → Prop} (hstart : P start)
    (hkeep : Throughout (fun l d => P l → P (l.next d)) deeds) (i : ℕ) :
    ∀ l ∈ start.run (deeds.take i), P l := by
  induction i with
  | zero =>
    rintro _ ⟨⟩
    exact hstart
  | succ i ih =>
    intro l' hrun'
    rw [List.take_add_one] at hrun'
    cases hget : deeds[i]? with
    | none =>
      rw [hget, Option.toList_none, List.append_nil] at hrun'
      exact ih l' hrun'
    | some d =>
      rw [hget, Option.toList_some, run, List.foldlM_append] at hrun'
      obtain ⟨l, hrun, hstep⟩ := Option.bind_eq_some_iff.1 hrun'
      simp only [List.foldlM_cons, List.foldlM_nil, bind_pure] at hstep
      rw [(sound_of_run hrun).step_eq, Option.some.injEq] at hstep
      obtain ⟨hi, -⟩ := List.getElem?_eq_some_iff.1 hget
      exact hstep ▸ hkeep i hi d hget l hrun (ih l hrun)

/-- Numbers that are each greater than all before stand in descending order, the latest first. -/
theorem given_pairwise (h : InUploadOrder deeds) (hrun : start.run deeds = some l) :
    l.given.Pairwise (· > ·) := by
  have hall := run_induction deeds (P := fun l => l.given.Pairwise (· > ·)) .nil ?_
    deeds.length l
  · rw [List.take_length] at hall
    exact hall hrun
  · intro i hi d hd l hl hgiven
    cases d with
    | allocate =>
      refine List.pairwise_cons.2 ⟨fun id hid => ?_, hgiven⟩
      exact h i hi _ hd l hl rfl id ((sound_of_run hl).given id hid)
    | _ => exact hgiven

/-- Where records tell the greatest numbers whenever the world is saved, the known numbers reach
all others. -/
theorem reached_of_recorded (h : Recorded deeds) (i : ℕ) (hrun : start.run (deeds.take i) = some l) :
    ∀ id ∈ l.used, ∃ k ∈ l.known, id ≤ k := by
  refine run_induction deeds (P := fun l => ∀ id ∈ l.used, ∃ k ∈ l.known, id ≤ k)
    (fun _ hid => nomatch hid) ?_ i l hrun
  -- A number that comes up is known, and a number that was reached before still is.
  have hcons : ∀ {l : Ledger} {n : ChangeId}, (∀ id ∈ l.used, ∃ k ∈ l.known, id ≤ k) →
      ∀ id ∈ n :: l.used, ∃ k ∈ n :: l.known, id ≤ k := by
    intro l n hreached id hid
    obtain rfl | hid := List.mem_cons.1 hid
    · exact ⟨id, List.mem_cons_self, UInt32.le_refl id⟩
    · obtain ⟨k, hk, hle⟩ := hreached id hid
      exact ⟨k, List.mem_cons_of_mem n hk, hle⟩
  intro i hi d hd l hl hreached
  cases d with
  | allocate => exact hcons hreached
  | insert c => exact hcons hreached
  | delete id => exact hreached
  | reload =>
    obtain ⟨n, hreload⟩ := (sound_of_run hl).filed.exists_reload_eq
    simp only [next, hreload]
    exact h i hi _ hd l hl rfl

/-- Change numbers are given out in upload order exactly as long as the world remembers the
numbers that came up.  Every run comes to an end; each number given out in it is greater than all
before it exactly if each time the last number did not come up yet and the greatest of the numbers
came up since the world was loaded or was recorded then, or a greater one did.  So it is if
there is a record of the greatest number, or of a greater one, whenever the world is saved.  The
numbers given out are then different and ascend. -/
theorem upload_order_iff (deeds : List Deed) :
    (∃ l, start.run deeds = some l) ∧
    (InUploadOrder deeds ↔ Throughout (fun l d => d = .allocate → l.Remembers) deeds) ∧
    (LastUnused deeds → Recorded deeds → InUploadOrder deeds) ∧
    (InUploadOrder deeds → ∀ l, start.run deeds = some l → l.given.Pairwise (· > ·)) := by
  refine ⟨⟨_, (sound_start.run_eq deeds).1⟩, ?_, fun hlast hrecorded i hi d hd l hl hallocate => ?_,
    fun h l hl => given_pairwise h hl⟩
  · constructor
    · exact fun h i hi d hd l hl hallocate =>
        (sound_of_run hl).ahead_iff.1 (h i hi d hd l hl hallocate)
    · exact fun h i hi d hd l hl hallocate =>
        (sound_of_run hl).ahead_iff.2 (h i hi d hd l hl hallocate)
  · refine (sound_of_run hl).ahead_iff.2 ⟨hlast i hi d hd l hl hallocate, fun id hid => ?_⟩
    exact .inr (reached_of_recorded hrecorded i hl id hid)

/-! ### A number that is given out twice -/

/-- It makes no difference whether worlds are saved and loaded or made of their entries. -/
theorem throughout_iff {P : Ledger → Deed → Prop} : Throughout P deeds ↔
    ∀ i < deeds.length, ∀ d ∈ deeds[i]?, P ((deeds.take i).foldl next start) d := by
  simp only [Throughout, (sound_start.run_eq _).1, Option.mem_some_iff, forall_eq']

section

-- All of these quantify over a list.  Change numbers are finitely many, so they could be decided by
-- trying every number too, which does not end in any reasonable time.

instance : Decidable l.Ahead :=
  List.decidableBAll (fun id => id < l.world.allocate.1) l.used

instance (id : ChangeId) : Decidable (∃ k ∈ l.world.changes.keys, id ≤ k) :=
  List.decidableBEx (fun k => id ≤ k) l.world.changes.keys

instance : Decidable (∀ id ∈ l.used, ∃ k ∈ l.world.changes.keys, id ≤ k) :=
  List.decidableBAll (fun id => ∃ k ∈ l.world.changes.keys, id ≤ k) l.used

instance (d : Deed) : Decidable (l.Admits d) :=
  match d with
  | .insert c =>
    have := List.decidableBEx (fun id => id ≤ c.id ∧ c.id < lastNumber) l.given.head?.toList
    decidable_of_iff (∃ id ∈ l.given.head?.toList, id ≤ c.id ∧ c.id < lastNumber)
      (by simp only [Option.mem_toList, Option.mem_def, Admits])
  | .allocate => isTrue trivial
  | .delete _ => isTrue trivial
  | .reload => isTrue trivial

instance (P : Ledger → Deed → Prop) [∀ l d, Decidable (P l d)] : DecidablePred (Throughout P) :=
  fun _ => decidable_of_iff' _ throughout_iff

instance : DecidablePred InUploadOrder := inferInstanceAs (DecidablePred (Throughout _))
instance : DecidablePred LastUnused := inferInstanceAs (DecidablePred (Throughout _))
instance : DecidablePred Recorded := inferInstanceAs (DecidablePred (Throughout _))
instance : DecidablePred Orderly := inferInstanceAs (DecidablePred (Throughout _))

end

/-- A change under this number. -/
def sampleChange (id : ChangeId) : Change := .create id ⟨"p", "refs/heads/master"⟩ 1 ⟨1⟩

/-- The second of two changes has its record when the world is saved. -/
def recorded : List Deed :=
  [.allocate, .insert (sampleChange 1), .allocate, .insert (sampleChange 2), .delete 1, .reload,
    .allocate]

theorem recorded_upload_order :
    LastUnused recorded ∧ Recorded recorded ∧ InUploadOrder recorded ∧
      ∃ l, start.run recorded = some l ∧ l.given = [3, 2, 1] ∧ l.given.Pairwise (· > ·) := by
  obtain ⟨⟨l, hrun⟩, -, horder, hgiven⟩ := upload_order_iff recorded
  have hlast : LastUnused recorded := by decide
  have hrecorded : Recorded recorded := by decide
  have hnumbers : (start.run recorded).map (·.given) = some [3, 2, 1] := by
    rw [(sound_start.run_eq _).1]
    decide
  have hinOrder := horder hlast hrecorded
  rw [hrun, Option.map_some, Option.some.injEq] at hnumbers
  exact ⟨hlast, hrecorded, hinOrder, l, hrun, hnumbers, hgiven hinOrder l hrun⟩

/-- The change with the greatest number is deleted before the world is saved. -/
def forgotten : List Deed :=
  [.allocate, .insert (sampleChange 1), .delete 1, .reload, .allocate]

/-- The last number of all is given out. -/
def exhausted : List Deed :=
  [.allocate, .insert (sampleChange 4294967294), .allocate, .allocate]

/-- Changes inserted in order do not make the numbers ascend.  A loaded world gives out the number
of a deleted change again, and after the last number comes zero. -/
theorem number_given_twice :
    (Orderly forgotten ∧ ¬ InUploadOrder forgotten ∧
      (start.run forgotten).map (·.given) = some [1, 1]) ∧
    Orderly exhausted ∧ ¬ InUploadOrder exhausted ∧
      (start.run exhausted).map (·.given) = some [0, 4294967295, 1] := by
  rw [(sound_start.run_eq _).1, (sound_start.run_eq _).1]
  decide

end Ledger

end Landing
