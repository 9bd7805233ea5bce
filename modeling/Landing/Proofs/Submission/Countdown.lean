import Landing.Submission.Batch
import Mathlib.Data.List.Induction
import Mathlib.Data.List.Nodup
import Mathlib.Data.List.Perm.Basic

/-!
# Counting down lists each change as soon as it may come

The changes for a branch are listed by counting: for every change there is a counter of
the changes below it that are not listed yet, and a change may come next when its
counter is zero.  What is meant is simpler (`Countdown.arrange`): list, each time, the
first waiting change that has no other waiting change below it.

The counters do not go below zero, and both come to the same list
(`Countdown.list?_eq_arrange`), whatever the pairs are.  The invariant is
`Countdown.Inv`: a counter holds the number of pairs that are left
(`Countdown.left`), and the changes that may come next are those whose number is zero.
-/

namespace Landing.Countdown

variable {below : List (ChangeId × ChangeId)} {ids listed rest waiting : List ChangeId}
variable {s : Countdown} {id next : ChangeId}

/-- List the waiting changes, each time the first one that has no other waiting change below it.
The changes wait in the order of their numbers; those in a circle come last. -/
def arrange (below : List (ChangeId × ChangeId)) :
    (count : Nat) → (waiting : List ChangeId) → List ChangeId
  | 0, waiting => waiting
  | count + 1, waiting =>
    match waiting.find? fun c => !waiting.any fun a => below.contains (a, c) with
    | some next => next :: arrange below count (waiting.erase next)
    | none => waiting

/-- Arranging only changes the order. -/
theorem perm_arrange (below : List (ChangeId × ChangeId)) (count : Nat) (waiting : List ChangeId) :
    (arrange below count waiting).Perm waiting := by
  induction count generalizing waiting with
  | zero => exact List.Perm.refl waiting
  | succ count ih =>
    rw [arrange]
    split
    · next next hnext =>
      have hmem : next ∈ waiting := List.mem_of_find?_eq_some hnext
      have hrest := (ih (waiting.erase next)).cons next
      exact hrest.trans (List.perm_cons_erase hmem).symm
    · exact List.Perm.refl waiting

/-! ### What the counters hold -/

/-- The number of pairs in which `id` is the upper change and the lower one is not listed yet. -/
def left (below : List (ChangeId × ChangeId)) (listed : List ChangeId) (id : ChangeId) : Nat :=
  (below.filter fun e => e.2 == id && !listed.contains e.1).length

/-- The changes that wait to be listed. -/
def waits (ids listed : List ChangeId) : List ChangeId := ids.filter fun id => !listed.contains id

theorem mem_waits : id ∈ waits ids listed ↔ id ∈ ids ∧ id ∉ listed := by
  simp [waits]

theorem left_eq_zero_iff : left below listed id = 0 ↔ ∀ a, (a, id) ∈ below → a ∈ listed := by
  simp only [left, List.length_eq_zero_iff, List.filter_eq_nil_iff, Bool.and_eq_true, beq_iff_eq,
    Bool.not_eq_true', Prod.forall]
  constructor
  · intro h a ha
    by_contra hnot
    exact h a id ha ⟨rfl, by simpa using hnot⟩
  · rintro h a b hab ⟨rfl, hnot⟩
    simp [h a hab] at hnot

/-- When a change is listed, the pairs in which it is the lower one are no longer left. -/
theorem left_append (hnext : next ∉ listed) :
    left below (listed ++ [next]) id + (above below next).count id = left below listed id := by
  unfold left above
  induction below with
  | nil => rfl
  | cons e below ih =>
    simp only [List.filter_cons, List.contains_append]
    by_cases hid : e.2 = id <;> by_cases hlisted : e.1 ∈ listed <;> by_cases hown : e.1 = next
    all_goals simp_all
    all_goals omega

/-! ### The invariant -/

/-- The counters hold the numbers of pairs that are left, and the changes that may come next are those
with the number zero. -/
structure Inv (below : List (ChangeId × ChangeId)) (ids : List ChangeId) (s : Countdown) : Prop where
  pending : ∀ d ∈ ids, s.pending.get? d = some (left below s.listed d)
  ready : ∀ d, d ∈ s.ready.keys ↔ d ∈ waits ids s.listed ∧ left below s.listed d = 0
  lower : ∀ d ∈ s.listed, left below s.listed d = 0

theorem get?_count (hids : ids.Nodup) (hupper : ∀ e ∈ below, e.2 ∈ ids) (d : ChangeId) :
    (count below ids).get? d = if d ∈ ids then some (left below [] d) else none := by
  induction below using List.reverseRecOn generalizing d with
  | nil =>
    have hkeys : ((ids.map fun id => (id, 0)).map (·.1)).Nodup := by
      rw [List.map_map]
      exact (List.map_id ids).symm ▸ hids
    refine Option.ext fun n => ?_
    rw [count, List.foldl_nil, Table.get?_ofList hkeys]
    by_cases hd : d ∈ ids
    · simp [hd, left, eq_comm]
    · simp [hd]
  | append_singleton below e ih =>
    have ih := ih fun e he => hupper e (List.mem_append_left _ he)
    have he : e.2 ∈ ids := hupper e (by simp)
    have hcount : count (below ++ [e]) ids = (count below ids).insert e.2
        (((count below ids).get? e.2).getD 0 + 1) := by
      simp [count]
    have hleft : left (below ++ [e]) [] d = left below [] d + if d = e.2 then 1 else 0 := by
      unfold left
      rw [List.filter_append, List.length_append]
      by_cases hd : d = e.2
      · simp [hd]
      · simp [hd, Ne.symm hd]
    rw [hcount, Table.get?_insert, ih e.2, if_pos he, hleft]
    by_cases hd : d = e.2
    · simp [hd, he]
    · have hne : compare d e.2 ≠ .eq := fun heq => hd (Std.LawfulEqCmp.eq_of_compare heq)
      simp [hd, hne, ih d]

theorem inv_start (hids : ids.Nodup) (hupper : ∀ e ∈ below, e.2 ∈ ids) :
    Inv below ids (start below ids) := by
  refine ⟨fun d hd => ?_, fun d => ?_, fun d hd => by cases hd⟩
  · rw [start, get?_count hids hupper, if_pos hd]
  · rw [Table.mem_keys]
    simp only [start, Table.get?_map, Option.map_eq_some_iff, Table.get?_filter_eq_some_iff,
      get?_count hids hupper, mem_waits]
    by_cases hd : d ∈ ids <;> simp [hd]

/-- Releasing changes one after another: a counter that holds how often its change is released, and
more, does not go below zero. -/
theorem exists_foldlM_release (remain : ChangeId → Nat)
    (hpending : ∀ d ∈ ids, s.pending.get? d = some (remain d + rest.count d))
    (hready : ∀ d, d ∈ s.ready.keys ↔ d ∈ waits ids s.listed ∧ remain d + rest.count d = 0)
    (hrest : ∀ d ∈ rest, d ∈ waits ids s.listed) :
    ∃ s', rest.foldlM release s = some s' ∧ s'.listed = s.listed ∧
      (∀ d ∈ ids, s'.pending.get? d = some (remain d)) ∧
      ∀ d, d ∈ s'.ready.keys ↔ d ∈ waits ids s.listed ∧ remain d = 0 := by
  induction rest generalizing s with
  | nil => exact ⟨s, rfl, rfl, by simpa using hpending, by simpa using hready⟩
  | cons x rest ih =>
    have hx : x ∈ waits ids s.listed := hrest x List.mem_cons_self
    have hcounter : s.pending.get? x = some (remain x + rest.count x + 1) := by
      rw [hpending x (mem_waits.1 hx).1, List.count_cons_self, Nat.add_assoc]
    have hrelease : release s x = some { s with
        pending := s.pending.insert x (remain x + rest.count x)
        ready := if remain x + rest.count x = 0 then s.ready.insert x () else s.ready } := by
      rw [release, hcounter]
    rw [List.foldlM_cons, hrelease]
    refine ih (fun d hd => ?_) (fun d => ?_) fun d hd => hrest d (List.mem_cons_of_mem x hd)
    · by_cases hdx : d = x
      · rw [hdx, Table.get?_insert_self]
      · rw [Table.get?_insert_of_ne _ _ hdx, hpending d hd, List.count_cons_of_ne (Ne.symm hdx)]
    · by_cases hdx : d = x
      · subst hdx
        split
        · next hzero => simp [Table.mem_keys, hx, hzero]
        · next hmore =>
          have hnot : d ∉ s.ready.keys := by
            rw [hready]
            simp
          exact iff_of_false hnot fun h => hmore h.2
      · have hsame : d ∈ s.ready.keys ↔ d ∈ waits ids s.listed ∧ remain d + rest.count d = 0 := by
          rw [hready, List.count_cons_of_ne (Ne.symm hdx)]
        split
        · rw [← hsame, Table.mem_keys, Table.mem_keys]
          simp [Table.get?_insert_of_ne _ _ hdx]
        · exact hsame

/-- Listing a change that may come next keeps the invariant, and no counter goes below zero. -/
theorem Inv.exists_place (hinv : Inv below ids s) (hupper : ∀ e ∈ below, e.2 ∈ ids)
    (hnext : next ∈ s.ready.keys) :
    ∃ s', place below s next = some s' ∧ s'.listed = s.listed ++ [next] ∧ Inv below ids s' := by
  obtain ⟨hwaits, hzero⟩ := (hinv.ready next).1 hnext
  have hnew : next ∉ s.listed := (mem_waits.1 hwaits).2
  have hleft : ∀ d, left below (s.listed ++ [next]) d + (above below next).count d =
      left below s.listed d := fun d => left_append hnew
  -- A change above `next` still had a pair left, so it is neither listed nor `next` itself.
  have habove : ∀ d ∈ above below next, d ∈ waits ids (s.listed ++ [next]) := by
    intro d hd
    obtain ⟨e, he, rfl⟩ := List.mem_map.1 hd
    obtain ⟨hmem, hown⟩ := List.mem_filter.1 he
    have hpair : (next, e.2) ∈ below := by
      rw [← beq_iff_eq.1 hown]
      exact hmem
    have hleft : left below s.listed e.2 ≠ 0 := fun hnone =>
      hnew (left_eq_zero_iff.1 hnone next hpair)
    refine mem_waits.2 ⟨hupper e hmem, fun hlisted => ?_⟩
    rcases List.mem_append.1 hlisted with hold | heq
    · exact hleft (hinv.lower e.2 hold)
    · rw [List.mem_singleton.1 heq] at hleft
      exact hleft hzero
  have hready : ∀ d, d ∈ (s.ready.erase next).keys ↔ d ∈ waits ids (s.listed ++ [next]) ∧
      left below (s.listed ++ [next]) d + (above below next).count d = 0 := by
    intro d
    have herase : d ∈ (s.ready.erase next).keys ↔ d ≠ next ∧ d ∈ s.ready.keys := by
      rw [Table.mem_keys, Table.mem_keys]
      by_cases hd : d = next
      · simp [hd, Table.get?_erase]
      · have hne : compare d next ≠ .eq := fun heq => hd (Std.LawfulEqCmp.eq_of_compare heq)
        simp [hd, hne, Table.get?_erase]
    rw [hleft, herase, hinv.ready, mem_waits, mem_waits]
    simp only [List.mem_append, List.mem_singleton]
    tauto
  obtain ⟨s', hplace, hlisted, hpending, hready⟩ :=
    exists_foldlM_release (s := { s with ready := s.ready.erase next, listed := s.listed ++ [next] })
      (left below (s.listed ++ [next]))
      (fun d hd => by rw [hinv.pending d hd, hleft]) hready habove
  have hlisted : s'.listed = s.listed ++ [next] := hlisted
  refine ⟨s', hplace, hlisted, fun d hd => ?_, fun d => ?_, fun d hd => ?_⟩
  · rw [hlisted, hpending d hd]
  · rw [hlisted, hready]
  · rw [hlisted] at hd ⊢
    have hbefore := hleft d
    rcases List.mem_append.1 hd with hold | hown
    · rw [hinv.lower d hold] at hbefore
      omega
    · rw [List.mem_singleton.1 hown] at hbefore ⊢
      omega

/-! ### Counting and arranging -/

/-- The changes that may come next are the waiting ones without a waiting change below them. -/
theorem Inv.ready_keys (hinv : Inv below ids s) (hascending : ids.Pairwise (compare · · = .lt))
    (hlower : ∀ e ∈ below, e.1 ∈ ids) :
    s.ready.keys = (waits ids s.listed).filter fun c =>
      !(waits ids s.listed).any fun a => below.contains (a, c) := by
  have hfree : ∀ c, left below s.listed c = 0 ↔
      ((!(waits ids s.listed).any fun a => below.contains (a, c)) = true) := by
    intro c
    rw [left_eq_zero_iff]
    simp only [Bool.not_eq_true', List.any_eq_false, List.contains_iff_mem, mem_waits]
    constructor
    · rintro h a ⟨_, hnot⟩ hpair
      exact hnot (h a hpair)
    · intro h a hpair
      by_contra hnot
      exact h a ⟨hlower (a, c) hpair, hnot⟩ hpair
  have hsorted : (waits ids s.listed).Pairwise (compare · · = .lt) := hascending.filter _
  refine Table.eq_of_ascending_keys (List.pairwise_map.2 s.ready.ascending) (hsorted.filter _) ?_
  intro c
  rw [hinv.ready, List.mem_filter, hfree]

/-- Without the next change, fewer changes wait. -/
theorem waits_append (hids : ids.Nodup) :
    waits ids (listed ++ [next]) = (waits ids listed).erase next := by
  have hwaits : (waits ids listed).Nodup := hids.filter _
  rw [hwaits.erase_eq_filter, waits, waits, List.filter_filter]
  refine List.filter_congr fun d _ => ?_
  by_cases hd : d = next <;> by_cases hl : d ∈ listed <;> simp [hd, hl]

/-- Counting goes on as arranging does, until nothing may come next. -/
theorem Inv.exists_run (hascending : ids.Pairwise (compare · · = .lt))
    (hpairs : ∀ e ∈ below, e.1 ∈ ids ∧ e.2 ∈ ids) {bound : Nat} (hinv : Inv below ids s)
    (hbound : (waits ids s.listed).length ≤ bound) :
    ∃ s', run below bound s = some s' ∧ Inv below ids s' ∧ s'.ready.keys = [] ∧
      s'.listed ++ waits ids s'.listed = s.listed ++ arrange below bound (waits ids s.listed) := by
  have hids : ids.Nodup := Table.nodup_of_ascending hascending
  induction bound generalizing s with
  | zero =>
    -- Nothing waits, so nothing may come next.
    have hnone : waits ids s.listed = [] := List.eq_nil_of_length_eq_zero (Nat.le_zero.1 hbound)
    have hready := hinv.ready_keys hascending fun e he => (hpairs e he).1
    rw [hnone, List.filter_nil] at hready
    refine ⟨s, ?_, hinv, hready, rfl⟩
    rw [run, hready]
  | succ bound ih =>
    have hready := hinv.ready_keys hascending fun e he => (hpairs e he).1
    have hfind := List.head?_filter (l := waits ids s.listed)
      (p := fun c => !(waits ids s.listed).any fun a => below.contains (a, c))
    rw [run, arrange]
    rw [← hready] at hfind
    cases hkeys : s.ready.keys with
    | nil =>
      rw [hkeys, List.head?_nil] at hfind
      refine ⟨s, rfl, hinv, hkeys, ?_⟩
      rw [← hfind]
    | cons next more =>
      rw [hkeys, List.head?_cons] at hfind
      have hnext : next ∈ s.ready.keys := by
        rw [hkeys]
        exact List.mem_cons_self
      obtain ⟨s₁, hplace, hlisted, hinv₁⟩ :=
        hinv.exists_place (fun e he => (hpairs e he).2) hnext
      have hmem : next ∈ waits ids s.listed := List.mem_of_find?_eq_some hfind.symm
      have hwaits : waits ids s₁.listed = (waits ids s.listed).erase next := by
        rw [hlisted, waits_append hids]
      obtain ⟨s', hrun, hinv', hdone, hend⟩ := ih hinv₁ (by
        rw [hwaits, List.length_erase_of_mem hmem]
        omega)
      refine ⟨s', by simp only [hplace, Option.bind_some, hrun], hinv', hdone, ?_⟩
      rw [hend, hwaits, hlisted, ← hfind, List.append_assoc]
      rfl

/-- From the start, counting comes to a state in which nothing may come next. -/
theorem exists_run (hascending : ids.Pairwise (compare · · = .lt))
    (hpairs : ∀ e ∈ below, e.1 ∈ ids ∧ e.2 ∈ ids) :
    ∃ s', run below ids.length (start below ids) = some s' ∧ Inv below ids s' ∧
      s'.ready.keys = [] ∧ s'.listed ++ waits ids s'.listed = arrange below ids.length ids := by
  have hids : ids.Nodup := Table.nodup_of_ascending hascending
  have hall : waits ids (start below ids).listed = ids := by simp [waits, start]
  have hbound : (waits ids (start below ids).listed).length ≤ ids.length :=
    Nat.le_of_eq (congrArg List.length hall)
  obtain ⟨s', hrun, hinv, hdone, hend⟩ :=
    (inv_start hids fun e he => (hpairs e he).2).exists_run hascending hpairs hbound
  rw [hall] at hend
  exact ⟨s', hrun, hinv, hdone, hend⟩

/-- **No counter goes below zero**, and the counting lists the changes as they are arranged. -/
theorem list?_eq_arrange (hascending : ids.Pairwise (compare · · = .lt))
    (hpairs : ∀ e ∈ below, e.1 ∈ ids ∧ e.2 ∈ ids) :
    list? below ids = some (arrange below ids.length ids) := by
  obtain ⟨s', hrun, -, -, hend⟩ := exists_run hascending hpairs
  rw [list?, hrun]
  exact congrArg some hend

end Landing.Countdown
