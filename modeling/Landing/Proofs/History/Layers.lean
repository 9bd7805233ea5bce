import Landing.Proofs.History.Walk

/-!
# In order of distance

A walk goes breadth-first, so it enters commits in the order of their distance from its
starts, also where it passes commits by and where commits lead back to themselves.

The queue of a walk has two parts (`History.Trail.Layered`): commits that are `n` links
away, and behind them commits that are `n + 1` links away.  All that is nearer has been
met, except for what is behind a commit that was passed by.  When the first part is
used up, the second one takes its place.
-/

namespace Landing
namespace History

variable {R : CommitId → CommitId → Prop} {starts : List CommitId} {n : Nat} {x y : CommitId}

/-- The commit is found from one of `starts` by exactly `n` links. -/
def Away (R : CommitId → CommitId → Prop) (starts : List CommitId) : Nat → CommitId → Prop
  | 0, x => x ∈ starts
  | n + 1, y => ∃ x, Away R starts n x ∧ R x y

/-- The distance of `x` from `starts` is not larger than that of `y`. -/
def NoFarther (R : CommitId → CommitId → Prop) (starts : List CommitId) (x y : CommitId) : Prop :=
  ∀ n, Away R starts n y → ∃ m ≤ n, Away R starts m x

namespace Trail

variable {excused : CommitId → Prop} {t : Trail} {front back queue ps : List CommitId}

/-- The queue consists of `front`, which is `n` links away, and `back`, which is one link farther away.
Everything nearer has been met, if it is not excused. -/
structure Layer (R : CommitId → CommitId → Prop) (starts : List CommitId)
    (excused : CommitId → Prop) (t : Trail) (n : Nat) (front back : List CommitId) : Prop where
  first : ∀ x ∈ front, Away R starts n x
  second : ∀ x ∈ back, Away R starts (n + 1) x
  nearer : ∀ m < n, ∀ x, Away R starts m x → x ∈ t.seen ∨ excused x
  level : ∀ x, Away R starts n x → x ∈ t.seen ∨ x ∈ front ∨ excused x
  seen : ∀ x ∈ t.seen, x ∈ t.entered ∨ excused x
  shallow : ∀ x ∈ t.entered, ∃ m ≤ n, Away R starts m x
  next : ∀ x ∈ t.entered, ∀ y, R x y → y ∈ t.seen ∨ y ∈ front ∨ y ∈ back
  sorted : t.entered.Pairwise (NoFarther R starts)

/-- The queue can be parted in this way. -/
def Layered (R : CommitId → CommitId → Prop) (starts : List CommitId) (excused : CommitId → Prop)
    (t : Trail) (queue : List CommitId) : Prop :=
  ∃ n front back, queue = front ++ back ∧ t.Layer R starts excused n front back

theorem layered_start : Layered R starts excused .start starts := by
  refine ⟨0, starts, [], (List.append_nil _).symm, ?_⟩
  constructor
  · exact fun x hx => hx
  · exact fun x hx => absurd hx (by simp)
  · exact fun m hm => absurd hm (Nat.not_lt_zero m)
  · exact fun x hx => .inr (.inl hx)
  · exact fun x hx => absurd hx (by simp [start])
  · exact fun x hx => absurd hx (by simp [start])
  · exact fun x hx => absurd hx (by simp [start])
  · exact .nil

/-- When the first part of the queue is used up, the second one takes its place. -/
theorem Layer.shift (h : t.Layer R starts excused n [] back)
    (hclosed : ∀ x y, excused x → R x y → excused y) :
    t.Layer R starts excused (n + 1) back [] where
  first := h.second
  second x hx := absurd hx (by simp)
  nearer m hm x hx := by
    rcases Nat.lt_succ_iff_lt_or_eq.1 hm with hless | rfl
    · exact h.nearer m hless x hx
    · exact (h.level x hx).imp_right fun hor => hor.resolve_left (by simp)
  level y hy := by
    obtain ⟨x, hx, hxy⟩ := hy
    rcases h.level x hx with hseen | hfront | hexcused
    · rcases h.seen x hseen with hentered | hexcused
      · rcases h.next x hentered y hxy with hseen' | hfront | hback
        · exact .inl hseen'
        · exact absurd hfront (by simp)
        · exact .inr (.inl hback)
      · exact .inr (.inr (hclosed x y hexcused hxy))
    · exact absurd hfront (by simp)
    · exact .inr (.inr (hclosed x y hexcused hxy))
  seen := h.seen
  shallow x hx := by
    obtain ⟨m, hm, hx⟩ := h.shallow x hx
    exact ⟨m, Nat.le_succ_of_le hm, hx⟩
  next x hx y hxy := (h.next x hx y hxy).imp_right fun hor => .inl (hor.resolve_left (by simp))
  sorted := h.sorted

/-- The next commit is the first one of the first part. -/
theorem Layered.cons (h : t.Layered R starts excused (x :: queue))
    (hclosed : ∀ x y, excused x → R x y → excused y) :
    ∃ n front back, queue = front ++ back ∧ t.Layer R starts excused n (x :: front) back := by
  obtain ⟨n, front, back, hqueue, hlayer⟩ := h
  cases front with
  | nil =>
    rw [List.nil_append] at hqueue
    exact ⟨n + 1, queue, [], (List.append_nil _).symm, hqueue ▸ hlayer.shift hclosed⟩
  | cons c front =>
    obtain ⟨rfl, rfl⟩ := List.cons.inj hqueue
    exact ⟨n, front, back, rfl, hlayer⟩

/-- A commit that was met before may be taken off the queue. -/
theorem Layered.drop (h : t.Layered R starts excused (x :: queue)) (hx : x ∈ t.seen)
    (hclosed : ∀ x y, excused x → R x y → excused y) : t.Layered R starts excused queue := by
  obtain ⟨n, front, back, rfl, hlayer⟩ := h.cons hclosed
  have hmove : ∀ y, y ∈ x :: front → y ∈ t.seen ∨ y ∈ front := by
    intro y hy
    rcases List.mem_cons.1 hy with rfl | hy
    · exact .inl hx
    · exact .inr hy
  refine ⟨n, front, back, rfl, fun y hy => hlayer.first y (by simp [hy]), hlayer.second,
    hlayer.nearer, fun y hy => ?_, hlayer.seen, hlayer.shallow, fun y hy z hyz => ?_, hlayer.sorted⟩
  · have := hmove y
    have := hlayer.level y hy
    tauto
  · have := hmove z
    have := hlayer.next y hy z hyz
    tauto

/-- The next commit is passed by, and what is behind it is excused. -/
theorem Layered.pass (h : t.Layered R starts excused (x :: queue)) (hx : excused x)
    (hclosed : ∀ x y, excused x → R x y → excused y) : (t.meet x).Layered R starts excused queue := by
  obtain ⟨n, front, back, rfl, hlayer⟩ := h.cons hclosed
  have hmove : ∀ y, y ∈ t.seen ∨ y ∈ x :: front → y ∈ (t.meet x).seen ∨ y ∈ front := by
    intro y hy
    simp only [meet, List.mem_append, List.mem_cons, List.not_mem_nil, or_false] at hy ⊢
    tauto
  refine ⟨n, front, back, rfl, fun y hy => hlayer.first y (by simp [hy]), hlayer.second,
    fun m hm y hy => ?_, fun y hy => ?_, fun y hy => ?_, hlayer.shallow, fun y hy z hyz => ?_,
    hlayer.sorted⟩
  · exact (hlayer.nearer m hm y hy).imp_left fun hseen => List.mem_append_left _ hseen
  · have := hmove y
    have := hlayer.level y hy
    tauto
  · rcases List.mem_append.1 hy with hold | hnew
    · exact hlayer.seen y hold
    · rw [List.mem_singleton.1 hnew]
      exact .inr hx
  · have := hmove z
    have := hlayer.next y hy z hyz
    tauto

/-- The next commit is entered.  It is new and not excused, so nothing that was met is farther away. -/
theorem Layered.enter (h : t.Layered R starts excused (x :: queue)) (hnew : x ∉ t.seen)
    (hx : ¬ excused x) (hps : ∀ y, y ∈ ps ↔ R x y)
    (hclosed : ∀ x y, excused x → R x y → excused y) :
    ((t.meet x).enter x).Layered R starts excused (queue ++ ps) := by
  obtain ⟨n, front, back, rfl, hlayer⟩ := h.cons hclosed
  have haway : Away R starts n x := hlayer.first x (by simp)
  have hmove : ∀ y, y ∈ t.seen ∨ y ∈ x :: front →
      y ∈ ((t.meet x).enter x).seen ∨ y ∈ front := by
    intro y hy
    simp only [Trail.enter, meet, List.mem_append, List.mem_cons, List.not_mem_nil,
      or_false] at hy ⊢
    tauto
  refine ⟨n, front, back ++ ps, List.append_assoc .., fun y hy => hlayer.first y (by simp [hy]),
    fun y hy => ?_, fun m hm y hy => ?_, fun y hy => ?_, fun y hy => ?_, fun y hy => ?_,
    fun y hy z hyz => ?_, ?_⟩
  · rcases List.mem_append.1 hy with hback | hparent
    · exact hlayer.second y hback
    · exact ⟨x, haway, (hps y).1 hparent⟩
  · exact (hlayer.nearer m hm y hy).imp_left fun hseen => List.mem_append_left _ hseen
  · have := hmove y
    have := hlayer.level y hy
    tauto
  · rcases List.mem_append.1 hy with hold | hlast
    · exact (hlayer.seen y hold).imp_left fun hentered => List.mem_append_left _ hentered
    · exact .inl (List.mem_append_right _ hlast)
  · rcases List.mem_append.1 hy with hold | hlast
    · exact hlayer.shallow y hold
    · rw [List.mem_singleton.1 hlast]
      exact ⟨n, Nat.le_refl n, haway⟩
  · rw [List.mem_append]
    rcases List.mem_append.1 hy with hold | hlast
    · have := hmove z
      have := hlayer.next y hold z hyz
      tauto
    · rw [List.mem_singleton.1 hlast] at hyz
      exact .inr (.inr (.inr ((hps z).2 hyz)))
  · refine List.pairwise_append.2 ⟨hlayer.sorted, List.pairwise_singleton .., ?_⟩
    intro y hy z hz k hk
    obtain ⟨m, hm, hym⟩ := hlayer.shallow y hy
    -- Otherwise `x` would have been met before.
    have hle : n ≤ k := by
      by_contra hless
      rw [List.mem_singleton.1 hz] at hk
      exact (hlayer.nearer k (Nat.lt_of_not_le hless) x hk).elim hnew hx
    exact ⟨m, hm.trans hle, hym⟩

/-- A walk that passes by exactly what is excused keeps its queue layered. -/
theorem layered_preserved {P : CommitId → Visit → Prop} {Q : CommitId → List CommitId → Prop}
    (hclosed : ∀ x y, excused x → R x y → excused y) (hpass : ∀ x, P x .pass → excused x)
    (henter : ∀ x, P x .enter → ¬ excused x) (hQ : ∀ x ps, Q x ps → ∀ y, y ∈ ps ↔ R x y) :
    Preserved P Q (Layered R starts excused) where
  pending {t queue} h := by
    induction queue with
    | nil => exact h
    | cons x queue ih =>
      unfold Trail.pending
      rw [List.dropWhile_cons]
      split
      · next hseen => exact ih (h.drop (by simpa using hseen) hclosed)
      · exact h
  pass h _ hx := h.pass (hpass _ hx) hclosed
  enter h hnew hx hps := h.enter hnew (henter _ hx) (hQ _ _ hps) hclosed

/-- Commits are met once, and entered in the order in which they are met. -/
def Single (t : Trail) (_ : List CommitId) : Prop := t.seen.Nodup ∧ t.entered.Sublist t.seen

theorem single_preserved {P : CommitId → Visit → Prop} {Q : CommitId → List CommitId → Prop} :
    Preserved P Q Single where
  pending h := h
  pass h hnew _ :=
    ⟨h.1.append (List.nodup_singleton _) (by simpa using hnew), h.2.trans (List.sublist_append_left ..)⟩
  enter h hnew _ _ :=
    ⟨h.1.append (List.nodup_singleton _) (by simpa using hnew), h.2.append (List.Sublist.refl _)⟩

end Trail

/-- Two things that every visit keeps are kept together. -/
theorem Trail.Preserved.and {P : CommitId → Visit → Prop} {Q : CommitId → List CommitId → Prop}
    {J K : Trail → List CommitId → Prop} (hJ : Trail.Preserved P Q J) (hK : Trail.Preserved P Q K) :
    Trail.Preserved P Q fun t queue => J t queue ∧ K t queue where
  pending h := ⟨hJ.pending h.1, hK.pending h.2⟩
  pass h hnew hx := ⟨hJ.pass h.1 hnew hx, hK.pass h.2 hnew hx⟩
  enter h hnew hx hps := ⟨hJ.enter h.1 hnew hx hps, hK.enter h.2 hnew hx hps⟩

end History
end Landing
