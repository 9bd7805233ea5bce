import Landing.Proofs.History.Walk

/-!
# Nearest first

The commits behind a commit come in generations: the commit itself, its parents,
the parents of these, and so on, each generation in the order of the one before it
(`World.generation`).  A commit is in several generations when ways of different
length lead to it, and it is in one of them as often as there are ways.

A walk that enters every commit meets the commits generation by generation, each
where it comes first.  The invariant, `History.Sweep`, compares the queue of the walk
with what is left of a generation and the parents of what is done with:
both have the same commits that are new, in the same order.

So a walk in search of a commit of some kind stops at the first one in the earliest
generation that has any, and where it finds none there is none
(`World.yields_walkFrom_nearest`).
-/

namespace Landing

open World

/-! ### Parents and generations -/

namespace World

variable {w : World} {drafts : List Draft} {project : ProjectName} {b x y : CommitId}

/-- The parents of a commit, stored or drafted; there are none if it is not known. -/
def parentsOf (w : World) (drafts : List Draft) (project : ProjectName) (id : CommitId) :
    List CommitId :=
  match w.commit? project id with
  | some c => c.parents
  | none => ((drafts.find? (·.id == id)).map (·.parents)).getD []

/-- The parents are those of a known commit, or no commit of the name is known. -/
theorem parentsAre_parentsOf_or (w : World) (drafts : List Draft) (project : ProjectName)
    (id : CommitId) : w.ParentsAre drafts project id (w.parentsOf drafts project id) ∨
      (∀ c, ¬ w.Known drafts project id c) ∧ w.parentsOf drafts project id = [] := by
  unfold parentsOf
  split
  · next c hc => exact .inl ⟨c, .inl hc, rfl⟩
  · next hnone =>
    cases hfind : drafts.find? (·.id == id) with
    | some d =>
      have hid : d.id = id := by simpa using List.find?_some hfind
      exact .inl ⟨d.commit, .inr ⟨d, List.mem_of_find?_eq_some hfind, hid, rfl⟩, rfl⟩
    | none =>
      refine .inr ⟨?_, rfl⟩
      rintro c (hc | ⟨d, hd, hid, _⟩)
      · rw [hnone] at hc
        cases hc
      · simpa [hid] using List.find?_eq_none.1 hfind d hd

/-- Where names are definite, a commit has the parents it is read with. -/
theorem ParentsAre.parentsOf_eq (hdefinite : w.Definite drafts project) {ps : List CommitId}
    (hps : w.ParentsAre drafts project x ps) : w.parentsOf drafts project x = ps := by
  obtain ⟨c, hc, rfl⟩ := hps
  rcases w.parentsAre_parentsOf_or drafts project x with ⟨c', hc', heq⟩ | ⟨hnone, _⟩
  · rw [← heq]
    exact hdefinite x c' c hc' hc
  · exact absurd hc (hnone c)

theorem mem_parentsOf (hdefinite : w.Definite drafts project) :
    y ∈ w.parentsOf drafts project x ↔ w.Parent drafts project x y := by
  constructor
  · intro hy
    rcases w.parentsAre_parentsOf_or drafts project x with ⟨c, hc, heq⟩ | ⟨_, hnil⟩
    · exact ⟨c, hc, heq ▸ hy⟩
    · rw [hnil] at hy
      cases hy
  · rintro ⟨c, hc, hy⟩
    rw [ParentsAre.parentsOf_eq hdefinite ⟨c, hc, rfl⟩]
    exact hy

/-- The commits that `b` leads to by `n` parent links, once for every way. -/
def generation (w : World) (drafts : List Draft) (project : ProjectName) (b : CommitId) :
    Nat → List CommitId
  | 0 => [b]
  | n + 1 => (generation w drafts project b n).flatMap (w.parentsOf drafts project)

/-- The generations together are all that a commit leads to. -/
theorem exists_generation_iff (hdefinite : w.Definite drafts project) :
    (∃ n, x ∈ w.generation drafts project b n) ↔ w.Leads drafts project b x := by
  constructor
  · rintro ⟨n, hx⟩
    induction n generalizing x with
    | zero => rw [List.mem_singleton.1 hx]; exact .refl
    | succ n ih =>
      obtain ⟨y, hy, hxy⟩ := List.mem_flatMap.1 hx
      exact (ih hy).tail ((mem_parentsOf hdefinite).1 hxy)
  · intro hleads
    induction hleads with
    | refl => exact ⟨0, List.mem_singleton_self b⟩
    | tail _ hparent ih =>
      obtain ⟨n, hy⟩ := ih
      exact ⟨n + 1, List.mem_flatMap.2 ⟨_, hy, (mem_parentsOf hdefinite).2 hparent⟩⟩

/-- Of all commits that `b` leads to and that are of the kind `T`, this one comes first: no earlier
generation has any, and neither does its own generation before it. -/
def Nearest (w : World) (drafts : List Draft) (project : ProjectName) (b : CommitId)
    (T : CommitId → Prop) (x : CommitId) : Prop :=
  ∃ n pre post, w.generation drafts project b n = pre ++ x :: post ∧ T x ∧
    (∀ m < n, ∀ y ∈ w.generation drafts project b m, ¬ T y) ∧ ∀ y ∈ pre, ¬ T y

namespace Nearest

variable {T : CommitId → Prop}

theorem leads (hdefinite : w.Definite drafts project) (h : w.Nearest drafts project b T x) :
    w.Leads drafts project b x := by
  obtain ⟨n, pre, post, heq, _⟩ := h
  exact (exists_generation_iff hdefinite).1 ⟨n, by simp [heq]⟩

theorem kind (h : w.Nearest drafts project b T x) : T x := by
  obtain ⟨_, _, _, _, hT, _⟩ := h
  exact hT

/-- Only one commit comes first. -/
theorem unique (hx : w.Nearest drafts project b T x) (hy : w.Nearest drafts project b T y) :
    x = y := by
  obtain ⟨n, pre, post, heq, hTx, hearly, hpre⟩ := hx
  obtain ⟨m, pre', post', heq', hTy, hearly', hpre'⟩ := hy
  have hmn : m = n := by
    rcases Nat.lt_trichotomy m n with hlt | rfl | hlt
    · exact absurd hTy (hearly m hlt y (by simp [heq']))
    · rfl
    · exact absurd hTx (hearly' n hlt x (by simp [heq]))
  subst hmn
  -- The parts before them have no commit of the kind, so neither part goes beyond the other.
  rw [heq, List.append_eq_append_iff] at heq'
  rcases heq' with ⟨mid, rfl, hmid⟩ | ⟨mid, rfl, hmid⟩
  · cases mid with
    | nil => simpa using (List.cons.inj hmid).1
    | cons z mid =>
      obtain ⟨rfl, -⟩ := List.cons.inj hmid
      exact absurd hTx (hpre' x (by simp))
  · cases mid with
    | nil => simpa using (List.cons.inj hmid).1.symm
    | cons z mid =>
      obtain ⟨rfl, -⟩ := List.cons.inj hmid
      exact absurd hTy (hpre y (by simp))

end Nearest
end World

/-! ### What is new in a queue -/

namespace History

variable {seen seen' l l' more : List CommitId} {x y : CommitId}

/-- The members of a list that were not seen, each where it comes first. -/
def news (seen l : List CommitId) : List CommitId := (l.filter (· ∉ seen)).eraseDups

theorem mem_news : x ∈ news seen l ↔ x ∈ l ∧ x ∉ seen := by
  simp [news]

theorem news_nil : news seen [] = [] := rfl

theorem news_eq_nil_iff : news seen l = [] ↔ l ⊆ seen := by
  rw [List.eq_nil_iff_forall_not_mem]
  constructor
  · intro hnone y hy
    by_contra hnew
    exact hnone y (mem_news.2 ⟨hy, hnew⟩)
  · intro hsub y hy
    exact (mem_news.1 hy).2 (hsub (mem_news.1 hy).1)

theorem news_congr (hsame : ∀ y, y ∈ seen ↔ y ∈ seen') : news seen l = news seen' l := by
  unfold news
  simp only [hsame]

theorem news_cons_of_mem (hx : x ∈ seen) : news seen (x :: l) = news seen l := by
  simp [news, hx]

theorem news_cons_of_not_mem (hx : x ∉ seen) :
    news seen (x :: l) = x :: news (seen ++ [x]) l := by
  unfold news
  rw [List.filter_cons_of_pos (by simpa using hx), List.eraseDups_cons, List.filter_filter]
  congr 3
  funext y
  by_cases heq : y = x
  · simp [heq]
  · simp [heq]

/-- What is new in two lists is what is new in the first, and then what is new in the second to
somebody who has seen the first. -/
theorem news_append : news seen (l ++ l') = news seen l ++ news (seen ++ l) l' := by
  induction l generalizing seen with
  | nil => simp [news_nil]
  | cons y l ih =>
    by_cases hy : y ∈ seen
    · rw [List.cons_append, news_cons_of_mem hy, news_cons_of_mem hy, ih]
      congr 1
      refine news_congr fun z => ?_
      simp only [List.mem_append, List.mem_cons]
      constructor
      · tauto
      · rintro (hz | rfl | hz)
        · exact .inl hz
        · exact .inl hy
        · exact .inr hz
    · rw [List.cons_append, news_cons_of_not_mem hy, news_cons_of_not_mem hy, ih]
      simp

/-- What is appended brings nothing new if it was seen or stands in the list before. -/
theorem news_append_of_subset (hsub : more ⊆ seen ++ l) : news seen (l ++ more) = news seen l := by
  rw [news_append, news_eq_nil_iff.2 hsub, List.append_nil]

/-- Lists with the same news have the same news when the same is appended to both. -/
theorem news_append_congr (hsame : news seen l = news seen l') :
    news seen (l ++ more) = news seen (l' ++ more) := by
  have hmem : ∀ y, y ∈ seen ++ l ↔ y ∈ seen ++ l' := by
    intro y
    have hnews : y ∈ news seen l ↔ y ∈ news seen l' := by rw [hsame]
    simp only [mem_news] at hnews
    simp only [List.mem_append]
    tauto
  rw [news_append, news_append, hsame, news_congr hmem]

/-- Taking commits off the queue that were met before takes nothing new off it. -/
theorem news_pending (t : Trail) (queue : List CommitId) :
    news t.seen (t.pending queue) = news t.seen queue := by
  unfold Trail.pending
  induction queue with
  | nil => rfl
  | cons y queue ih =>
    rw [List.dropWhile_cons]
    split
    · next hseen =>
      rw [ih, news_cons_of_mem]
      simpa using hseen
    · rfl

/-! ### Sweeping over the generations -/

variable {w : World} {drafts : List Draft} {project : ProjectName} {b : CommitId}
variable {n : Nat} {done todo queue : List CommitId} {t : Trail}

/-- A walk that has entered every commit it met is in the midst of a generation: it is done with its
first part and all earlier ones, and what waits in its queue brings the same news as the rest of the
generation followed by the parents of the part that is done with. -/
structure Sweep (w : World) (drafts : List Draft) (project : ProjectName) (b : CommitId) (n : Nat)
    (done todo : List CommitId) (t : Trail) (queue : List CommitId) : Prop where
  split : w.generation drafts project b n = done ++ todo
  earlier : ∀ m < n, w.generation drafts project b m ⊆ t.seen
  passed : done ⊆ t.seen
  waiting : news t.seen queue =
    news t.seen (todo ++ done.flatMap (w.parentsOf drafts project))
  entered : ∀ x ∈ t.seen, w.parentsOf drafts project x ⊆ t.seen ++ queue

namespace Sweep

theorem start : Sweep w drafts project b 0 [] [b] .start [b] where
  split := rfl
  earlier m hm := absurd hm (Nat.not_lt_zero m)
  passed := List.nil_subset _
  waiting := rfl
  entered x hx := absurd hx (by simp [Trail.start])

theorem pending (h : Sweep w drafts project b n done todo t queue) :
    Sweep w drafts project b n done todo t (t.pending queue) where
  split := h.split
  earlier := h.earlier
  passed := h.passed
  waiting := (news_pending t queue).trans h.waiting
  entered x hx y hy := by
    have hmet := List.mem_append.1 (h.entered x hx hy)
    exact List.mem_append.2 (Trail.seen_or_pending hmet)

/-- What is in the queue was seen, or it is left in the generation or behind the part done with. -/
theorem queue_subset (h : Sweep w drafts project b n done todo t queue) :
    queue ⊆ t.seen ++ (todo ++ done.flatMap (w.parentsOf drafts project)) := by
  intro y hy
  by_cases hseen : y ∈ t.seen
  · exact List.mem_append_left _ hseen
  · have hnew : y ∈ news t.seen queue := mem_news.2 ⟨hy, hseen⟩
    rw [h.waiting] at hnew
    exact List.mem_append_right _ (mem_news.1 hnew).1

/-- A commit of the generation that was met before is done with. -/
theorem skip (h : Sweep w drafts project b n done (x :: todo) t queue) (hx : x ∈ t.seen) :
    Sweep w drafts project b n (done ++ [x]) todo t queue where
  split := by rw [h.split, List.append_assoc, List.singleton_append]
  earlier := h.earlier
  passed := List.append_subset.2 ⟨h.passed, by simpa using hx⟩
  waiting := by
    -- Its parents have been waiting since it was entered.
    have hparents : w.parentsOf drafts project x ⊆
        t.seen ++ (todo ++ done.flatMap (w.parentsOf drafts project)) := by
      intro y hy
      rcases List.mem_append.1 (h.entered x hx hy) with hseen | hqueue
      · exact List.mem_append_left _ hseen
      · rcases List.mem_append.1 (h.queue_subset hqueue) with hseen | hwaits
        · exact List.mem_append_left _ hseen
        · rw [List.cons_append] at hwaits
          rcases List.mem_cons.1 hwaits with rfl | hwaits
          · exact List.mem_append_left _ hx
          · exact List.mem_append_right _ hwaits
    rw [h.waiting, List.cons_append, news_cons_of_mem hx, List.flatMap_append,
      List.flatMap_singleton, ← List.append_assoc, news_append_of_subset hparents]
  entered := h.entered

/-- After the end of a generation comes the beginning of the next one. -/
theorem advance (h : Sweep w drafts project b n done [] t queue) :
    Sweep w drafts project b (n + 1) [] (w.generation drafts project b (n + 1)) t queue := by
  have hdone : w.generation drafts project b n = done := by rw [h.split, List.append_nil]
  refine ⟨rfl, fun m hm => ?_, List.nil_subset _, ?_, h.entered⟩
  · rcases Nat.lt_succ_iff_lt_or_eq.1 hm with hlt | rfl
    · exact h.earlier m hlt
    · rw [hdone]
      exact h.passed
  · rw [h.waiting, generation, hdone]
    simp

/-- The rest of a generation begins with commits met before, until one is new. -/
theorem exists_rest (h : Sweep w drafts project b n done todo t queue) :
    (∃ done', Sweep w drafts project b n done' [] t queue) ∨
      ∃ done' y todo', y ∉ t.seen ∧ Sweep w drafts project b n done' (y :: todo') t queue := by
  induction todo generalizing done with
  | nil => exact .inl ⟨done, h⟩
  | cons y todo ih =>
    by_cases hy : y ∈ t.seen
    · exact ih (h.skip hy)
    · exact .inr ⟨done, y, todo, hy, h⟩

/-- The next commit that is new is where the sweep goes on. -/
theorem exists_next (h : Sweep w drafts project b n done todo t (x :: queue)) (hx : x ∉ t.seen) :
    ∃ n' done' todo', Sweep w drafts project b n' done' (x :: todo') t (x :: queue) := by
  have hhead : ∀ {n done y todo}, y ∉ t.seen →
      Sweep w drafts project b n done (y :: todo) t (x :: queue) → y = x := by
    intro n done y todo hy hsweep
    have hwaiting := hsweep.waiting
    rw [news_cons_of_not_mem hx, List.cons_append, news_cons_of_not_mem hy] at hwaiting
    exact (List.cons.inj hwaiting).1.symm
  rcases h.exists_rest with ⟨done', hdone⟩ | ⟨done', y, todo', hy, hsweep⟩
  · rcases hdone.advance.exists_rest with ⟨done', hover⟩ | ⟨done', y, todo', hy, hsweep⟩
    · -- A whole generation without anything new ends the walk, but `x` is new.
      have hnews := hdone.advance.waiting
      have hsub : w.generation drafts project b (n + 1) ⊆ t.seen := by
        rw [hover.split, List.append_nil]
        exact hover.passed
      rw [List.flatMap_nil, List.append_nil, news_eq_nil_iff.2 hsub, news_cons_of_not_mem hx] at hnews
      cases hnews
    · obtain rfl := hhead hy hsweep
      exact ⟨_, _, _, hsweep⟩
  · obtain rfl := hhead hy hsweep
    exact ⟨_, _, _, hsweep⟩

/-- Entering the next commit. -/
theorem enter (h : Sweep w drafts project b n done (x :: todo) t (x :: queue)) (hx : x ∉ t.seen) :
    Sweep w drafts project b n (done ++ [x]) todo ((t.meet x).enter x)
      (queue ++ w.parentsOf drafts project x) where
  split := by rw [h.split, List.append_assoc, List.singleton_append]
  earlier m hm := List.subset_append_of_subset_left _ (h.earlier m hm)
  passed := List.append_subset.2
    ⟨List.subset_append_of_subset_left _ h.passed, List.subset_append_right _ _⟩
  waiting := by
    have hwaiting := h.waiting
    rw [List.cons_append, news_cons_of_not_mem hx, news_cons_of_not_mem hx] at hwaiting
    rw [List.flatMap_append, List.flatMap_singleton, ← List.append_assoc]
    exact news_append_congr (List.cons.inj hwaiting).2
  entered y hy z hz := by
    simp only [Trail.enter, Trail.meet, List.mem_append, List.mem_singleton] at hy ⊢
    rcases hy with hseen | rfl
    · have hmet := h.entered y hseen hz
      simp only [List.mem_append, List.mem_cons] at hmet
      tauto
    · exact .inr (.inr hz)

/-- A walk that has come to its end has met everything that `b` leads to. -/
theorem leads_mem_seen (h : Sweep w drafts project b n done todo t [])
    (hdefinite : w.Definite drafts project) (hleads : w.Leads drafts project b x) :
    x ∈ t.seen := by
  have hrest : todo ++ done.flatMap (w.parentsOf drafts project) ⊆ t.seen :=
    news_eq_nil_iff.1 h.waiting.symm
  have hgeneration : w.generation drafts project b n ⊆ t.seen := by
    rw [h.split]
    exact List.append_subset.2 ⟨h.passed, (List.append_subset.1 hrest).1⟩
  have hb : b ∈ t.seen := by
    cases n with
    | zero => exact hgeneration (List.mem_singleton_self b)
    | succ n => exact h.earlier 0 (Nat.zero_lt_succ n) (List.mem_singleton_self b)
  refine hleads.closed (S := (· ∈ t.seen)) (fun y z hy hparent => ?_) hb
  simpa using h.entered y hy ((mem_parentsOf hdefinite).2 hparent)

end Sweep
end History

/-! ### Searching -/

namespace World

open History

variable {w : World} {ds : ProjectName → List Draft} {h h' : History}
variable {project : ProjectName} {b : CommitId}

/-- Searching from `b` for a commit that passes a test finds the nearest one, and it finds none only if
there is none. -/
theorem yields_walkFrom_nearest (hdefinite : w.Definite (ds project) project)
    (hf : h.Faithful w ds) {test : CommitId → Bool} {t : Trail}
    (hy : w.Yields (walkFrom project [b] fun c => pure (if test c then .stop else .enter)) h t h') :
    h'.Faithful w ds ∧
      ((∃ x, t.found = some x ∧ w.Nearest (ds project) project b (test · = true) x) ∨
        t.found = none ∧ ∀ x, w.Leads (ds project) project b x → test x = false) := by
  let J : Trail → List CommitId → Prop := fun t queue => (∀ x ∈ t.seen, test x = false) ∧
    ∃ n done todo, Sweep w (ds project) project b n done todo t queue
  have hJ : Trail.Preserved (fun c v => v = if test c then .stop else .enter)
      (w.ParentsAre (ds project) project) J := by
    refine ⟨?_, ?_, ?_⟩
    · rintro t queue ⟨hseen, n, done, todo, hsweep⟩
      exact ⟨hseen, n, done, todo, hsweep.pending⟩
    · intro t x queue _ _ hpass
      split at hpass <;> cases hpass
    · rintro t x queue ps ⟨hseen, n, done, todo, hsweep⟩ hx henter hps
      obtain ⟨n', done', todo', hnext⟩ := hsweep.exists_next hx
      have htest : test x = false := by
        cases hx : test x with
        | false => rfl
        | true => simp [hx] at henter
      rw [← hps.parentsOf_eq hdefinite]
      refine ⟨fun y hy => ?_, n', _, todo', hnext.enter hx⟩
      rcases List.mem_append.1 hy with hold | hnew
      · exact hseen y hold
      · rw [List.mem_singleton.1 hnew]
        exact htest
  simp only [walkFrom, yields_bind, yields_get] at hy
  obtain ⟨_, _, ⟨rfl, rfl⟩, hy⟩ := hy
  obtain ⟨hf', hend⟩ := yields_walk_of_preserved (I := fun h => h.Faithful w ds) hJ
    (fun c h v h' hI hv => by
      obtain ⟨rfl, rfl⟩ := yields_pure.1 hv
      exact ⟨hI, rfl⟩)
    (fun c h ps h' hI hps => yields_parents hI hps) hf
    ⟨fun x hx => absurd hx (by simp [Trail.start]), 0, [], [b], Sweep.start⟩ rfl hy
  refine ⟨hf', hend.imp ?_ ?_⟩
  · rintro ⟨x, t₁, rest, hfound, hstop, hx, hseen, n, done, todo, hsweep⟩
    obtain ⟨n', done', todo', hnext⟩ := hsweep.exists_next hx
    refine ⟨x, hfound, n', done', todo', hnext.split, ?_, fun m hm y hy => ?_, fun y hy => ?_⟩
    · by_contra htest
      rw [if_neg htest] at hstop
      cases hstop
    · simp [hseen y (hnext.earlier m hm hy)]
    · simp [hseen y (hnext.passed hy)]
  · rintro ⟨hfound, hseen, n, done, todo, hsweep⟩
    exact ⟨hfound, fun x hleads => hseen x (hsweep.leads_mem_seen hdefinite hleads)⟩

end World
end Landing
