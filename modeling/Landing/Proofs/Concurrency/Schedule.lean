import Landing.Proofs.Concurrency.Pool

/-!
# Schedules

A schedule says which submission goes on next.  To follow a schedule is to run
(`Pool.runs_follow`), so runs can be computed when the world and the requests are
given.

Which plans were made in a run is computed by going through the planning again with
what was heard (`Program.replay`), so it can be decided of a run as well that no two
contents in play have one name (`Pool.injOn_drafts`).

`Sample.raced` is such a run.  Three times the same two changes are submitted, which
are for two branches.  The first submission moves one branch, the second one the
other, the third one finds both of them moved; then the first one fails and takes its
move back.
-/

namespace Landing

deriving instance DecidableEq for StoreCall

namespace Program

variable {α : Type} {p rest : Program α} {xs zs : List Exchange} {a : α}

/-- What the program has come to. -/
def result? : Program α → Option α
  | done a => some a
  | _ => none

theorem result?_eq_some : p.result? = some a ↔ p = done a := by
  cases p with
  | done => simp [result?]
  | _ => simp [result?]

/-- What the program comes to with the first of the exchanges, if these are about its calls and suffice. -/
def replay : Program α → List Exchange → Option α
  | done a, _ => some a
  | exhausted, _ => none
  | signal _ next, xs => next.replay xs
  | call _ _, [] => none
  | call c next, x :: xs => if h : x.call = c then (next (h ▸ x.answer)).replay xs else none

theorem Hears.replay (h : p.Hears xs (done a)) (hxs : xs <+: zs) : p.replay zs = some a := by
  generalize hend : done a = rest at h
  induction h generalizing zs with
  | nil =>
    rw [← hend]
    rfl
  | call _ ih =>
    obtain ⟨rest, rfl⟩ := hxs
    rw [List.cons_append, Program.replay, dif_pos rfl]
    exact ih ⟨rest, rfl⟩ hend
  | signal _ ih => exact ih hxs hend

end Program

namespace Pool

open World

variable {ι : Type} [DecidableEq ι] {σ : Pool ι} {requests : ι → Request} {i : ι} {p : Plan}

/-- One submission goes on, if it is not done: its signal is given, or its call is answered. -/
def go (σ : Pool ι) (i : ι) : Pool ι :=
  match σ.programs i with
  | .call c next =>
    σ.turn i ⟨c, (σ.world.answer c).1⟩ (σ.world.answer c).2 (next (σ.world.answer c).1)
  | .signal _ next => σ.pass i next
  | _ => σ

/-- The submissions go on in this order. -/
def follow (σ : Pool ι) (schedule : List ι) : Pool ι := schedule.foldl go σ

theorem runs_go (others : World → World → Prop) (σ : Pool ι) (i : ι) : σ.Runs others (σ.go i) := by
  unfold go
  split
  · next hcall => exact .single (.answers hcall)
  · next hsignal => exact .single (.signals hsignal)
  · exact .refl

theorem runs_follow (others : World → World → Prop) (σ : Pool ι) (schedule : List ι) :
    σ.Runs others (σ.follow schedule) := by
  induction schedule generalizing σ with
  | nil => exact .refl
  | cons i schedule ih => exact (runs_go others σ i).trans (ih (σ.go i))

theorem follow_append (σ : Pool ι) (schedule more : List ι) :
    σ.follow (schedule ++ more) = (σ.follow schedule).follow more := List.foldl_append

theorem Planned.replay (h : σ.Planned requests i p) :
    (requests i).planning.replay (σ.heard i) = some (.ok p) := by
  obtain ⟨qs, hbegins, hplanned⟩ := h
  exact hplanned.replay hbegins

/-- Where nothing is merged, the stored commits are all contents in play. -/
theorem injOn_drafts {S : Set Draft} (hstored : σ.world.storedDrafts ⊆ S)
    (hmerges : ∀ i, ∀ p ∈ ((requests i).planning.replay (σ.heard i)).bind Except.toOption,
      ∀ bp ∈ p.branches, bp.drafts = []) (hnames : Set.InjOn Draft.id S) :
    Set.InjOn Draft.id (σ.drafts requests) := by
  refine hnames.mono ?_
  rintro d (hd | ⟨i, p, hplanned, bp, hbp, hd⟩)
  · exact hstored hd
  · have hp : p ∈ ((requests i).planning.replay (σ.heard i)).bind Except.toOption := by
      rw [hplanned.replay]
      rfl
    rw [hmerges i p hp bp hbp] at hd
    cases hd

end Pool

/-! ### A race -/

namespace Sample

open World

/-- Another branch of the first project. -/
def dev : Branch := ⟨"p", "refs/heads/dev"⟩

/-- Two changes with the one topic, one for each branch of a project. -/
def pair : World :=
  { World.empty with
    projects := Table.ofList [
      ("p", { commits := Table.ofList ([first, second root "x" x, second root "y" y].map fun c => (c.id, c))
              refs := Table.ofList [(dev.name, root), (firstBranch, root)] })]
    changes := Table.ofList [
      (1, (Change.create 1 dev actor.id x).withTopic "t"), (2, change 2 "p" y)]
    nextId := 3 }

/-- Whoever submits, submits both changes. -/
def rivals (_ : Fin 3) : Request := ⟨policy, pair.reach, 2, actor⟩

/-- Up to the move of the second branch by the second submission, and then on until the first one has
failed. -/
def contest : List (Fin 3) :=
  .replicate 16 0 ++ .replicate 15 1 ++ .replicate 13 2 ++ .replicate 4 0

/-- The others come to their ends. -/
def remainder : List (Fin 3) := .replicate 6 1 ++ .replicate 5 2

/-- The pool after some turns. -/
def raced (schedule : List (Fin 3)) : Pool (Fin 3) := (Pool.start pair rivals).follow schedule

theorem runs_raced (others : World → World → Prop) (schedule : List (Fin 3)) :
    (Pool.start pair rivals).Runs others (raced schedule) := Pool.runs_follow others _ _

theorem runs_raced_append (others : World → World → Prop) (schedule more : List (Fin 3)) :
    (raced schedule).Runs others (raced (schedule ++ more)) := by
  rw [raced, raced, Pool.follow_append]
  exact Pool.runs_follow others _ _

theorem pair_acyclic : pair.Acyclic := acyclic_of_rank rank (by decide +kernel)

theorem pair_contentAddressed : pair.ContentAddressed :=
  contentAddressed_of_named named (by decide +kernel)

/-- No two contents in play have one name. -/
theorem raced_injOn :
    Set.InjOn Draft.id ((raced contest).drafts rivals) ∧
      Set.InjOn Draft.id ((raced (contest ++ remainder)).drafts rivals) :=
  ⟨Pool.injOn_drafts (storedDrafts_subset (by decide +kernel)) (by decide +kernel) injOn_commits,
    Pool.injOn_drafts (storedDrafts_subset (by decide +kernel)) (by decide +kernel) injOn_commits⟩

end Sample
end Landing
