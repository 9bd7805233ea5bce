import Landing.Proofs.History.Walk
import Landing.Submission.Closure

/-!
# The changes that a closure gathers

A closure that was gathered without trouble consists of open changes as they were
shown, each once, and everything behind their current commits is stored
(`World.yields_closure`).  The second part is a by-product of the search for
changes below a member: it walks over the whole history of the member that is not
accepted yet, and the accepted part was walked over before.

Nothing is drafted while the closure is gathered, so the histories of this file
are without drafts.
-/

namespace Landing

/-- The history is faithful to `w` and nothing was drafted. -/
abbrev History.Fresh (w : World) (h : History) : Prop := h.Faithful w fun _ => []

namespace World

variable {w : World} {h h' : History}

/-- The change is an open record, as it stands in the world. -/
structure OpenRecord (w : World) (c : Change) : Prop where
  recorded : w.changes.get? c.id = some c
  isOpen : c.isOpen = true

/-- What the current commit of the change leads to is stored in its project, and so is what the
branches of the project lead to. -/
def WholeChange (w : World) (c : Change) : Prop :=
  ∀ commit, c.currentCommit? = some commit →
    w.Whole c.dest.project commit ∧ w.AcceptedStored c.dest.project

end World

namespace Closure

open World

variable {w : World} {h h' : History} {P : Change → Prop}

/-- Adding candidates: a member afterwards was one before, or it is a candidate that is given back
as new. -/
theorem mem_foldl_add {l : List Change} {s : Closure × List Change} {id : ChangeId} {c : Change}
    (hget : (l.foldl add s).1.members.get? id = some c) :
    s.1.members.get? id = some c ∨ c ∈ l ∧ c.id = id ∧ c ∈ (l.foldl add s).2 := by
  -- What was given back once is given back in the end.
  have hkept : ∀ (l : List Change) (s : Closure × List Change) (c : Change), c ∈ s.2 →
      c ∈ (l.foldl add s).2 := by
    intro l
    induction l with
    | nil => exact fun s c hc => hc
    | cons a l ih =>
      intro s c hc
      refine ih (add s a) c ?_
      unfold add
      split
      · exact hc
      · exact List.mem_append_left _ hc
  induction l generalizing s with
  | nil => exact .inl hget
  | cons a l ih =>
    rcases ih (s := add s a) hget with hmember | ⟨hl, hid, hnew⟩
    · by_cases hold : s.1.members.get? id = some c
      · exact .inl hold
      · -- The member is the candidate that was just added.
        right
        have hadd : add s a = ({ s.1 with members := s.1.members.insert a.id a }, s.2 ++ [a]) := by
          unfold add at hmember ⊢
          split at hmember
          · exact absurd hmember hold
          · next hcontains => rw [if_neg hcontains]
        rw [hadd] at hmember
        rcases Table.get?_insert_cases hmember with ⟨rfl, rfl⟩ | hbefore
        · refine ⟨by simp, rfl, hkept l (add s c) c ?_⟩
          rw [hadd]
          exact List.mem_append_right _ (by simp)
        · exact absurd hbefore hold
    · exact .inr ⟨List.mem_cons_of_mem a hl, hid, hnew⟩

/-- What is given back as new is a candidate. -/
theorem mem_of_mem_foldl_add {l : List Change} {s : Closure × List Change} {c : Change}
    (hc : c ∈ (l.foldl add s).2) : c ∈ s.2 ∨ c ∈ l := by
  induction l generalizing s with
  | nil => exact .inl hc
  | cons a l ih =>
    rcases ih (s := add s a) hc with hnew | hl
    · unfold add at hnew
      split at hnew
      · exact .inl hnew
      · rw [List.mem_append, List.mem_singleton] at hnew
        exact hnew.imp_right fun heq => by simp [heq]
    · exact .inr (List.mem_cons_of_mem a hl)

/-- What holds while a closure grows: the members are open changes as they were shown, under their own
numbers, and a member that does not wait in the queue has its history stored. -/
structure Inv (w : World) (P : Change → Prop) (s : Closure) (queue : List Change) : Prop where
  keyed : ∀ id c, s.members.get? id = some c → c.id = id
  shown : ∀ id c, s.members.get? id = some c → P c ∧ c.isOpen = true
  whole : ∀ id c, s.members.get? id = some c → c ∈ queue ∨ w.WholeChange c

/-- At first the requested change is the only member. -/
theorem eq_of_start {requested c : Change} {id : ChangeId}
    (hget : (start requested).members.get? id = some c) : id = requested.id ∧ c = requested :=
  (Table.get?_insert_cases hget).resolve_right nofun

theorem inv_start {requested : Change} (hrequested : P requested ∧ requested.isOpen = true) :
    (start requested).Inv w P [requested] := by
  refine ⟨fun id c hget => ?_, fun id c hget => ?_, fun id c hget => ?_⟩
  · obtain ⟨rfl, rfl⟩ := eq_of_start hget
    rfl
  · obtain ⟨rfl, rfl⟩ := eq_of_start hget
    exact hrequested
  · obtain ⟨rfl, rfl⟩ := eq_of_start hget
    exact .inl (by simp)

/-- Dealing with the first change of the queue keeps the invariant: its history turned out to be
stored, and the candidates that are new wait at the end of the queue. -/
theorem Inv.add {s : Closure} {change : Change} {queue candidates : List Change}
    {topics : List String} (hinv : s.Inv w P (change :: queue)) (hwhole : w.WholeChange change)
    (hcandidates : ∀ c ∈ candidates, P c ∧ c.isOpen = true) :
    (candidates.foldl Closure.add ({ s with topics }, [])).1.Inv w P
      (queue ++ (candidates.foldl Closure.add ({ s with topics }, [])).2) := by
  refine ⟨fun id c hget => ?_, fun id c hget => ?_, fun id c hget => ?_⟩
  · rcases mem_foldl_add hget with hold | ⟨_, hid, _⟩
    · exact hinv.keyed id c hold
    · exact hid
  · rcases mem_foldl_add hget with hold | ⟨hc, _, _⟩
    · exact hinv.shown id c hold
    · exact hcandidates c hc
  · rcases mem_foldl_add hget with hold | ⟨_, _, hnew⟩
    · rcases hinv.whole id c hold with hwaits | hdone
      · rcases List.mem_cons.1 hwaits with rfl | hrest
        · exact .inr hwhole
        · exact .inl (List.mem_append_left _ hrest)
      · exact .inr hdone
    · exact .inl (List.mem_append_right _ hnew)

end Closure

namespace World

open Closure

variable {w : World} {h h' : History} {P : Change → Prop}

/-- Searching below a member finds open changes, and the history of the member is stored. -/
theorem yields_belowMember (hf : h.Fresh w) {change : Change} {found : List Change}
    (hy : Study.Yields (w.Shows P) (belowMember change) h found h') :
    h'.Fresh w ∧ (∀ c ∈ found, P c ∧ c.isOpen = true) ∧ w.WholeChange change := by
  unfold belowMember at hy
  split at hy
  · next hnone =>
    obtain ⟨rfl, rfl⟩ := yields_pure.1 hy
    refine ⟨hf, fun c hc => absurd hc (by simp), fun commit hcommit => ?_⟩
    rw [hnone] at hcommit
    cases hcommit
  · next commit hcurrent =>
    simp only [yields_bind, yields_pure] at hy
    obtain ⟨ancestry, h₁, hancestry, owners, _, howners, rfl, rfl⟩ := hy
    obtain ⟨hf₁, hwhole, _⟩ := yields_unacceptedAncestry hf (settled_nil w _)
      (yields_of_shows hancestry)
    obtain ⟨hf', hall⟩ := yields_mapM (I := fun h => h.Fresh w)
      (R := fun _ (found : List Change) => ∀ c ∈ found, P c)
      (fun id _ h found h' hI hfound => by
        obtain ⟨hanswer, rfl⟩ := (yields_ask (c := .byCommit change.dest.project id)).1 hfound
        exact ⟨hI, fun c hc => (hanswer c hc).1⟩) hf₁ howners
    refine ⟨hf', fun c hc => ?_, fun commit' hcommit => ?_⟩
    · obtain ⟨hflat, hopen⟩ := List.mem_filter.1 hc
      obtain ⟨l, hl, hcl⟩ := List.mem_flatten.1 hflat
      obtain ⟨id, _, hlisted⟩ := exists_left_of_forall₂ hall hl
      exact ⟨hlisted c hcl, by simp at hopen; exact hopen.1⟩
    · rw [hcurrent] at hcommit
      cases hcommit
      obtain ⟨hstored, hknown⟩ := hwhole commit (by simp)
      refine ⟨fun x hx => ?_, hstored⟩
      obtain ⟨c, hc⟩ := hknown x hx
      exact Option.isSome_iff_exists.2 ⟨c, known_nil.1 hc⟩

/-- Searching by topic finds open changes. -/
theorem yields_onTopic (hf : h.Fresh w) {wholeTopic : Bool} {change : Change}
    {topics : List String} {r : List Change × List String}
    (hy : Study.Yields (w.Shows P) (onTopic wholeTopic change topics) h r h') :
    h'.Fresh w ∧ ∀ c ∈ r.1, P c ∧ c.isOpen = true := by
  unfold onTopic at hy
  split at hy
  · next topic _ =>
    split at hy
    · obtain ⟨rfl, rfl⟩ := yields_pure.1 hy
      exact ⟨hf, fun c hc => absurd hc (by simp)⟩
    · simp only [yields_bind, yields_pure, yields_ask (c := .openByTopic topic)] at hy
      obtain ⟨mates, _, ⟨hanswer, rfl⟩, rfl, rfl⟩ := hy
      exact ⟨hf, hanswer⟩
  · obtain ⟨rfl, rfl⟩ := yields_pure.1 hy
    exact ⟨hf, fun c hc => absurd hc (by simp)⟩

/-- A closure keeps its invariant until its queue is empty. -/
theorem yields_grow {wholeTopic : Bool} {budget : Nat} {s s' : Closure}
    {queue : List Change} (hf : h.Fresh w) (hinv : s.Inv w P queue)
    (hy : Study.Yields (w.Shows P) (grow wholeTopic budget s queue) h s' h') :
    h'.Fresh w ∧ s'.Inv w P [] := by
  induction budget generalizing s queue h with
  | zero =>
    cases queue with
    | nil =>
      obtain ⟨rfl, rfl⟩ := yields_pure.1 hy
      exact ⟨hf, hinv⟩
    | cons change queue => exact absurd hy yields_exhausted
  | succ budget ih =>
    cases queue with
    | nil =>
      obtain ⟨rfl, rfl⟩ := yields_pure.1 hy
      exact ⟨hf, hinv⟩
    | cons change queue =>
      simp only [grow, yields_bind] at hy
      obtain ⟨below, h₁, hbelow, ⟨mates, topics⟩, h₂, hmates, hrest⟩ := hy
      obtain ⟨hf₁, hopenBelow, hwhole⟩ := yields_belowMember hf hbelow
      obtain ⟨hf₂, hopenMates⟩ := yields_onTopic hf₁ hmates
      refine ih hf₂ (hinv.add hwhole fun c hc => ?_) hrest
      rcases List.mem_append.1 hc with hc | hc
      · exact hopenBelow c hc
      · exact hopenMates c hc

/-- What a closure without trouble gathers: open changes as they were shown, each once, with their
history stored. -/
theorem yields_closure (hf : h.Fresh w) {wholeTopic : Bool} {actor : AccountId}
    {requested : Change} (hrequested : P requested ∧ requested.isOpen = true)
    {members : List Change}
    (hy : Study.Yields (w.Shows P) (Closure.compute wholeTopic actor requested) h members h') :
    h'.Fresh w ∧ (members.map (·.id)).Nodup ∧
      ∀ c ∈ members, (P c ∧ c.isOpen = true) ∧ w.WholeChange c := by
  simp only [Closure.compute, yields_bind, yields_read, yields_get] at hy
  obtain ⟨closure, h₁, ⟨_, _, ⟨rfl, rfl⟩, hgrow⟩, seen, h₂, hseen, hrest⟩ := hy
  -- The queue is empty in the end, so the invariant speaks of the history of every member.
  obtain ⟨hf₁, hinv⟩ := yields_grow hf (inv_start hrequested) hgrow
  have hf₂ : h₂.Fresh w := by
    simp only [Closure.visible, yields_bind, yields_pure] at hseen
    obtain ⟨verdicts, _, hverdicts, _, rfl⟩ := hseen
    exact (yields_mapM (I := fun h => h.Fresh w) (R := fun _ _ => True)
      (fun c _ h b h' hI hb => by
        obtain ⟨_, rfl⟩ := (yields_planning_ask (c := .isVisible actor c)).1 hb
        exact ⟨hI, trivial⟩) hf₁ hverdicts).1
  split at hrest
  · obtain ⟨rfl, rfl⟩ := yields_pure.1 hrest
    refine ⟨hf₂, ?_, fun c hc => ?_⟩
    · rw [Table.map_values_eq_keys hinv.keyed]
      exact Table.nodup_keys closure.members
    · obtain ⟨id, hget⟩ := Table.mem_values.1 hc
      exact ⟨hinv.shown id c hget, (hinv.whole id c hget).resolve_left (by simp)⟩
  · exact absurd hrest yields_throw

end World

/-! ### Gathering a closure only asks -/

namespace Closure

open Study

theorem isInquiry_belowMember {change : Change} : Reading.IsInquiry (belowMember change) := by
  unfold belowMember
  split
  · exact isInquiry_pure []
  · refine History.isInquiry_unacceptedAncestry.bind fun ancestry => ?_
    refine (isInquiry_mapM fun id _ => ?_).bind fun owners => isInquiry_pure _
    exact Reading.isInquiry_ask (c := .byCommit change.dest.project id) trivial

theorem isInquiry_onTopic {wholeTopic : Bool} {change : Change} {topics : List String} :
    Reading.IsInquiry (onTopic wholeTopic change topics) := by
  unfold onTopic
  split
  · next topic _ =>
    split
    · exact isInquiry_pure _
    · refine (Reading.isInquiry_ask (c := .openByTopic topic) trivial).bind fun mates => ?_
      exact isInquiry_pure _
  · exact isInquiry_pure _

theorem isInquiry_grow (wholeTopic : Bool) (budget : Nat) (s : Closure) (queue : List Change) :
    Reading.IsInquiry (grow wholeTopic budget s queue) := by
  induction budget generalizing s queue with
  | zero =>
    cases queue with
    | nil => exact isInquiry_pure s
    | cons change queue => exact Reading.isInquiry_exhausted
  | succ budget ih =>
    cases queue with
    | nil => exact isInquiry_pure s
    | cons change queue =>
      refine isInquiry_belowMember.bind fun below => ?_
      exact isInquiry_onTopic.bind fun r => ih _ _

/-- Every member is asked for. -/
theorem isInquiry_visible {E : Failure → Prop} {actor : AccountId} {members : List Change} :
    Study.IsInquiry E (visible actor members) :=
  (isInquiry_mapM fun c _ => Planning.isInquiry_ask (c := .isVisible actor c) trivial).bind
    fun _ => isInquiry_pure _

/-- The only failure of its own that gathering a closure has names the requested change. -/
theorem isInquiry_compute {E : Failure → Prop} {wholeTopic : Bool} {actor : AccountId}
    {requested : Change} (hE : E (.notVisible requested.id)) :
    Study.IsInquiry E (compute wholeTopic actor requested) := by
  refine (Planning.isInquiry_read ?_).bind fun closure => ?_
  · exact isInquiry_get.bind fun h => isInquiry_grow wholeTopic h.budget _ _
  · refine isInquiry_visible.bind fun seen => ?_
    split
    · exact isInquiry_pure _
    · exact isInquiry_throw hE

end Closure
end Landing
