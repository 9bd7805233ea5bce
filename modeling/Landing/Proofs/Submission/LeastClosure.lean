import Landing.Proofs.History.Ending
import Landing.Proofs.Submission.Submit

/-!
# The closure is the least one

What must go in with a change is described by two rules, and `World.Joins` is the least
collection that holds the change and is closed under them.  The search computes exactly
this collection, whatever the order in which it comes upon its members
(`Closure.compute_least`).

The search keeps a queue of members that it has not looked at yet and a list of topics
that it has looked up.  The invariant `Closure.Reached` says that every member joins by
the rules, and that whatever joins because of a member that is not in the queue any more
is a member as well; a topic that was looked up once is dealt with for every later
member that has it.  Every change enters the queue at most once, so the search comes to
an end also in a history with circles.
-/

namespace Landing

namespace World

variable {w : World} {wholeTopic : Bool} {requested m o : Change}

/-- The open change `o` is for the branch of `m`, and one of its patch sets, current or not, is at a
commit that the current commit of `m` leads to and that no branch of the project leads to. -/
def Below (w : World) (m o : Change) : Prop :=
  o ∈ w.changes.values ∧ o.isOpen = true ∧ o.dest = m.dest ∧
    ∃ commit x, m.currentCommit? = some commit ∧ w.Leads [] m.dest.project commit x ∧
      ¬ w.Accepted m.dest.project x ∧ (o.patchSetAt? x).isSome = true

/-- The open change `o`, of any project, has the topic of `m`. -/
def Mates (w : World) (m o : Change) : Prop :=
  o ∈ w.changes.values ∧ o.isOpen = true ∧
    ∃ topic, m.topic = some topic ∧ o.topic = some topic

/-- What must go in with `requested`: the least collection that holds it and, with each of its
members, the changes below it and, when whole topics are taken, those on its topic. -/
inductive Joins (w : World) (wholeTopic : Bool) (requested : Change) : Change → Prop
  | self : Joins w wholeTopic requested requested
  | lower {m o : Change} : Joins w wholeTopic requested m → w.Below m o →
    Joins w wholeTopic requested o
  | mate {m o : Change} : wholeTopic = true → Joins w wholeTopic requested m → w.Mates m o →
    Joins w wholeTopic requested o

/-- Whatever holds the requested change and is closed under the rules holds all that joins. -/
theorem Joins.least {S : Change → Prop} (hrequested : S requested)
    (hbelow : ∀ m o, S m → w.Below m o → S o)
    (hmates : wholeTopic = true → ∀ m o, S m → w.Mates m o → S o)
    (h : w.Joins wholeTopic requested o) : S o := by
  induction h with
  | self => exact hrequested
  | lower _ ho ih => exact hbelow _ _ ih ho
  | mate htopic _ ho ih => exact hmates htopic _ _ ih ho

/-- Only open records join. -/
theorem Joins.openRecord (hkeyed : w.Keyed) (hrequested : w.OpenRecord requested)
    (h : w.Joins wholeTopic requested o) : w.OpenRecord o := by
  cases h with
  | self => exact hrequested
  | lower _ ho => exact ⟨hkeyed.get?_of_mem ho.1, ho.2.1⟩
  | mate _ _ ho => exact ⟨hkeyed.get?_of_mem ho.1, ho.2.1⟩

/-- A change has one record. -/
theorem OpenRecord.eq_of_id (hm : w.OpenRecord m) (ho : w.OpenRecord o) (hid : m.id = o.id) :
    m = o := by
  have hrecorded := hm.recorded
  rw [hid, ho.recorded] at hrecorded
  exact (Option.some.inj hrecorded).symm

theorem mem_openOnTopic {topic : String} :
    o ∈ w.openOnTopic topic ↔ o ∈ w.changes.values ∧ o.isOpen = true ∧ o.topic = some topic := by
  simp [openOnTopic]

/-- The history of a change that is whole misses nothing. -/
theorem WholeChange.stocked (h : w.WholeChange o) {commit : CommitId}
    (hcommit : o.currentCommit? = some commit) : w.Stocked o.dest.project := by
  obtain ⟨hwhole, hstored⟩ := h commit hcommit
  obtain ⟨c, hc⟩ := Option.isSome_iff_exists.1 hwhole.stored
  obtain ⟨p, hp, -⟩ := Option.bind_eq_some_iff.1 hc
  exact ⟨by rw [hp]; rfl, hstored⟩

/-! ### The rules are searched exactly -/

variable {h : History}

/-- Searching below a member finds what the rule says, and it fails only if something is missing in
the history of the member. -/
theorem ends_belowMember (ha : h.Ample w fun _ => []) :
    w.Ends (Closure.belowMember m) h
      (fun found h' => h'.Ample w (fun _ => []) ∧ ∀ o, o ∈ found ↔ w.Below m o)
      (fun _ => ¬ w.WholeChange m) := by
  unfold Closure.belowMember
  split
  · next hnone =>
    refine ends_pure ⟨ha, fun o => ⟨fun ho => absurd ho List.not_mem_nil, ?_⟩⟩
    rintro ⟨-, -, -, commit, x, hcommit, -⟩
    rw [hnone] at hcommit
    cases hcommit
  · next commit hcommit =>
    have hsettled := settled_nil w m.dest.project
    have hancestry := (ends_unacceptedAncestry [commit] hsettled ha.ready).and_yields
      fun ids h' hy => (yields_unacceptedAncestry ha.faithful hsettled hy).2.2
    refine (hancestry.mono (fun _ _ h => h) fun e he hwhole => ?_).bind fun ids h₁ hids => ?_
    · rcases he with hstocked | ⟨s, hs, x, hleads, hx⟩
      · exact hstocked (hwhole.stocked hcommit)
      · rw [List.mem_singleton.1 hs] at hleads
        obtain ⟨k, hk⟩ := Option.isSome_iff_exists.1 ((hwhole commit hcommit).1 x hleads)
        exact hx k (.inl hk)
    · obtain ⟨⟨ha₁, _⟩, hexact⟩ := hids
      have howners : w.Ends (ids.mapM fun c => Reading.ask (.byCommit m.dest.project c)) h₁
          (fun owners h' => h'.Ample w (fun _ => []) ∧
            List.Forall₂ (fun c found => w.changesAt m.dest.project c = found) ids owners)
          (fun _ => ¬ w.WholeChange m) := by
        refine ends_mapM (fun c _ h hI => ends_ask (fun found hfound => ?_) fun e he => ?_) ha₁
        · cases hfound
          exact ⟨hI, rfl⟩
        · cases he
      refine howners.bind fun owners h₂ hlisted => ?_
      obtain ⟨ha₂, hall⟩ := hlisted
      refine ends_pure ⟨ha₂, fun o => ?_⟩
      -- The owners are listed commit by commit.
      have hflat : owners.flatten = ids.flatMap (w.changesAt m.dest.project) := by
        rw [List.flatMap_def, map_eq_map_of_forall₂ (g := fun found => found) hall, List.map_id']
      rw [List.mem_filter, hflat, List.mem_flatMap]
      simp only [hexact, changesAt, List.mem_filter, List.mem_singleton, exists_eq_left,
        Bool.and_eq_true, beq_iff_eq, Below, hcommit, Option.some.injEq]
      constructor
      · rintro ⟨⟨x, ⟨hnot, hleads⟩, hmem, -, hat⟩, hopen, hdest⟩
        exact ⟨hmem, hopen, hdest, commit, x, rfl, hleads, hnot, hat⟩
      · rintro ⟨hmem, hopen, hdest, _, x, rfl, hleads, hnot, hat⟩
        exact ⟨⟨x, ⟨hnot, hleads⟩, hmem, by rw [hdest], hat⟩, hopen, hdest⟩

/-- Looking a topic up never fails.  What is found has the topic of the member, and the topics that
were looked up are those from before, each of them once more unless it was looked up now. -/
theorem ends_onTopic (ha : h.Ample w fun _ => []) (topics : List String) :
    w.Ends (Closure.onTopic wholeTopic m topics) h
      (fun r h' => h'.Ample w (fun _ => []) ∧ (∀ o ∈ r.1, wholeTopic = true ∧ w.Mates m o) ∧
        (wholeTopic = true → ∀ topic, m.topic = some topic → topic ∈ r.2) ∧
        (∀ topic ∈ topics, topic ∈ r.2) ∧
        ∀ topic ∈ r.2, topic ∈ topics ∨ ∀ o ∈ w.openOnTopic topic, o ∈ r.1)
      (fun _ => False) := by
  unfold Closure.onTopic
  split
  · next topic htopic =>
    split
    · next hknown =>
      refine ends_pure ⟨ha, by simp, fun _ t ht => ?_, fun t ht => ht, fun t ht => .inl ht⟩
      rw [htopic] at ht
      cases ht
      simpa using hknown
    · refine Ends.bind (m := fun found h' => h'.Ample w (fun _ => []) ∧ found = w.openOnTopic topic)
        (ends_ask (fun found hfound => ?_) fun e he => by cases he) fun found h₁ hfound =>
          ends_pure ?_
      · cases hfound
        exact ⟨ha, rfl⟩
      · obtain ⟨ha₁, rfl⟩ := hfound
        refine ⟨ha₁, fun o ho => ⟨rfl, ?_⟩, fun _ t ht => ?_, fun t ht => ?_, fun t ht => ?_⟩
        · obtain ⟨hmem, hopen, hsame⟩ := mem_openOnTopic.1 ho
          exact ⟨hmem, hopen, topic, htopic, hsame⟩
        · rw [htopic] at ht
          cases ht
          simp
        · exact List.mem_append_left _ ht
        · rcases List.mem_append.1 ht with hold | hnew
          · exact .inl hold
          · rw [List.mem_singleton.1 hnew]
            exact .inr fun o ho => ho
  · next hno =>
    refine ends_pure ⟨ha, by simp, fun htrue t ht => ?_, fun t ht => ht, fun t ht => .inl ht⟩
    exact absurd ht (hno t htrue)

end World

/-! ### The search -/

namespace Closure

open World

variable {w : World} {wholeTopic : Bool} {requested : Change} {s : Closure}
variable {r : Closure × List Change} {candidates : List Change}

/-- The change is a member, under its own number. -/
def Has (s : Closure) (c : Change) : Prop := s.members.get? c.id = some c

/-- A candidate is a member already, or it becomes one and is given back. -/
theorem add_cases (r : Closure × List Change) (c : Change) :
    ((∃ c', r.1.members.get? c.id = some c') ∧ add r c = r) ∨
    (r.1.members.get? c.id = none ∧
      add r c = ({ r.1 with members := r.1.members.insert c.id c }, r.2 ++ [c])) := by
  unfold add Table.contains
  cases hget : r.1.members.get? c.id with
  | none => exact .inr ⟨rfl, by simp⟩
  | some c' => exact .inl ⟨⟨c', rfl⟩, by simp⟩

/-- Members stay members. -/
theorem get?_foldl_add {id : ChangeId} {c : Change} (hget : r.1.members.get? id = some c) :
    (candidates.foldl add r).1.members.get? id = some c := by
  induction candidates generalizing r with
  | nil => exact hget
  | cons a candidates ih =>
    refine ih (r := add r a) ?_
    rcases add_cases r a with ⟨_, heq⟩ | ⟨hnew, heq⟩
    · rw [heq]
      exact hget
    · have hne : id ≠ a.id := by
        rintro rfl
        rw [hnew] at hget
        cases hget
      rw [heq, Table.get?_insert_of_ne _ _ hne]
      exact hget

/-- After the candidates were added there is a member with the number of each of them. -/
theorem exists_get?_foldl_add {c : Change} (hc : c ∈ candidates) :
    ∃ c', (candidates.foldl add r).1.members.get? c.id = some c' := by
  induction candidates generalizing r with
  | nil => cases hc
  | cons a candidates ih =>
    rcases List.mem_cons.1 hc with rfl | hc
    · rcases add_cases r c with ⟨⟨c', hget⟩, heq⟩ | ⟨_, heq⟩
      · refine ⟨c', get?_foldl_add (r := add r c) ?_⟩
        rw [heq]
        exact hget
      · refine ⟨c, get?_foldl_add (r := add r c) ?_⟩
        rw [heq, Table.get?_insert_self]
    · exact ih (r := add r a) hc

theorem topics_foldl_add : (candidates.foldl add r).1.topics = r.1.topics := by
  induction candidates generalizing r with
  | nil => rfl
  | cons a candidates ih =>
    refine (ih (r := add r a)).trans ?_
    rcases add_cases r a with ⟨_, heq⟩ | ⟨_, heq⟩ <;> rw [heq]

/-- Every change that is given back makes the closure larger by one. -/
theorem size_foldl_add (r : Closure × List Change) (candidates : List Change) :
    (candidates.foldl add r).1.members.size + r.2.length =
      r.1.members.size + (candidates.foldl add r).2.length := by
  induction candidates generalizing r with
  | nil => rfl
  | cons a candidates ih =>
    have hstep : (add r a).1.members.size + r.2.length =
        r.1.members.size + (add r a).2.length := by
      rcases add_cases r a with ⟨_, heq⟩ | ⟨hnew, heq⟩
      · rw [heq]
      · rw [heq, List.length_append, List.length_singleton, Table.size_insert _ hnew]
        omega
    have hrest := ih (add r a)
    rw [List.foldl_cons]
    omega

/-- What holds while the closure grows: the members join by the rules, and whatever joins because of a
member that does not wait in the queue is a member. -/
structure Reached (w : World) (wholeTopic : Bool) (requested : Change) (s : Closure)
    (queue : List Change) : Prop where
  begun : s.Has requested
  joins : ∀ id c, s.members.get? id = some c → c.id = id ∧ w.Joins wholeTopic requested c
  waiting : ∀ c ∈ queue, s.Has c
  below : ∀ c, s.Has c → c ∈ queue ∨ ∀ o, w.Below c o → s.Has o
  /-- A member has its topic looked up when it leaves the queue. -/
  mates : wholeTopic = true → ∀ c, s.Has c →
    c ∈ queue ∨ ∀ topic, c.topic = some topic → topic ∈ s.topics
  topics : ∀ topic ∈ s.topics, ∀ o ∈ w.openOnTopic topic, s.Has o

theorem reached_start : (start requested).Reached w wholeTopic requested [requested] := by
  have hhas : (start requested).Has requested := Table.get?_insert_self ..
  have hqueue : ∀ c, (start requested).Has c → c ∈ [requested] := by
    intro c hc
    rw [(eq_of_start hc).2]
    exact List.mem_singleton_self requested
  refine ⟨hhas, fun id c hget => ?_, ?_, fun c hc => .inl (hqueue c hc),
    fun _ c hc => .inl (hqueue c hc), fun topic htopic => ?_⟩
  · obtain ⟨rfl, rfl⟩ := eq_of_start hget
    exact ⟨rfl, .self⟩
  · intro c hc
    rw [List.mem_singleton.1 hc]
    exact hhas
  · cases htopic

/-- Dealing with the first change of the queue keeps the invariant. -/
theorem Reached.step (hkeyed : w.Keyed) (hrequested : w.OpenRecord requested) {change : Change}
    {queue below mates : List Change} {topics : List String}
    (h : s.Reached w wholeTopic requested (change :: queue))
    (hbelow : ∀ o, o ∈ below ↔ w.Below change o)
    (hmates : ∀ o ∈ mates, wholeTopic = true ∧ w.Mates change o)
    (hown : wholeTopic = true → ∀ topic, change.topic = some topic → topic ∈ topics)
    (hold : ∀ topic ∈ s.topics, topic ∈ topics)
    (hnew : ∀ topic ∈ topics, topic ∈ s.topics ∨ ∀ o ∈ w.openOnTopic topic, o ∈ mates) :
    ((below ++ mates).foldl add ({ s with topics }, [])).1.Reached w wholeTopic requested
      (queue ++ ((below ++ mates).foldl add ({ s with topics }, [])).2) := by
  have hchange : w.Joins wholeTopic requested change :=
    (h.joins change.id change (h.waiting change (by simp))).2
  have hkept : ∀ c, s.Has c → ((below ++ mates).foldl add ({ s with topics }, [])).1.Has c :=
    fun c hc => get?_foldl_add (r := ({ s with topics }, [])) hc
  have hcandidates : ∀ c ∈ below ++ mates, w.Joins wholeTopic requested c := by
    intro c hc
    rcases List.mem_append.1 hc with hc | hc
    · exact hchange.lower ((hbelow c).1 hc)
    · exact hchange.mate (hmates c hc).1 (hmates c hc).2
  have hjoins : ∀ id c, ((below ++ mates).foldl add ({ s with topics }, [])).1.members.get? id =
      some c → c.id = id ∧ w.Joins wholeTopic requested c := by
    intro id c hget
    rcases mem_foldl_add hget with hbefore | ⟨hc, hid, _⟩
    · exact h.joins id c hbefore
    · exact ⟨hid, hcandidates c hc⟩
  -- A member that has the number of a candidate is that candidate, for both are records.
  have hadded : ∀ c ∈ below ++ mates,
      ((below ++ mates).foldl add ({ s with topics }, [])).1.Has c := by
    intro c hc
    obtain ⟨c', hget⟩ := exists_get?_foldl_add (r := ({ s with topics }, [])) hc
    obtain ⟨hid, hjoin⟩ := hjoins c.id c' hget
    have hsame : c' = c := (hjoin.openRecord hkeyed hrequested).eq_of_id
      ((hcandidates c hc).openRecord hkeyed hrequested) hid
    rw [hsame] at hget
    exact hget
  refine ⟨hkept _ h.begun, hjoins, fun c hc => ?_, fun c hc => ?_, fun htrue c hc => ?_,
    fun topic htopic o ho => ?_⟩
  · rcases List.mem_append.1 hc with hc | hc
    · exact hkept c (h.waiting c (List.mem_cons_of_mem _ hc))
    · exact hadded c ((mem_of_mem_foldl_add hc).resolve_left List.not_mem_nil)
  · rcases mem_foldl_add hc with hbefore | ⟨_, _, hgiven⟩
    · rcases h.below c hbefore with hwaits | hdone
      · rcases List.mem_cons.1 hwaits with rfl | hrest
        · exact .inr fun o ho => hadded o (List.mem_append_left _ ((hbelow o).2 ho))
        · exact .inl (List.mem_append_left _ hrest)
      · exact .inr fun o ho => hkept o (hdone o ho)
    · exact .inl (List.mem_append_right _ hgiven)
  · rw [topics_foldl_add]
    rcases mem_foldl_add hc with hbefore | ⟨_, _, hgiven⟩
    · rcases h.mates htrue c hbefore with hwaits | hdone
      · rcases List.mem_cons.1 hwaits with rfl | hrest
        · exact .inr (hown htrue)
        · exact .inl (List.mem_append_left _ hrest)
      · exact .inr fun topic htopic => hold topic (hdone topic htopic)
    · exact .inl (List.mem_append_right _ hgiven)
  · rw [topics_foldl_add] at htopic
    rcases hnew topic htopic with hbefore | hlooked
    · exact hkept o (h.topics topic hbefore o ho)
    · exact hadded o (List.mem_append_right _ (hlooked o ho))

/-- When the queue is empty, the members are what joins. -/
theorem Reached.has_iff (h : s.Reached w wholeTopic requested []) {c : Change} :
    s.Has c ↔ w.Joins wholeTopic requested c := by
  refine ⟨fun hc => (h.joins c.id c hc).2, fun hc => ?_⟩
  refine hc.least h.begun (fun m o hm ho => ?_) fun htrue m o hm ho => ?_
  · exact (h.below m hm).resolve_left List.not_mem_nil o ho
  · obtain ⟨hmem, hopen, topic, hown, hsame⟩ := ho
    have htopic := (h.mates htrue m hm).resolve_left List.not_mem_nil topic hown
    exact h.topics topic htopic o (mem_openOnTopic.2 ⟨hmem, hopen, hsame⟩)

/-- There are no more members than changes. -/
theorem Reached.size_le (hkeyed : w.Keyed) (hrequested : w.OpenRecord requested)
    {queue : List Change} (h : s.Reached w wholeTopic requested queue) :
    s.members.size ≤ w.changes.size := by
  have hsub : s.members.keys ⊆ w.changes.keys := by
    intro id hid
    obtain ⟨c, hget⟩ := Table.mem_keys.1 hid
    obtain ⟨rfl, hjoin⟩ := h.joins id c hget
    exact Table.mem_keys.2 ⟨c, (hjoin.openRecord hkeyed hrequested).recorded⟩
  rw [← Table.length_keys, ← Table.length_keys]
  exact ((Table.nodup_keys s.members).subperm hsub).length_le

variable {h : History}

/-- The search comes to an end with its queue empty.  Every change that leaves the queue is one member
less to be found, so the budget lasts. -/
theorem ends_grow (hkeyed : w.Keyed) (hrequested : w.OpenRecord requested) {budget : Nat}
    {queue : List Change} (ha : h.Ample w fun _ => [])
    (hreached : s.Reached w wholeTopic requested queue)
    (hbudget : w.changes.size + queue.length ≤ s.members.size + budget) :
    w.Ends (grow wholeTopic budget s queue) h
      (fun s' _ => s'.Reached w wholeTopic requested [])
      (fun _ => ∃ c, w.Joins wholeTopic requested c ∧ ¬ w.WholeChange c) := by
  induction budget generalizing s queue h with
  | zero =>
    cases queue with
    | nil => exact ends_pure hreached
    | cons change queue =>
      have hsize := hreached.size_le hkeyed hrequested
      rw [List.length_cons] at hbudget
      omega
  | succ budget ih =>
    cases queue with
    | nil => exact ends_pure hreached
    | cons change queue =>
      have hchange : w.Joins wholeTopic requested change :=
        (hreached.joins change.id change (hreached.waiting change (by simp))).2
      rw [grow]
      refine ((ends_belowMember ha).mono (fun _ _ hfound => hfound)
        fun e he => ⟨change, hchange, he⟩).bind fun below h₁ hfound => ?_
      obtain ⟨ha₁, hbelow⟩ := hfound
      refine ((ends_onTopic ha₁ s.topics).mono (fun _ _ hfound => hfound)
        fun e he => he.elim).bind fun r h₂ hfound => ?_
      obtain ⟨mates, topics⟩ := r
      obtain ⟨ha₂, hmates, hown, hold, hnew⟩ := hfound
      refine ih ha₂ (hreached.step hkeyed hrequested hbelow hmates hown hold hnew) ?_
      have hsize := size_foldl_add ({ s with topics }, []) (below ++ mates)
      simp only [List.length_cons, List.length_append, List.length_nil] at hbudget hsize ⊢
      omega

/-- Every member is asked for, and the answers are those of the world. -/
theorem ends_visible (actor : AccountId) (members : List Change) :
    w.Ends (visible actor members) h
      (fun seen _ => seen = members.all fun c => w.isVisible actor c) (fun _ => False) := by
  have hverdicts : w.Ends (members.mapM fun c => Planning.ask (.isVisible actor c)) h
      (fun verdicts _ => True ∧
        List.Forall₂ (fun c verdict => w.isVisible actor c = verdict) members verdicts)
      (fun _ => False) := by
    refine ends_mapM (I := fun _ => True) (fun c _ h _ => ends_planning_ask (fun b hb => ?_)
      fun e he => ?_) trivial
    · cases hb
      exact ⟨trivial, rfl⟩
    · cases he
  refine hverdicts.bind fun verdicts h' hlisted => ends_pure ?_
  have hall := hlisted.2
  rw [← List.map_id' verdicts, ← map_eq_map_of_forall₂ (g := fun b => b) hall, List.all_map]
  rfl

/-- What gathering a closure may come to. -/
inductive Least (w : World) (wholeTopic : Bool) (actor : AccountId) (requested : Change) :
    Except Failure (List Change) → Prop
  /-- A store call has failed, for something is missing in the history of a change that joins. -/
  | failed {e : StoreError} {c : Change} : w.Joins wholeTopic requested c → ¬ w.WholeChange c →
    Least w wholeTopic actor requested (.error (.storage e))
  /-- Everything that joins is visible, and it is listed in ascending order of the numbers. -/
  | listed {members : List Change} : (members.map (·.id)).Pairwise (· < ·) →
    (∀ c, c ∈ members ↔ w.Joins wholeTopic requested c) →
    (∀ c, w.Joins wholeTopic requested c → w.isVisible actor c = true) →
    Least w wholeTopic actor requested (.ok members)
  /-- Something that joins is not visible, and no other change is named than the requested one. -/
  | hidden {c : Change} : w.Joins wholeTopic requested c → w.isVisible actor c = false →
    Least w wholeTopic actor requested (.error (.notVisible requested.id))

/-- Gathering the closure comes to an end, with all that joins or with what prevents it. -/
theorem ends_compute (hkeyed : w.Keyed) (hrequested : w.OpenRecord requested) (wholeTopic : Bool)
    (actor : AccountId) (hfresh : h.Fresh w) (hbudget : w.reach ≤ h.budget) :
    w.Ends (compute wholeTopic actor requested) h
      (fun members _ => Least w wholeTopic actor requested (.ok members))
      (fun e => Least w wholeTopic actor requested (.error e)) := by
  have hgrow : w.Ends
      (Planning.read (do grow wholeTopic (← get).budget (start requested) [requested])) h
      (fun s' _ => s'.Reached w wholeTopic requested [])
      (fun e => ∃ e', e = .storage e' ∧
        ∃ c, w.Joins wholeTopic requested c ∧ ¬ w.WholeChange c) := by
    refine Ends.read (ends_get_bind ?_)
    refine (ends_grow hkeyed hrequested (History.ample_of_reach hfresh hbudget) reached_start ?_).mono
      (fun _ _ hs => hs) fun e he => ⟨e, rfl, he⟩
    have hchanges : 1 ≤ w.changes.size :=
      List.length_pos_of_mem ((Table.get?_eq_some_iff ..).1 hrequested.recorded)
    unfold reach at hbudget
    simp only [List.length_singleton]
    omega
  refine (hgrow.mono (fun _ _ hs => hs) ?_).bind fun s' h₁ hs' => ?_
  · rintro _ ⟨e, rfl, c, hc, hbroken⟩
    exact .failed hc hbroken
  have hmem : ∀ c, c ∈ s'.members.values ↔ w.Joins wholeTopic requested c := by
    intro c
    rw [← hs'.has_iff, Table.mem_values]
    constructor
    · rintro ⟨id, hget⟩
      rw [Has, (hs'.joins id c hget).1]
      exact hget
    · exact fun hget => ⟨c.id, hget⟩
  have hsorted : (s'.members.values.map (·.id)).Pairwise (· < ·) := by
    rw [Table.map_values_eq_keys fun id c hget => (hs'.joins id c hget).1]
    exact List.pairwise_map.2 (s'.members.ascending.imp fun hlt => Std.compare_eq_lt.1 hlt)
  refine ((ends_visible actor s'.members.values).mono (fun _ _ hseen => hseen)
    fun e he => he.elim).bind fun seen h₂ hseen => ?_
  split
  · next hall =>
    refine ends_pure (.listed hsorted hmem fun c hc => ?_)
    rw [hseen, List.all_eq_true] at hall
    exact hall c ((hmem c).2 hc)
  · next hsome =>
    rw [hseen, List.all_eq_true] at hsome
    push Not at hsome
    obtain ⟨c, hc, hhidden⟩ := hsome
    exact ends_throw (.hidden ((hmem c).1 hc) (by simpa using hhidden))

/-- **The closure is the least one.**  From a history without drafts whose budget exceeds the reach of
the world, gathering the closure of an open change comes to an end, whether or not the history has
circles, and unless a store call fails it lists exactly the changes that join by the rules, provided
that all of them are visible. -/
theorem compute_least (hkeyed : w.Keyed) (hrequested : w.OpenRecord requested) (wholeTopic : Bool)
    (actor : AccountId) (hfresh : h.Fresh w) (hbudget : w.reach ≤ h.budget) :
    ∃ r h', Program.result w (compute wholeTopic actor requested h) = some (r, h') ∧
      Least w wholeTopic actor requested r := by
  obtain ⟨r, h', hresult, hr⟩ := ends_compute hkeyed hrequested wholeTopic actor hfresh hbudget
  refine ⟨r, h', hresult, ?_⟩
  cases r <;> exact hr

/-- The closure of a change at a sibling has its mates in it, one in the same project and one in
another. -/
theorem compute_least_sibling :
    let w := Sample.siblings.world
    let requested := Sample.change 2 "p" Sample.y
    let h := History.start w.reach
    let members := [Sample.change 1 "p" Sample.x, requested, Sample.change 3 "q" Sample.z]
    w.Keyed ∧ w.OpenRecord requested ∧ h.Fresh w ∧ w.reach ≤ h.budget ∧
      (∃ h', Program.result w (compute true 7 requested h) = some (.ok members, h')) ∧
      Least w true 7 requested (.ok members) := by
  intro w requested h members
  have hrequested : w.OpenRecord requested := ⟨by decide +kernel, by decide +kernel⟩
  have hfresh : h.Fresh w := History.faithful_start w w.reach
  obtain ⟨r, h', hresult, hleast⟩ :=
    compute_least Sample.siblings.keyed hrequested true 7 hfresh (Nat.le_refl _)
  have hmembers : (Program.result w (compute true 7 requested h)).map (·.1) =
      some (.ok members) := by decide +kernel
  obtain rfl : r = .ok members := by
    rw [hresult] at hmembers
    exact Option.some.inj hmembers
  exact ⟨Sample.siblings.keyed, hrequested, hfresh, Nat.le_refl _, ⟨h', hresult⟩, hleast⟩

end Closure

end Landing
