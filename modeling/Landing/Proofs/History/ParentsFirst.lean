import Landing.History.ParentsFirst
import Landing.Proofs.History.Walk

/-!
# A listing with parents before children

A listing that comes to its end holds the given commits, each once, and every
commit stands after its parents among them (`World.yields_parentsFirst`).

The stack of the descent is described by `Supported`: when the turn of a commit to
be placed comes, its parents are listed or higher on the stack.  So they are
listed once nothing is left above the commit, and this needs no assumption about
circles, from which a descent does not return.
-/

namespace Landing

open World

namespace History

/-- The commit that a frame is about. -/
def Frame.commit : Frame → CommitId
  | .visit c => c
  | .place c => c

/-- Every commit that waits to be placed has its parents among the members in `above` or higher on
the stack. -/
def Supported (members : List CommitId) (R : CommitId → CommitId → Prop) :
    (above : List CommitId) → (stack : List Frame) → Prop
  | _, [] => True
  | above, f :: rest =>
    (∀ c, f = .place c → ∀ y ∈ members, R c y → y ∈ above) ∧
      Supported members R (f.commit :: above) rest

/-- Every commit of a list stands after its parents among the members. -/
def InOrder (members : List CommitId) (R : CommitId → CommitId → Prop) (ids : List CommitId) : Prop :=
  ∀ earlier c later, ids = earlier ++ c :: later → ∀ y ∈ members, R c y → y ∈ earlier

/-- What holds between two steps of a descent. -/
structure Descent (members : List CommitId) (R : CommitId → CommitId → Prop) (stack : List Frame)
    (listed : List CommitId) : Prop where
  once : listed.Nodup
  within : ∀ c, c ∈ listed ∨ c ∈ stack.map Frame.commit → c ∈ members
  begun : ∀ c ∈ members, c ∈ listed ∨ c ∈ stack.map Frame.commit
  ordered : InOrder members R listed
  supported : Supported members R listed stack

variable {members listed above above' ps : List CommitId} {R : CommitId → CommitId → Prop}
variable {stack rest : List Frame} {f : Frame} {c : CommitId}

/-! ### The stack -/

theorem Supported.mono (h : Supported members R above stack) (hsub : above ⊆ above') :
    Supported members R above' stack := by
  induction stack generalizing above above' with
  | nil => trivial
  | cons f rest ih =>
    obtain ⟨hplace, hrest⟩ := h
    exact ⟨fun c hc y hy hparent => hsub (hplace c hc y hy hparent),
      ih hrest (List.cons_subset_cons _ hsub)⟩

/-- Frames that only ask for visits support what is below them. -/
theorem supported_visits (visits : List CommitId)
    (h : Supported members R (visits ++ above) stack) :
    Supported members R above (visits.map .visit ++ stack) := by
  induction visits generalizing above with
  | nil => exact h
  | cons v visits ih =>
    refine ⟨fun c hc => (nomatch hc), ih (h.mono fun y hy => ?_)⟩
    simp only [Frame.commit, List.cons_append, List.mem_cons, List.mem_append] at hy ⊢
    tauto

/-- At the beginning every member is to be visited. -/
theorem descent_start : Descent members R (members.map .visit) [] where
  once := List.nodup_nil
  within c hc := by simpa [Frame.commit] using hc
  begun c hc := by simpa [Frame.commit] using hc
  ordered earlier c later hsplit := by simp at hsplit
  supported := by
    have hnone : Supported members R (members ++ []) [] := trivial
    have hvisits := supported_visits members hnone
    rwa [List.append_nil] at hvisits

/-- A frame whose commit is listed may be taken off the stack. -/
theorem Descent.drop (h : Descent members R (f :: rest) listed) (hlisted : f.commit ∈ listed) :
    Descent members R rest listed where
  once := h.once
  within c hc := h.within c (hc.imp_right fun hrest => by simp [hrest])
  begun c hc := by
    rcases h.begun c hc with hold | hwaits
    · exact .inl hold
    · rw [List.map_cons, List.mem_cons] at hwaits
      rcases hwaits with rfl | hrest
      · exact .inl hlisted
      · exact .inr hrest
  ordered := h.ordered
  supported := h.supported.2.mono (List.cons_subset.2 ⟨hlisted, List.Subset.refl _⟩)

/-- Listing the commit on top of the stack, whose parents have been dealt with. -/
theorem Descent.place (h : Descent members R (.place c :: rest) listed) :
    Descent members R rest (list listed c) := by
  unfold list
  split
  · next hlisted => exact h.drop (by simpa [Frame.commit] using hlisted)
  · next hlisted =>
    rw [List.contains_iff_mem] at hlisted
    have hgrown : Descent members R (.place c :: rest) (listed ++ [c]) := by
      refine ⟨?_, fun x hx => h.within x ?_, fun x hx => ?_, ?_, ?_⟩
      · exact h.once.append (List.nodup_singleton c) (by simpa using hlisted)
      · simp only [List.mem_append, List.map_cons, Frame.commit, List.mem_cons] at hx ⊢
        tauto
      · exact (h.begun x hx).imp_left fun hold => List.mem_append_left _ hold
      · -- The new commit comes last, and its parents are listed.
        intro earlier x later hsplit y hy hparent
        rcases List.eq_nil_or_concat later with rfl | ⟨later', last, rfl⟩
        · obtain ⟨rfl, rfl⟩ := List.append_singleton_inj.1 hsplit
          exact h.supported.1 c rfl y hy hparent
        · rw [List.concat_eq_append, ← List.cons_append, ← List.append_assoc] at hsplit
          exact h.ordered earlier x later' (List.append_singleton_inj.1 hsplit).1 y hy hparent
      · exact h.supported.mono (List.subset_append_left _ _)
    exact hgrown.drop (List.mem_append_right _ (List.mem_singleton_self c))

/-- Visiting a commit puts its parents on the stack, above the commit itself. -/
theorem Descent.descend (h : Descent members R (.visit c :: rest) listed)
    (hps : ∀ y, R c y → y ∈ ps) : Descent members R (descend members listed c ps ++ rest) listed := by
  have hmember : c ∈ members := h.within c (.inr (by simp [Frame.commit]))
  -- The parents that are put on the stack.
  obtain ⟨visits, hvisits⟩ : ∃ visits : List CommitId,
      (ps.filter fun p => members.contains p && !listed.contains p).reverse = visits := ⟨_, rfl⟩
  have hmem : ∀ y, y ∈ visits ↔ y ∈ ps ∧ y ∈ members ∧ y ∉ listed := by
    intro y
    rw [← hvisits]
    simp
  have hcommits : (History.descend members listed c ps ++ rest).map Frame.commit =
      visits ++ c :: rest.map Frame.commit := by
    have hvisited : (visits.map Frame.visit).map Frame.commit = visits := by
      rw [List.map_map]
      exact List.map_id visits
    rw [History.descend, hvisits, List.append_assoc, List.map_append, hvisited]
    rfl
  refine ⟨h.once, fun x hx => ?_, fun x hx => ?_, h.ordered, ?_⟩
  · rw [hcommits, List.mem_append] at hx
    rcases hx with hlisted | hvisit | hrest
    · exact h.within x (.inl hlisted)
    · exact ((hmem x).1 hvisit).2.1
    · exact h.within x (.inr hrest)
  · rw [hcommits, List.mem_append]
    exact (h.begun x hx).imp_right .inr
  · rw [History.descend, hvisits, List.append_assoc]
    refine supported_visits visits ⟨fun x hx y hy hparent => ?_, ?_⟩
    · cases hx
      by_cases hlisted : y ∈ listed
      · exact List.mem_append_right _ hlisted
      · exact List.mem_append_left _ ((hmem y).2 ⟨hps y hparent, hy, hlisted⟩)
    · refine h.supported.2.mono (List.cons_subset.2 ⟨List.mem_cons_self, ?_⟩)
      exact fun y hy => List.mem_cons_of_mem _ (List.mem_append_right _ hy)

/-- Handling the frames that need no reading leaves nothing, or a commit to visit on top. -/
theorem Descent.settle (h : Descent members R stack listed) :
    (∃ ids, History.settle stack listed = ([], ids) ∧ Descent members R [] ids) ∨
      ∃ c rest listed', History.settle stack listed = (.visit c :: rest, listed') ∧
        Descent members R (.visit c :: rest) listed' := by
  induction stack generalizing listed with
  | nil => exact .inl ⟨listed, rfl, h⟩
  | cons f rest ih =>
    cases f with
    | place c => exact ih h.place
    | visit c =>
      rw [History.settle]
      split
      · next hlisted => exact ih (h.drop (by simpa [Frame.commit] using hlisted))
      · exact .inr ⟨c, rest, listed, rfl, h⟩

/-- What is listed at the end: the members, each once and after its parents among them. -/
theorem Descent.ended {ids : List CommitId} (h : Descent members R [] ids) :
    ids.Nodup ∧ (∀ id, id ∈ ids ↔ id ∈ members) ∧ InOrder members R ids :=
  ⟨h.once, fun id => ⟨fun hid => h.within id (.inl hid),
    fun hid => (h.begun id hid).resolve_right (by simp)⟩, h.ordered⟩

end History

/-! ### The descent -/

namespace World

open History

variable {w : World} {ds : ProjectName → List Draft} {h h' : History}
variable {project : ProjectName}

/-- A listing keeps a history faithful also where names are not definite. -/
theorem faithful_of_parentsFirst (hf : h.Faithful w ds) {commits ids : List CommitId}
    (hy : w.Yields (parentsFirst project commits) h ids h') : h'.Faithful w ds := by
  have harrange : ∀ (budget : Nat) (h : History) (stack : List Frame) (listed : List CommitId),
      h.Faithful w ds → w.Yields (arrange project commits budget stack listed) h ids h' →
        h'.Faithful w ds := by
    intro budget
    induction budget with
    | zero =>
      intro h stack listed hf hy
      rw [arrange] at hy
      split at hy
      · exact absurd hy yields_exhausted
      · obtain ⟨_, rfl⟩ := yields_pure.1 hy
        exact hf
    | succ budget ih =>
      intro h stack listed hf hy
      rw [arrange] at hy
      split at hy
      · obtain ⟨ps, h₁, hps, hrest⟩ := yields_bind.1 hy
        exact ih h₁ _ _ (yields_parents hf hps).1 hrest
      · obtain ⟨_, rfl⟩ := yields_pure.1 hy
        exact hf
  simp only [parentsFirst, yields_bind, yields_get] at hy
  obtain ⟨_, _, ⟨rfl, rfl⟩, hy⟩ := hy
  exact harrange _ _ _ _ hf hy

end World

/-! ### Listing only asks -/

namespace History

open Study

variable {project : ProjectName}

theorem isInquiry_arrange {members : List CommitId} (budget : Nat) (stack : List Frame)
    (listed : List CommitId) : Reading.IsInquiry (arrange project members budget stack listed) := by
  induction budget generalizing stack listed with
  | zero =>
    rw [arrange]
    split
    · exact Reading.isInquiry_exhausted
    · exact isInquiry_pure _
  | succ budget ih =>
    rw [arrange]
    split
    · exact isInquiry_parents.bind fun ps => ih _ _
    · exact isInquiry_pure _

theorem isInquiry_parentsFirst {commits : List CommitId} :
    Reading.IsInquiry (parentsFirst project commits) :=
  isInquiry_get.bind fun h => isInquiry_arrange h.budget (commits.map .visit) []

end History
end Landing
