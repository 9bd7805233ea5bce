import Landing.Change
import Landing.Proofs.Json.Layout

/-!
# Records are read back

A type that is kept in files has a writer and a reader.  `Json.RoundTrip` says that
the reader takes back whatever the writer writes, and that it is written as a plain
value, which every layout keeps (`Json.Plain.ofText?_toIndentedText`).

The first part has one lemma for each way in which a field is kept: as a text, a
number, a list, an option or an object with a member per entry.  The second part
goes through the records, from the names of commits up to whole changes.
-/

namespace Landing

namespace Json

/-- What is written is a plain value and is read back. -/
structure RoundTrip (write : α → Json) (read : Json → Option α) : Prop where
  plain : ∀ a, Plain (write a)
  read_write : ∀ a, read (write a) = some a

/-- A list is read back when its values are. -/
theorem listOf?_map {write : α → Json} {read : Json → Option α} {l : List α}
    (h : ∀ a ∈ l, read (write a) = some a) : listOf? read (.array (l.map write)) = some l := by
  induction l with
  | nil => rfl
  | cons a l ih =>
    have hl := ih fun b hb => h b (List.mem_cons_of_mem a hb)
    simp only [listOf?] at hl ⊢
    simp [h a List.mem_cons_self, hl]

/-- What holds of everything that a value is read as holds of every value in a list. -/
theorem forall_of_listOf? {read : Json → Option α} {P : α → Prop}
    (h : ∀ j a, read j = some a → P a) {j : Json} {l : List α} (hread : listOf? read j = some l) :
    ∀ a ∈ l, P a := by
  cases j with
  | array items =>
    simp only [listOf?] at hread
    induction items generalizing l with
    | nil =>
      cases hread
      simp
    | cons item items ih =>
      simp only [List.mapM_cons, Option.bind_eq_bind, Option.bind_eq_some_iff] at hread
      obtain ⟨a, ha, rest, hrest, heq⟩ := hread
      cases heq
      exact List.forall_mem_cons.2 ⟨h item a ha, ih hrest⟩
  | _ => cases hread

namespace RoundTrip

theorem string : RoundTrip .string string? where
  plain := .string
  read_write _ := rfl

theorem word : RoundTrip ofWord word? where
  plain n := .nat n.toNat
  read_write n := by
    have hn : n.toNat < UInt32.size := n.toNat_lt_size
    rw [ofWord, word?, if_pos hn, UInt32.ofNat_toNat]

variable {α : Type} {write : α → Json} {read : Json → Option α}

theorem list (h : RoundTrip write read) :
    RoundTrip (fun l => .array (l.map write)) (listOf? read) where
  plain l := .array fun j hj => by
    obtain ⟨a, -, rfl⟩ := List.mem_map.1 hj
    exact h.plain a
  read_write l := listOf?_map fun a _ => h.read_write a

theorem option (h : RoundTrip write read) (hnull : ∀ a, write a ≠ .null) :
    RoundTrip (ofOption write) (optionOf? read) where
  plain o := by
    cases o with
    | none => exact .null
    | some a => exact h.plain a
  read_write o := by
    cases o with
    | none => rfl
    | some a =>
      rw [ofOption, optionOf?]
      · rw [h.read_write]
        rfl
      · exact hnull a

theorem members (h : RoundTrip write read) :
    RoundTrip (fun l : List (String × α) => .object (l.map fun m => (m.1, write m.2)))
      (membersOf? read) where
  plain l := .object fun m hm => by
    obtain ⟨m, -, rfl⟩ := List.mem_map.1 hm
    exact h.plain m.2
  read_write l := by
    induction l with
    | nil => rfl
    | cons m l ih =>
      simp only [membersOf?, List.map_cons, List.mapM_cons, h.read_write] at ih ⊢
      simp [ih]

end RoundTrip

@[simp] theorem word?_nat (n : UInt32) : word? (.nat n.toNat) = some n :=
  RoundTrip.word.read_write n

namespace Fields

/-- An object with exactly the fields of a record gives them as they stand. -/
theorem ofJson?_object {names : List String} {members : List (String × Json)}
    (hnames : members.map (·.1) = names) (hnodup : names.Nodup) :
    ofJson? names (.object members) = some ⟨members⟩ := by
  have hall : members.filter (fun m => names.contains m.1) = members := by
    rw [List.filter_eq_self]
    intro m hm
    simpa [← hnames] using ⟨m.2, hm⟩
  rw [ofJson?]
  simp only [hall]
  rw [if_pos (by rwa [hnames])]

end Fields

end Json

open Json

theorem CommitId.roundTrip : RoundTrip toJson ofJson? where
  plain id := .string id.text
  read_write id := by
    rw [toJson, ofJson?, string?, Option.bind_some, ofText?_text]

theorem Signature.roundTrip : RoundTrip toJson ofJson? where
  plain s := .object (by simp [Plain.string])
  read_write s := by
    rw [toJson, ofJson?, Fields.ofJson?_object (by rfl) (by decide)]
    simp [Fields.required, Fields.get?, string?]

theorem Branch.roundTrip : RoundTrip toJson ofJson? where
  plain b := .object (by simp [Plain.string])
  read_write b := by
    rw [toJson, ofJson?, Fields.ofJson?_object (by rfl) (by decide)]
    simp [Fields.required, Fields.get?, string?]

theorem Account.roundTrip : RoundTrip toJson ofJson? where
  plain a := .object (by simp [Plain.nat, Signature.roundTrip.plain])
  read_write a := by
    rw [toJson, ofJson?, Fields.ofJson?_object (by rfl) (by decide)]
    simp [Fields.required, Fields.get?, Signature.roundTrip.read_write]

theorem Status.ofJson?_text (s : Status) : ofJson? (.string s.text) = some s := by
  cases s <;> rfl

theorem PatchSet.roundTrip : RoundTrip toJson ofJson? where
  plain p := .object (by simp [Plain.nat, CommitId.roundTrip.plain])
  read_write p := by
    rw [toJson, ofJson?, Fields.ofJson?_object (by rfl) (by decide)]
    simp [Fields.required, Fields.get?, CommitId.roundTrip.read_write]

theorem Change.roundTrip : RoundTrip toJson ofJson? where
  plain c := by
    have htopic : Plain (.ofOption .string c.topic) :=
      (RoundTrip.string.option fun _ => Json.noConfusion).plain c.topic
    have hpatchSets : Plain (.array (c.patchSets.map PatchSet.toJson)) :=
      PatchSet.roundTrip.list.plain c.patchSets
    have hsubmitter : Plain (.ofOption (fun a => .nat a.toNat) c.submitter) :=
      (RoundTrip.word.option fun _ => Json.noConfusion).plain c.submitter
    have hmergedAs : Plain (.ofOption CommitId.toJson c.mergedAs) :=
      (CommitId.roundTrip.option fun _ => Json.noConfusion).plain c.mergedAs
    refine .object ?_
    simp [Plain.nat, Plain.string, Plain.bool, Branch.roundTrip.plain, htopic, hpatchSets,
      hsubmitter, hmergedAs]
  read_write c := by
    have htopic : optionOf? string? (.ofOption .string c.topic) = some c.topic :=
      (RoundTrip.string.option fun _ => Json.noConfusion).read_write c.topic
    have hpatchSets :
        listOf? PatchSet.ofJson? (.array (c.patchSets.map PatchSet.toJson)) = some c.patchSets :=
      PatchSet.roundTrip.list.read_write c.patchSets
    have hsubmitter :
        optionOf? word? (.ofOption (fun a => .nat a.toNat) c.submitter) = some c.submitter :=
      (RoundTrip.word.option fun _ => Json.noConfusion).read_write c.submitter
    have hmergedAs :
        optionOf? CommitId.ofJson? (.ofOption CommitId.toJson c.mergedAs) = some c.mergedAs :=
      (CommitId.roundTrip.option fun _ => Json.noConfusion).read_write c.mergedAs
    rw [toJson, ofJson?, Fields.ofJson?_object (by rfl) (by decide)]
    simp [Fields.required, Fields.optional, Fields.get?, Branch.roundTrip.read_write, bool?,
      Status.ofJson?_text, htopic, hpatchSets, hsubmitter, hmergedAs]

theorem Tree.roundTrip : RoundTrip toJson ofJson? where
  plain t := RoundTrip.string.members.plain t.entries
  read_write t := by
    have hmembers := RoundTrip.string.members.read_write t.entries
    rw [toJson, ofJson?, hmembers, Option.map_some, Table.ofList_entries]

/-- The fields of a draft are read alike in a commit's record and in its own. -/
theorem Draft.ofFields?_members (d : Draft) {r : Fields}
    (hr : ∀ name ∈ fieldNames, r.get? name = Fields.get? ⟨d.members⟩ name) :
    ofFields? r = some d := by
  have hparents :
      listOf? CommitId.ofJson? (.array (d.parents.map CommitId.toJson)) = some d.parents :=
    CommitId.roundTrip.list.read_write d.parents
  simp only [fieldNames, List.forall_mem_cons] at hr
  obtain ⟨h1, h2, h3, h4, h5, -⟩ := hr
  simp only [ofFields?, Fields.required, h1, h2, h3, h4, h5]
  simp [Fields.get?, members, hparents, Tree.roundTrip.read_write, Signature.roundTrip.read_write,
    string?]

theorem Draft.plain_members (d : Draft) : ∀ m ∈ d.members, Plain m.2 := by
  have hparents : Plain (.array (d.parents.map CommitId.toJson)) :=
    CommitId.roundTrip.list.plain d.parents
  simp [members, hparents, Plain.string, Tree.roundTrip.plain, Signature.roundTrip.plain]

theorem Commit.roundTrip : RoundTrip toJson ofJson? where
  plain c := by
    refine .object ?_
    simp only [List.forall_mem_cons]
    exact ⟨CommitId.roundTrip.plain c.id, c.toDraft.plain_members⟩
  read_write c := by
    have hdraft : Draft.ofFields? ⟨("id", c.id.toJson) :: c.toDraft.members⟩ = some c.toDraft := by
      apply Draft.ofFields?_members
      simp [Draft.fieldNames, Fields.get?]
    rw [toJson, ofJson?, Fields.ofJson?_object (by rfl) (by decide)]
    simp [hdraft, Fields.required, Fields.get?, CommitId.roundTrip.read_write]

theorem Draft.roundTrip : RoundTrip toJson ofJson? where
  plain d := .object d.plain_members
  read_write d := by
    rw [toJson, ofJson?, Fields.ofJson?_object (by rfl) (by decide), Option.bind_some]
    exact d.ofFields?_members fun _ _ => rfl

end Landing
