import Landing.World.Snapshot
import Landing.Proofs.Json.Record
import Landing.Proofs.Store.Calm

/-!
# A saved world is loaded again

The text that saving writes holds the whole world but for the counter of change
numbers and for the names and numbers under which commits, changes and accounts are
filed.  Loading files all of them under their own, so a loaded world is filed whatever
the text (`World.filed_of_load?`), and what was filed otherwise is lost
(`World.load?_save_misfiled`).  No operation files anything otherwise: every world that
administrators, uploaders and programs bring about is filed (`World.Reachable.filed`).

So saving and loading are inverse to each other as far as they can be
(`World.load?_save`): loading what was saved gives back the world exactly if it was
filed, and a world that was loaded from any text is saved as a text that loading and
saving no longer change.
-/

namespace Landing

open Json

/-- Every commit of the project is stored under its own name. -/
def Project.Filed (p : Project) : Prop := ∀ id c, p.commits.get? id = some c → c.id = id

/-- Every commit, change and account is stored under its own name or number. -/
structure World.Filed (w : World) : Prop where
  projects : ∀ name p, w.projects.get? name = some p → p.Filed
  changes : w.Keyed
  accounts : ∀ id a, w.accounts.get? id = some a → a.id = id

namespace Table

variable {κ α : Type} [Ord κ] [Std.TransOrd κ] [Std.LawfulEqOrd κ] {key : α → κ}

/-- A table in which every value tells its key is made of its values. -/
theorem ofList_values {t : Table κ α} (hkey : ∀ k a, t.get? k = some a → key a = k) :
    ofList (t.values.map fun a => (key a, a)) = t := by
  have hentries : t.values.map (fun a => (key a, a)) = t.entries := by
    rw [values, List.map_map]
    conv_rhs => rw [← List.map_id t.entries]
    refine List.map_congr_left fun e he => ?_
    have hself : key e.2 = e.1 := hkey e.1 e.2 ((get?_eq_some_iff ..).2 he)
    simp [hself]
  rw [hentries, ofList_entries]

/-- In a table made from values that tell their keys, every value is found under its own. -/
theorem key_of_get?_ofList {l : List α} {k : κ} {a : α}
    (h : (ofList (l.map fun a => (key a, a))).get? k = some a) : key a = k := by
  obtain ⟨b, -, heq⟩ := List.mem_map.1 (mem_of_get?_ofList h)
  cases heq
  rfl

/-- Inserting a value under its own key leaves every value under its own key. -/
theorem key_of_get?_insert (key : α → κ) {t : Table κ α}
    (hkey : ∀ k a, t.get? k = some a → key a = k) (b : α) :
    ∀ k a, (t.insert (key b) b).get? k = some a → key a = k := by
  intro k a hget
  rcases get?_insert_cases hget with ⟨rfl, rfl⟩ | hold
  · rfl
  · exact hkey k a hold

end Table

namespace World

variable {w : World}

/-! ### What is filed stays filed -/

theorem filed_empty : empty.Filed where
  projects name p hget := by cases hget
  changes := keyed_empty
  accounts id a hget := by cases hget

/-- A project that is filed may take the place of another. -/
theorem Filed.setProject (h : w.Filed) {p : Project} (hp : p.Filed) (project : ProjectName) :
    (w.setProject project p).Filed := by
  refine ⟨fun name q hget => ?_, h.changes, h.accounts⟩
  rcases Table.get?_insert_cases hget with ⟨-, rfl⟩ | hold
  · exact hp
  · exact h.projects name q hold

theorem Filed.createProject (h : w.Filed) (project : ProjectName) (ident : Signature) :
    (w.createProject project ident).2.Filed := by
  refine h.setProject ?_ project
  exact Table.key_of_get?_insert Commit.id (t := .empty) (fun _ _ hget => by cases hget) _

theorem Filed.withCommit (h : w.Filed) (project : ProjectName) (d : Draft) :
    (w.withCommit project d).Filed := by
  unfold World.withCommit
  split
  · next p hp =>
    split_ifs
    · exact h
    · have hfiled : Project.Filed { p with commits := p.commits.insert d.id d.commit } :=
        Table.key_of_get?_insert Commit.id (h.projects project p hp) d.commit
      exact h.setProject hfiled project
  · exact h

theorem Filed.withTip (h : w.Filed) (b : Branch) (tip : Option CommitId) :
    (w.withTip b tip).Filed := by
  unfold World.withTip
  split
  · next p hp =>
    have hfiled : (pointRef p b.name tip).Filed := by
      cases tip <;> exact h.projects b.project p hp
    exact h.setProject hfiled b.project
  · exact h

theorem Filed.allocate (h : w.Filed) : w.allocate.2.Filed :=
  ⟨h.projects, h.changes, h.accounts⟩

theorem Filed.insertChange (h : w.Filed) (c : Change) : (w.insertChange c).Filed :=
  ⟨h.projects, h.changes.insertChange c, h.accounts⟩

/-- A record stays under its number when it keeps it. -/
theorem Filed.withChange (h : w.Filed) {f : Change → Change} (hf : ∀ c, (f c).id = c.id)
    (id : ChangeId) : (w.withChange id f).Filed :=
  ⟨h.projects, h.changes.withChange hf id, h.accounts⟩

theorem Filed.deleteChange (h : w.Filed) (id : ChangeId) : (w.deleteChange id).Filed := by
  refine ⟨h.projects, fun id' c hget => ?_, h.accounts⟩
  rw [World.deleteChange, Table.get?_erase] at hget
  split at hget
  · cases hget
  · exact h.changes id' c hget

theorem Filed.hideBranch (h : w.Filed) (branch : Branch) (readers : List AccountId) :
    (w.hideBranch branch readers).Filed :=
  ⟨h.projects, h.changes, h.accounts⟩

theorem Filed.addAccount (h : w.Filed) (a : Account) : (w.addAccount a).Filed :=
  ⟨h.projects, h.changes, Table.key_of_get?_insert Account.id h.accounts a⟩

theorem Filed.answer (h : w.Filed) (c : StoreCall) : (w.answer c).2.Filed := by
  rcases w.answer_cases c with hsame | ⟨project, d, _, _, heffect⟩ | ⟨b, old, tip, _, _, heffect⟩ |
    ⟨number, t, submitter, _, heffect⟩ | ⟨number, _, heffect⟩
  · rwa [hsame]
  · rw [heffect]
    exact h.withCommit project d
  · rw [heffect]
    exact h.withTip b tip
  · rw [heffect]
    exact h.withChange (f := (·.markMerged t submitter)) (fun _ => rfl) number
  · rw [heffect]
    exact h.withChange (f := Change.reopen) (fun _ => rfl) number

/-- A world made entry by entry is filed when its projects are. -/
theorem filed_ofEntries {projects : List (ProjectName × Project)}
    (hprojects : ∀ e ∈ projects, e.2.Filed) (changes : List Change) (accounts : List Account)
    (hidden : List (Branch × List AccountId)) :
    (ofEntries projects changes accounts hidden).Filed := by
  have hstart : Filed { empty with projects := Table.ofList projects } := by
    refine ⟨fun name p hget => ?_, filed_empty.changes, filed_empty.accounts⟩
    exact hprojects _ (Table.mem_of_get?_ofList hget)
  have hchanges := List.foldlRecOn changes insertChange hstart fun w hw c _ => hw.insertChange c
  have hhidden := List.foldlRecOn hidden (fun w h => World.hideBranch w h.1 h.2) hchanges
    fun w hw e _ => hw.hideBranch e.1 e.2
  exact List.foldlRecOn accounts addAccount hhidden fun w hw a _ => hw.addAccount a

/-! ### The world that entries make -/

theorem foldl_insertChange (changes : List Change) (w : World) :
    ∃ n, changes.foldl insertChange w =
      { w with
        changes := (changes.map fun c => (c.id, c)).foldl (fun t e => t.insert e.1 e.2) w.changes
        nextId := n } := by
  induction changes generalizing w with
  | nil => exact ⟨w.nextId, rfl⟩
  | cons c changes ih => exact ih (w.insertChange c)

theorem foldl_hideBranch (hidden : List (Branch × List AccountId)) (w : World) :
    hidden.foldl (fun w h => w.hideBranch h.1 h.2) w =
      { w with
        hidden := (hidden.map fun h => (h.1, Table.ofList (h.2.map fun a => (a, ())))).foldl
          (fun t e => t.insert e.1 e.2) w.hidden } := by
  induction hidden generalizing w with
  | nil => rfl
  | cons h hidden ih => exact ih (w.hideBranch h.1 h.2)

theorem foldl_addAccount (accounts : List Account) (w : World) :
    accounts.foldl addAccount w =
      { w with
        accounts :=
          (accounts.map fun a => (a.id, a)).foldl (fun t e => t.insert e.1 e.2) w.accounts } := by
  induction accounts generalizing w with
  | nil => rfl
  | cons a accounts ih => exact ih (w.addAccount a)

/-- The parts of a world that is made entry by entry. -/
theorem exists_ofEntries_eq (projects : List (ProjectName × Project)) (changes : List Change)
    (accounts : List Account) (hidden : List (Branch × List AccountId)) :
    ∃ n, ofEntries projects changes accounts hidden =
      { projects := Table.ofList projects
        changes := Table.ofList (changes.map fun c => (c.id, c))
        nextId := n
        hidden := Table.ofList (hidden.map fun h => (h.1, Table.ofList (h.2.map fun a => (a, ()))))
        accounts := Table.ofList (accounts.map fun a => (a.id, a)) } := by
  obtain ⟨n, hchanges⟩ :=
    foldl_insertChange changes { empty with projects := Table.ofList projects }
  refine ⟨n, ?_⟩
  simp only [ofEntries]
  rw [hchanges, foldl_hideBranch, foldl_addAccount]
  rfl

/-- A filed world is made of its entries, but for the counter of change numbers. -/
theorem Filed.exists_reload_eq (h : w.Filed) : ∃ n, w.reload = { w with nextId := n } := by
  obtain ⟨n, hentries⟩ := exists_ofEntries_eq w.projects.entries w.changes.values w.accounts.values
    (w.hidden.entries.map fun e => (e.1, e.2.keys))
  refine ⟨n, ?_⟩
  have hreaders : ∀ readers : Table AccountId Unit,
      Table.ofList (readers.keys.map fun a => (a, ())) = readers := by
    intro readers
    have hkeys : readers.keys.map (fun a => (a, ())) = readers.entries := by
      rw [Table.keys, List.map_map]
      exact List.map_id _
    rw [hkeys, Table.ofList_entries]
  rw [reload, hentries, Table.ofList_entries, Table.ofList_values h.changes,
    Table.ofList_values h.accounts, List.map_map]
  simp only [Function.comp_def, hreaders]
  rw [show w.hidden.entries.map (fun e => (e.1, e.2)) = w.hidden.entries from List.map_id _,
    Table.ofList_entries]

/-! ### The saved form -/

theorem plain_projectToJson (name : ProjectName) (p : Project) : Plain (Project.toJson name p) := by
  have hcommits : Plain (.array (p.commits.values.map Commit.toJson)) :=
    Commit.roundTrip.list.plain p.commits.values
  have hrefs : Plain (.object (p.refs.entries.map fun r => (r.1, r.2.toJson))) :=
    CommitId.roundTrip.members.plain p.refs.entries
  refine .object ?_
  simp [Plain.string, hcommits, hrefs]

/-- A filed project is read back with its name. -/
theorem projectOfJson?_toJson {p : Project} (hp : p.Filed) (name : ProjectName) :
    Project.ofJson? (Project.toJson name p) = some (name, p) := by
  have hcommits :
      listOf? Commit.ofJson? (.array (p.commits.values.map Commit.toJson)) =
        some p.commits.values :=
    Commit.roundTrip.list.read_write p.commits.values
  have hrefs :
      membersOf? CommitId.ofJson? (.object (p.refs.entries.map fun r => (r.1, r.2.toJson))) =
        some p.refs.entries :=
    CommitId.roundTrip.members.read_write p.refs.entries
  rw [Project.toJson, Project.ofJson?, Fields.ofJson?_object (by rfl) (by decide)]
  simp [Fields.required, Fields.get?, string?, hcommits, hrefs, Table.ofList_entries,
    Table.ofList_values hp]

/-- A project is filed however it was written. -/
theorem filed_of_projectOfJson? {j : Json} {e : ProjectName × Project}
    (h : Project.ofJson? j = some e) : e.2.Filed := by
  simp only [Project.ofJson?, Option.bind_eq_bind, Option.bind_eq_some_iff] at h
  obtain ⟨r, -, name, -, commits, -, refs, -, heq⟩ := h
  cases heq
  intro id c hget
  exact Table.key_of_get?_ofList hget

theorem roundTrip_hidden :
    RoundTrip (fun h : Branch × List AccountId =>
      .object [("branch", h.1.toJson), ("readers", .array (h.2.map fun a => .nat a.toNat))])
      hiddenOfJson? where
  plain h := by
    have hreaders : Plain (.array (h.2.map fun a => .nat a.toNat)) := RoundTrip.word.list.plain h.2
    refine .object ?_
    simp [Branch.roundTrip.plain, hreaders]
  read_write h := by
    have hreaders : listOf? word? (.array (h.2.map fun a => .nat a.toNat)) = some h.2 :=
      RoundTrip.word.list.read_write h.2
    rw [hiddenOfJson?, Fields.ofJson?_object (by rfl) (by decide)]
    simp [Fields.required, Fields.optional, Fields.get?, Branch.roundTrip.read_write, hreaders]

/-- A world is saved as a plain value. -/
theorem plain_toJson (w : World) : Plain w.toJson := by
  have hprojects : Plain (.array (w.projects.entries.map fun e => Project.toJson e.1 e.2)) := by
    refine .array fun j hj => ?_
    obtain ⟨e, -, rfl⟩ := List.mem_map.1 hj
    exact plain_projectToJson e.1 e.2
  have hchanges : Plain (.array (w.changes.values.map Change.toJson)) :=
    Change.roundTrip.list.plain w.changes.values
  have haccounts : Plain (.array (w.accounts.values.map Account.toJson)) :=
    Account.roundTrip.list.plain w.accounts.values
  have hhidden : Plain (.array (w.hidden.entries.map fun e => hiddenToJson e.1 e.2)) := by
    have hplain := roundTrip_hidden.list.plain (w.hidden.entries.map fun e => (e.1, e.2.keys))
    rwa [List.map_map] at hplain
  refine .object ?_
  simp [hprojects, hchanges, haccounts, hhidden]

/-- The text of a world is read as what it was made from. -/
theorem load?_save_eq_ofJson? (w : World) : load? w.save = ofJson? w.toJson := by
  rw [load?, save, w.plain_toJson.ofText?_toIndentedText, Option.bind_some]

/-- Worlds with the same text have equally many accounts. -/
theorem length_accounts_of_save_eq {v : World} (hsave : w.save = v.save) :
    w.accounts.values.length = v.accounts.values.length := by
  have hw : Json.ofText? w.save = some w.toJson := w.plain_toJson.ofText?_toIndentedText
  have hv : Json.ofText? v.save = some v.toJson := v.plain_toJson.ofText?_toIndentedText
  rw [hsave, hv, Option.some_inj] at hw
  simp only [toJson, object.injEq, List.cons.injEq, Prod.mk.injEq, array.injEq] at hw
  obtain ⟨-, -, ⟨-, haccounts⟩, -⟩ := hw
  simpa using (congrArg List.length haccounts).symm

/-- The saved form of a filed world is read as the world that its entries make. -/
theorem Filed.ofJson?_toJson (h : w.Filed) : ofJson? w.toJson = some w.reload := by
  have hprojects :
      listOf? Project.ofJson? (.array (w.projects.entries.map fun e => Project.toJson e.1 e.2)) =
        some w.projects.entries := by
    refine listOf?_map fun e he => ?_
    exact projectOfJson?_toJson (h.projects e.1 e.2 ((Table.get?_eq_some_iff ..).2 he)) e.1
  have hchanges :
      listOf? Change.ofJson? (.array (w.changes.values.map Change.toJson)) =
        some w.changes.values :=
    Change.roundTrip.list.read_write w.changes.values
  have haccounts :
      listOf? Account.ofJson? (.array (w.accounts.values.map Account.toJson)) =
        some w.accounts.values :=
    Account.roundTrip.list.read_write w.accounts.values
  have hhidden :
      listOf? hiddenOfJson? (.array (w.hidden.entries.map fun e => hiddenToJson e.1 e.2)) =
        some (w.hidden.entries.map fun e => (e.1, e.2.keys)) := by
    have hread :=
      roundTrip_hidden.list.read_write (w.hidden.entries.map fun e => (e.1, e.2.keys))
    rwa [List.map_map] at hread
  rw [toJson, ofJson?, Fields.ofJson?_object (by rfl) (by decide)]
  simp [Fields.optional, Fields.get?, hprojects, hchanges, haccounts, hhidden, reload]

/-- Loading the text of a filed world gives the world that its entries make. -/
theorem Filed.load?_save_eq (h : w.Filed) : load? w.save = some w.reload := by
  rw [load?_save_eq_ofJson?, h.ofJson?_toJson]

/-- A loaded world is filed. -/
theorem filed_of_load? {text : String} (h : load? text = some w) : w.Filed := by
  obtain ⟨j, -, hread⟩ := Option.bind_eq_some_iff.1 h
  simp only [ofJson?, Option.bind_eq_bind, Option.bind_eq_some_iff] at hread
  obtain ⟨r, -, projects, hprojects, changes, -, accounts, -, hidden, -, heq⟩ := hread
  cases heq
  refine filed_ofEntries ?_ changes accounts hidden
  unfold Fields.optional at hprojects
  split at hprojects
  · exact forall_of_listOf? (fun _ _ => filed_of_projectOfJson?) hprojects
  · cases hprojects
    simp

/-- A filed world is loaded from its text, but for the counter of change numbers. -/
theorem Filed.exists_load?_save (h : w.Filed) : ∃ n, load? w.save = some { w with nextId := n } := by
  obtain ⟨n, hreload⟩ := h.exists_reload_eq
  exact ⟨n, by rw [h.load?_save_eq, hreload]⟩

/-- The worlds that come about, from nothing or from a text, by what administrators and uploaders do
and by programs over the stores. -/
inductive Reachable : World → Prop
  | empty : Reachable empty
  | loads {text : String} {w : World} (hload : load? text = some w) : Reachable w
  /-- A program over the stores, such as a submission. -/
  | runs {α : Type} {w : World} (h : Reachable w) (p : Program α) : Reachable (w.run p).2
  | creates {w : World} (h : Reachable w) (project : ProjectName) (ident : Signature) :
    Reachable (w.createProject project ident).2
  | uploads {w : World} (h : Reachable w) {project : ProjectName} {d : Draft} {r : Commit × World}
    (hput : w.putCommit project d = .ok r) : Reachable r.2
  | points {w w' : World} (h : Reachable w) {b : Branch} {tip : CommitId}
    (hset : w.setBranch b tip = .ok w') : Reachable w'
  | allocates {w : World} (h : Reachable w) : Reachable w.allocate.2
  | records {w : World} (h : Reachable w) (c : Change) : Reachable (w.insertChange c)
  /-- An edit does not touch the number of the change. -/
  | edits {w w' : World} (h : Reachable w) {id : ChangeId} {f : Change → Change}
    (hf : ∀ c, (f c).id = c.id) (hupdate : w.updateChange id f = .ok w') : Reachable w'
  | deletes {w : World} (h : Reachable w) (id : ChangeId) : Reachable (w.deleteChange id)
  | hides {w : World} (h : Reachable w) (b : Branch) (readers : List AccountId) :
    Reachable (w.hideBranch b readers)
  | registers {w : World} (h : Reachable w) (a : Account) : Reachable (w.addAccount a)

/-- Every world that comes about is filed. -/
theorem Reachable.filed (h : w.Reachable) : w.Filed := by
  induction h with
  | empty => exact filed_empty
  | loads hload => exact filed_of_load? hload
  | runs _ p ih => exact run_keeps (fun _ c hw => hw.answer c) ih p
  | creates _ project ident ih => exact ih.createProject project ident
  | uploads _ hput ih =>
    obtain ⟨-, rfl⟩ := eq_of_putCommit hput
    exact ih.withCommit _ _
  | points _ hset ih =>
    obtain ⟨-, rfl⟩ := eq_withTip_of_setBranch hset
    exact ih.withTip _ _
  | allocates _ ih => exact ih.allocate
  | records _ c ih => exact ih.insertChange c
  | edits _ hf hupdate ih =>
    obtain ⟨-, rfl⟩ := eq_withChange_of_updateChange hupdate
    exact ih.withChange hf _
  | deletes _ id ih => exact ih.deleteChange id
  | hides _ b readers ih => exact ih.hideBranch b readers
  | registers _ a ih => exact ih.addAccount a

/-- **Saving and loading are inverse.**  A world is loaded from its text as it was exactly if its
commits, changes and accounts are filed under their own names and numbers: the same projects with
their commits and refs, the same changes, accounts and readers of hidden branches; only the counter of
change numbers follows from the changes.  And a world that was loaded from any text is saved as a text
that loading and saving leave as it is. -/
theorem load?_save :
    (∀ w : World, (∃ n, load? w.save = some { w with nextId := n }) ↔ w.Filed) ∧
    ∀ (text : String) (w : World), load? text = some w →
      ∃ w', load? w.save = some w' ∧ w'.save = w.save := by
  refine ⟨fun w => ⟨?_, Filed.exists_load?_save⟩, fun text w hload => ?_⟩
  · rintro ⟨n, hload⟩
    -- The counter has no part in where things are filed.
    obtain ⟨hprojects, hchanges, haccounts⟩ := filed_of_load? hload
    exact ⟨hprojects, hchanges, haccounts⟩
  · obtain ⟨n, hagain⟩ := (filed_of_load? hload).exists_load?_save
    exact ⟨_, hagain, rfl⟩

/-- A world with a project, a change on a hidden branch of it and the owner of the change. -/
def sampleFiled : World :=
  let w := (empty.createProject "p" ⟨"a\n\"b\"", "c"⟩).2
  let w := w.insertChange ((Change.create 7 ⟨"p", "b"⟩ 2 (CommitId.ofContent "x")).withTopic "t")
  (w.hideBranch ⟨"p", "b"⟩ [2, 1, 2]).addAccount ⟨2, ⟨"d", ""⟩⟩

/-- A text that leaves sections out, writes records as arrays and repeats what it says. -/
def sampleText : String :=
  "\x7b\"more\": [], \"hidden_branches\": [[[\"p\", \"b\"], []], [[\"p\", \"b\"], [2, 1, 2]]]\x7d"

theorem load?_save_sample :
    (∃ n, load? sampleFiled.save = some { sampleFiled with nextId := n }) ∧
    ∃ w, load? sampleText = some w ∧ ∃ w', load? w.save = some w' ∧ w'.save = w.save := by
  have hreachable : sampleFiled.Reachable :=
    (((Reachable.empty.creates _ _).records _).hides _ _).registers _
  have hsome : (load? sampleText).isSome = true := by decide +kernel
  obtain ⟨w, hload⟩ := Option.isSome_iff_exists.1 hsome
  exact ⟨(load?_save.1 sampleFiled).2 hreachable.filed, w, hload, load?_save.2 sampleText w hload⟩

/-- A world without projects and changes, where the account 8 is filed twice, under two numbers. -/
def sampleMisfiled : World :=
  { empty with accounts := (Table.empty.insert 7 ⟨8, ⟨"a", ""⟩⟩).insert 8 ⟨8, ⟨"b", ""⟩⟩ }

/-- Of an account that is not filed under its own number nothing is loaded, although all commits and
changes are filed under theirs. -/
theorem load?_save_misfiled :
    (∀ name p, sampleMisfiled.projects.get? name = some p → p.Filed) ∧ sampleMisfiled.Keyed ∧
      sampleMisfiled.accounts.get? 7 = some ⟨8, ⟨"a", ""⟩⟩ ∧
      ∃ w, load? sampleMisfiled.save = some w ∧ w.accounts = Table.empty.insert 8 ⟨8, ⟨"b", ""⟩⟩ ∧
        w.accounts.get? 7 = none ∧ w.save ≠ sampleMisfiled.save := by
  have hload : (ofJson? sampleMisfiled.toJson).any fun w =>
      w.accounts = Table.empty.insert 8 ⟨8, ⟨"b", ""⟩⟩ := by
    decide +kernel
  refine ⟨filed_empty.projects, keyed_empty, rfl, ?_⟩
  rw [load?_save_eq_ofJson?]
  cases hresult : ofJson? sampleMisfiled.toJson with
  | none =>
    rw [hresult] at hload
    cases hload
  | some w =>
    rw [hresult] at hload
    have haccounts : w.accounts = Table.empty.insert 8 ⟨8, ⟨"b", ""⟩⟩ := of_decide_eq_true hload
    refine ⟨w, rfl, haccounts, by rw [haccounts]; rfl, fun hsave => ?_⟩
    -- One account is written instead of two.
    have hcount := length_accounts_of_save_eq hsave
    rw [haccounts] at hcount
    exact absurd hcount (by decide)

end World

end Landing
