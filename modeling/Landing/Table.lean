/-!
# Ordered tables

A table assigns values to finitely many keys and lists them in ascending order
of the keys.  The order is part of the type, so two tables that answer every
look-up alike are equal (`Table.ext_get?`), and what a listing shows never
depends on the history of insertions.

The look-ups after an insertion and after a removal are given by
`get?_insert` and `get?_erase`.
-/

namespace Landing

/-- Finitely many entries in strictly ascending order of their keys. -/
structure Table (κ : Type) (α : Type) [Ord κ] where
  /-- The entries, least key first. -/
  entries : List (κ × α)
  /-- Each key is less than every later one. -/
  ascending : entries.Pairwise (fun a b => compare a.1 b.1 = .lt)

namespace Table

variable {κ α β : Type} [Ord κ]

/-- The table without entries. -/
def empty : Table κ α := ⟨[], List.Pairwise.nil⟩

instance : EmptyCollection (Table κ α) := ⟨empty⟩
instance : Inhabited (Table κ α) := ⟨empty⟩

instance [DecidableEq κ] [DecidableEq α] : DecidableEq (Table κ α) := fun s t =>
  decidable_of_iff (s.entries = t.entries) (by cases s; cases t; simp)

/-- The value found under `k` in a list of entries; the first one counts. -/
def lookup (k : κ) : List (κ × α) → Option α
  | [] => none
  | (j, a) :: rest => if compare k j = .eq then some a else lookup k rest

/-- Put `a` under `k` into an ascending list, replacing what was there. -/
def place (k : κ) (a : α) : List (κ × α) → List (κ × α)
  | [] => [(k, a)]
  | (j, b) :: rest =>
    match compare k j with
    | .lt => (k, a) :: (j, b) :: rest
    | .eq => (k, a) :: rest
    | .gt => (j, b) :: place k a rest

/-- The value under `k`. -/
def get? (t : Table κ α) (k : κ) : Option α := lookup k t.entries

/-- Whether there is a value under `k`. -/
def contains (t : Table κ α) (k : κ) : Bool := (t.get? k).isSome

/-- The keys in ascending order. -/
def keys (t : Table κ α) : List κ := t.entries.map (·.1)

/-- The values in ascending order of their keys. -/
def values (t : Table κ α) : List α := t.entries.map (·.2)

/-- The number of entries. -/
def size (t : Table κ α) : Nat := t.entries.length

/-- Whether there is no entry. -/
def isEmpty (t : Table κ α) : Bool := t.entries.isEmpty

theorem mem_place {k : κ} {a : α} {e : κ × α} {l : List (κ × α)}
    (h : e ∈ place k a l) : e = (k, a) ∨ e ∈ l := by
  induction l with
  | nil => simpa [place] using h
  | cons x rest ih =>
    obtain ⟨j, b⟩ := x
    rw [place] at h
    cases hc : compare k j <;> rw [hc] at h <;> simp only [List.mem_cons] at h ⊢
    · exact h
    · rcases h with h | h
      · exact .inl h
      · exact .inr (.inr h)
    · rcases h with h | h
      · exact .inr (.inl h)
      · rcases ih h with h | h
        · exact .inl h
        · exact .inr (.inr h)

theorem ascending_place [Std.TransOrd κ] {k : κ} {a : α} {l : List (κ × α)}
    (h : l.Pairwise (fun x y => compare x.1 y.1 = .lt)) :
    (place k a l).Pairwise (fun x y => compare x.1 y.1 = .lt) := by
  induction l with
  | nil => simp [place]
  | cons x rest ih =>
    obtain ⟨j, b⟩ := x
    obtain ⟨hj, hrest⟩ := List.pairwise_cons.1 h
    rw [place]
    cases hc : compare k j with
    | lt =>
      refine List.pairwise_cons.2 ⟨fun y hy => ?_, h⟩
      rcases List.mem_cons.1 hy with rfl | hy
      · exact hc
      · exact Std.TransCmp.lt_trans hc (hj y hy)
    | eq =>
      refine List.pairwise_cons.2 ⟨fun y hy => ?_, hrest⟩
      exact Std.TransCmp.lt_of_eq_of_lt hc (hj y hy)
    | gt =>
      refine List.pairwise_cons.2 ⟨fun y hy => ?_, ih hrest⟩
      rcases mem_place hy with rfl | hy
      · exact Std.OrientedCmp.lt_of_gt hc
      · exact hj y hy

/-- The table with `a` under `k` and all else unchanged. -/
def insert [Std.TransOrd κ] (t : Table κ α) (k : κ) (a : α) : Table κ α :=
  ⟨place k a t.entries, ascending_place t.ascending⟩

/-- The table without an entry under `k`. -/
def erase (t : Table κ α) (k : κ) : Table κ α :=
  ⟨t.entries.filter (fun e => compare k e.1 != .eq), t.ascending.filter _⟩

/-- Change the value under `k`, if there is one. -/
def modify [Std.TransOrd κ] (t : Table κ α) (k : κ) (f : α → α) : Table κ α :=
  match t.get? k with
  | some a => t.insert k (f a)
  | none => t

/-- Insert the entries of a list in order, so that of equal keys the last counts. -/
def ofList [Std.TransOrd κ] (l : List (κ × α)) : Table κ α :=
  l.foldl (fun t e => t.insert e.1 e.2) empty

/-- Change every value. -/
def map (f : α → β) (t : Table κ α) : Table κ β :=
  ⟨t.entries.map (fun e => (e.1, f e.2)), by
    simpa [List.pairwise_map] using t.ascending⟩

/-- Keep the entries whose value passes the test. -/
def filter (p : κ → α → Bool) (t : Table κ α) : Table κ α :=
  ⟨t.entries.filter (fun e => p e.1 e.2), t.ascending.filter _⟩

/-! ### Look-ups -/

@[simp] theorem get?_empty (k : κ) : (empty : Table κ α).get? k = none := rfl

theorem lookup_place [Std.TransOrd κ] (k j : κ) (a : α) (l : List (κ × α)) :
    lookup j (place k a l) = if compare j k = .eq then some a else lookup j l := by
  induction l with
  | nil => simp [place, lookup]
  | cons x rest ih =>
    obtain ⟨i, b⟩ := x
    rw [place]
    cases hc : compare k i with
    | lt => simp only [lookup]
    | eq =>
      simp only [lookup]
      by_cases hj : compare j k = .eq
      · simp [hj]
      · have : compare j i ≠ .eq := fun hji =>
          hj (Std.TransCmp.eq_trans hji (Std.OrientedCmp.eq_symm hc))
        simp [hj, this]
    | gt =>
      simp only [lookup, ih]
      by_cases hji : compare j i = .eq
      · have : compare j k ≠ .eq := fun hjk => by
          have := Std.TransCmp.eq_trans (Std.OrientedCmp.eq_symm hjk) hji
          rw [hc] at this; cases this
        simp [hji, this]
      · simp [hji]

/-- After an insertion the new value is found under its key and every other look-up is as before. -/
theorem get?_insert [Std.TransOrd κ] (t : Table κ α) (k j : κ) (a : α) :
    (t.insert k a).get? j = if compare j k = .eq then some a else t.get? j :=
  lookup_place k j a t.entries

@[simp] theorem get?_insert_self [Std.TransOrd κ] (t : Table κ α) (k : κ) (a : α) :
    (t.insert k a).get? k = some a := by
  simp [get?_insert, Std.ReflCmp.compare_self]

theorem get?_insert_of_ne [Std.TransOrd κ] [Std.LawfulEqOrd κ] (t : Table κ α) {k j : κ} (a : α)
    (h : j ≠ k) : (t.insert k a).get? j = t.get? j := by
  rw [get?_insert, if_neg]
  exact fun hc => h (Std.LawfulEqCmp.eq_of_compare hc)

/-- What is found after an insertion is the new value under its key, or it was found before. -/
theorem get?_insert_cases [Std.TransOrd κ] [Std.LawfulEqOrd κ] {t : Table κ α} {k j : κ} {a b : α}
    (h : (t.insert k a).get? j = some b) : j = k ∧ b = a ∨ t.get? j = some b := by
  rw [get?_insert] at h
  split at h
  · next heq => exact .inl ⟨Std.LawfulEqCmp.eq_of_compare heq, (Option.some.inj h).symm⟩
  · exact .inr h

theorem get?_insert_empty [Std.TransOrd κ] [Std.LawfulEqOrd κ] [DecidableEq κ] (k j : κ) (a : α) :
    ((empty : Table κ α).insert k a).get? j = if j = k then some a else none := by
  by_cases h : j = k
  · rw [if_pos h, h, get?_insert_self]
  · rw [if_neg h, get?_insert_of_ne _ _ h, get?_empty]

theorem lookup_filter_ne [Std.TransOrd κ] (k j : κ) (l : List (κ × α)) :
    lookup j (l.filter (fun e => compare k e.1 != .eq)) =
      if compare j k = .eq then none else lookup j l := by
  induction l with
  | nil => simp [lookup]
  | cons x rest ih =>
    obtain ⟨i, b⟩ := x
    by_cases hki : compare k i = .eq
    · have hkeep : (compare k i != .eq) = false := by simp [hki]
      simp only [List.filter_cons, hkeep, Bool.false_eq_true, if_false, ih, lookup]
      by_cases hj : compare j k = .eq
      · simp [hj]
      · have : compare j i ≠ .eq := fun hji =>
          hj (Std.TransCmp.eq_trans hji (Std.OrientedCmp.eq_symm hki))
        simp [hj, this]
    · have hkeep : (compare k i != .eq) = true := by simpa using hki
      simp only [List.filter_cons, hkeep, if_true, lookup, ih]
      by_cases hji : compare j i = .eq
      · have : compare j k ≠ .eq := fun hjk =>
          hki (Std.TransCmp.eq_trans (Std.OrientedCmp.eq_symm hjk) hji)
        simp [hji, this]
      · simp [hji]

/-- After a removal nothing is found under the key and every other look-up is as before. -/
theorem get?_erase [Std.TransOrd κ] (t : Table κ α) (k j : κ) :
    (t.erase k).get? j = if compare j k = .eq then none else t.get? j :=
  lookup_filter_ne k j t.entries

/-- A look-up finds exactly the listed entries. -/
theorem get?_eq_some_iff [Std.TransOrd κ] [Std.LawfulEqOrd κ] (t : Table κ α) (k : κ) (a : α) :
    t.get? k = some a ↔ (k, a) ∈ t.entries := by
  obtain ⟨l, hl⟩ := t
  simp only [get?]
  induction l with
  | nil => simp [lookup]
  | cons x rest ih =>
    obtain ⟨j, b⟩ := x
    obtain ⟨hj, hrest⟩ := List.pairwise_cons.1 hl
    simp only [lookup, List.mem_cons]
    by_cases hc : compare k j = .eq
    · have hkj := Std.LawfulEqCmp.eq_of_compare hc
      subst hkj
      simp only [hc, ↓reduceIte, Option.some.injEq, Prod.mk.injEq, true_and]
      constructor
      · exact fun h => .inl h.symm
      · rintro (h | h)
        · exact h.symm
        · have := hj _ h
          rw [hc] at this; cases this
    · have hne : k ≠ j := fun h => hc (by rw [h]; exact Std.ReflCmp.compare_self)
      simp only [hc, ↓reduceIte, Prod.mk.injEq, hne, false_and, false_or]
      exact ih hrest

/-- No key is listed twice. -/
theorem nodup_keys [Std.TransOrd κ] (t : Table κ α) : t.keys.Nodup := by
  refine List.pairwise_map.2 (t.ascending.imp fun {a b} hlt heq => ?_)
  have hself : compare b.1 b.1 = .lt := by rwa [heq] at hlt
  simp [Std.ReflCmp.compare_self] at hself

/-- What holds of everything that a look-up finds is what holds of every entry. -/
theorem forall_get?_iff [Std.TransOrd κ] [Std.LawfulEqOrd κ] {t : Table κ α} {P : κ → α → Prop} :
    (∀ k a, t.get? k = some a → P k a) ↔ ∀ e ∈ t.entries, P e.1 e.2 := by
  constructor
  · intro hall e he
    exact hall e.1 e.2 ((get?_eq_some_iff ..).2 he)
  · intro hall k a hget
    exact hall (k, a) ((get?_eq_some_iff ..).1 hget)

/-- The listed values are those that a look-up finds. -/
theorem mem_values [Std.TransOrd κ] [Std.LawfulEqOrd κ] {t : Table κ α} {a : α} :
    a ∈ t.values ↔ ∃ k, t.get? k = some a := by
  simp only [values, List.mem_map, get?_eq_some_iff]
  constructor
  · rintro ⟨⟨k, a'⟩, hentry, rfl⟩
    exact ⟨k, hentry⟩
  · rintro ⟨k, hentry⟩
    exact ⟨(k, a), hentry, rfl⟩

/-- Where every value tells its key, the values are listed as their keys are. -/
theorem map_values_eq_keys [Std.TransOrd κ] [Std.LawfulEqOrd κ] {t : Table κ α} {key : α → κ}
    (hkey : ∀ k a, t.get? k = some a → key a = k) : t.values.map key = t.keys := by
  rw [values, keys, List.map_map]
  refine List.map_congr_left fun e he => ?_
  exact hkey e.1 e.2 ((get?_eq_some_iff ..).2 he)

/-- After changing every value, a look-up finds the changed value. -/
theorem get?_map (f : α → β) (t : Table κ α) (k : κ) : (t.map f).get? k = (t.get? k).map f := by
  obtain ⟨l, hl⟩ := t
  simp only [get?, map]
  clear hl
  induction l with
  | nil => rfl
  | cons e l ih =>
    obtain ⟨j, a⟩ := e
    simp only [List.map_cons, lookup]
    split
    · rfl
    · exact ih

/-- After a selection, a look-up finds the values that pass the test. -/
theorem get?_filter_eq_some_iff [Std.TransOrd κ] [Std.LawfulEqOrd κ] (p : κ → α → Bool)
    (t : Table κ α) (k : κ) (a : α) :
    (t.filter p).get? k = some a ↔ t.get? k = some a ∧ p k a = true := by
  rw [get?_eq_some_iff, get?_eq_some_iff, filter, List.mem_filter]

/-- The values of a selection, when the test is about the values. -/
theorem values_filter (p : α → Bool) (t : Table κ α) :
    (t.filter fun _ a => p a).values = t.values.filter p :=
  List.filter_map.symm

/-- When no key is given twice, a table made from a list holds exactly the listed entries. -/
theorem get?_ofList [Std.TransOrd κ] [Std.LawfulEqOrd κ] {l : List (κ × α)}
    (hnodup : (l.map (·.1)).Nodup) {k : κ} {a : α} :
    (ofList l).get? k = some a ↔ (k, a) ∈ l := by
  -- The entries inserted so far stay unless their key is among those to come.
  have hfold : ∀ (l : List (κ × α)) (t : Table κ α), (l.map (·.1)).Nodup →
      ((l.foldl (fun t e => t.insert e.1 e.2) t).get? k = some a ↔
        (k, a) ∈ l ∨ k ∉ l.map (·.1) ∧ t.get? k = some a) := by
    intro l
    induction l with
    | nil => simp
    | cons e l ih =>
      intro t hnodup
      obtain ⟨j, b⟩ := e
      obtain ⟨hj, hnodup⟩ := List.nodup_cons.1 hnodup
      simp only at hj
      simp only [List.foldl_cons, ih _ hnodup, List.mem_cons, List.map_cons, Prod.mk.injEq]
      by_cases hkj : k = j
      · subst hkj
        have hnot : (k, a) ∉ l := fun hmem => hj (List.mem_map_of_mem (f := (·.1)) hmem)
        simp [hj, hnot, eq_comm]
      · simp [get?_insert_of_ne t b hkj, hkj]
  rw [ofList, hfold l empty hnodup]
  simp

/-- What is found in a table made from a list is listed. -/
theorem mem_of_get?_ofList [Std.TransOrd κ] [Std.LawfulEqOrd κ] {l : List (κ × α)} {k : κ} {a : α}
    (h : (ofList l).get? k = some a) : (k, a) ∈ l := by
  have hfold : ∀ (l : List (κ × α)) (t : Table κ α),
      (l.foldl (fun t e => t.insert e.1 e.2) t).get? k = some a →
        (k, a) ∈ l ∨ t.get? k = some a := by
    intro l
    induction l with
    | nil => exact fun t ht => .inr ht
    | cons e l ih =>
      intro t ht
      rcases ih _ ht with hmem | hinsert
      · exact .inl (List.mem_cons_of_mem e hmem)
      · rcases get?_insert_cases hinsert with ⟨rfl, rfl⟩ | hold
        · exact .inl List.mem_cons_self
        · exact .inr hold
  exact (hfold l empty h).resolve_right (by simp)

/-- Tables that answer every look-up alike are equal. -/
theorem ext_get? [Std.TransOrd κ] [Std.LawfulEqOrd κ] {s t : Table κ α}
    (h : ∀ k, s.get? k = t.get? k) : s = t := by
  have hmem : ∀ e : κ × α, e ∈ s.entries ↔ e ∈ t.entries := fun ⟨k, a⟩ => by
    rw [← get?_eq_some_iff, ← get?_eq_some_iff, h]
  obtain ⟨l, hl⟩ := s
  obtain ⟨m, hm⟩ := t
  simp only at hmem
  congr 1
  clear h
  induction l generalizing m with
  | nil =>
    cases m with
    | nil => rfl
    | cons y m => exact absurd ((hmem y).2 (by simp)) (by simp)
  | cons x l ih =>
    cases m with
    | nil => exact absurd ((hmem x).1 (by simp)) (by simp)
    | cons y m =>
      obtain ⟨hx, hl'⟩ := List.pairwise_cons.1 hl
      obtain ⟨hy, hm'⟩ := List.pairwise_cons.1 hm
      have irrefl : ∀ e : κ × α, compare e.1 e.1 ≠ .lt := fun e => by
        simp [Std.ReflCmp.compare_self]
      have hxy : x = y := by
        rcases List.mem_cons.1 ((hmem x).1 (by simp)) with h | h
        · exact h
        · rcases List.mem_cons.1 ((hmem y).2 (by simp)) with h' | h'
          · exact h'.symm
          · exact absurd (Std.TransCmp.lt_trans (hx y h') (hy x h)) (irrefl x)
      subst hxy
      rw [ih hl' m hm' fun e => ?_]
      have := hmem e
      simp only [List.mem_cons] at this
      constructor
      · intro he
        rcases this.1 (.inr he) with rfl | h
        · exact absurd (hx _ he) (irrefl _)
        · exact h
      · intro he
        rcases this.2 (.inr he) with rfl | h
        · exact absurd (hy _ he) (irrefl _)
        · exact h

/-- The keys are those under which a look-up finds something. -/
theorem mem_keys [Std.TransOrd κ] [Std.LawfulEqOrd κ] {t : Table κ α} {k : κ} :
    k ∈ t.keys ↔ ∃ a, t.get? k = some a := by
  simp only [keys, List.mem_map, get?_eq_some_iff]
  constructor
  · rintro ⟨⟨k, a⟩, hentry, rfl⟩
    exact ⟨a, hentry⟩
  · rintro ⟨a, hentry⟩
    exact ⟨(k, a), hentry, rfl⟩

/-- An insertion adds its key. -/
theorem mem_keys_insert [Std.TransOrd κ] [Std.LawfulEqOrd κ] {t : Table κ α} {j k : κ} {a : α} :
    k ∈ (t.insert j a).keys ↔ k = j ∨ k ∈ t.keys := by
  rw [mem_keys, mem_keys]
  by_cases hk : k = j
  · simp [hk]
  · simp [hk, get?_insert_of_ne _ _ hk]

/-- A table made of a list has the keys of the list. -/
theorem mem_keys_ofList [Std.TransOrd κ] [Std.LawfulEqOrd κ] {l : List (κ × α)} {k : κ} :
    k ∈ (ofList l).keys ↔ k ∈ l.map (·.1) := by
  have hfold : ∀ (l : List (κ × α)) (t : Table κ α),
      k ∈ (l.foldl (fun t e => t.insert e.1 e.2) t).keys ↔ k ∈ l.map (·.1) ∨ k ∈ t.keys := by
    intro l
    induction l with
    | nil => simp
    | cons e l ih =>
      intro t
      rw [List.foldl_cons, ih, mem_keys_insert, List.map_cons, List.mem_cons, or_left_comm,
        or_assoc]
  rw [ofList, hfold]
  simp [keys, empty]

theorem length_keys (t : Table κ α) : t.keys.length = t.size := List.length_map _

/-- A new key makes a table larger by one. -/
theorem size_insert [Std.TransOrd κ] {t : Table κ α} {k : κ} (a : α) (hnew : t.get? k = none) :
    (t.insert k a).size = t.size + 1 := by
  obtain ⟨l, hl⟩ := t
  simp only [get?] at hnew
  show (place k a l).length = l.length + 1
  clear hl
  induction l with
  | nil => rfl
  | cons e l ih =>
    obtain ⟨j, b⟩ := e
    rw [lookup] at hnew
    split at hnew
    · cases hnew
    · next hne =>
      rw [place]
      split
      · rfl
      · next heq => exact absurd heq hne
      · simp [ih hnew]

/-- A table is made of its entries. -/
theorem ofList_entries [Std.TransOrd κ] [Std.LawfulEqOrd κ] (t : Table κ α) :
    ofList t.entries = t := by
  apply ext_get?
  intro k
  apply Option.ext
  intro a
  rw [get?_ofList t.nodup_keys, get?_eq_some_iff]

/-- The keys of a table ascend. -/
theorem ascending_keys (t : Table κ α) : t.keys.Pairwise (compare · · = .lt) :=
  List.pairwise_map.2 t.ascending

/-- Two ascending lists with the same entries are equal. -/
theorem eq_of_ascending [Std.TransOrd κ] [Std.LawfulEqOrd κ] {l l' : List (κ × α)}
    (hl : l.Pairwise fun a b => compare a.1 b.1 = .lt)
    (hl' : l'.Pairwise fun a b => compare a.1 b.1 = .lt) (hmem : ∀ e, e ∈ l ↔ e ∈ l') :
    l = l' := by
  have hsame : (⟨l, hl⟩ : Table κ α) = ⟨l', hl'⟩ := by
    refine Table.ext_get? fun k => Option.ext fun a => ?_
    rw [Table.get?_eq_some_iff, Table.get?_eq_some_iff]
    exact hmem (k, a)
  exact congrArg Table.entries hsame

/-- Two ascending lists of the same keys are equal. -/
theorem eq_of_ascending_keys [Std.TransOrd κ] [Std.LawfulEqOrd κ] {l l' : List κ}
    (hl : l.Pairwise (compare · · = .lt)) (hl' : l'.Pairwise (compare · · = .lt))
    (hmem : ∀ k, k ∈ l ↔ k ∈ l') : l = l' := by
  have hentries : l.map (fun k => (k, ())) = l'.map fun k => (k, ()) :=
    eq_of_ascending (List.pairwise_map.2 hl) (List.pairwise_map.2 hl') (by simp [hmem])
  have hfst : ∀ l : List κ, (l.map fun k => (k, ())).map Prod.fst = l := fun l => by
    rw [List.map_map]
    exact List.map_id l
  rw [← hfst l, hentries, hfst]

/-- No key stands twice in an ascending list. -/
theorem nodup_of_ascending [Std.TransOrd κ] {l : List κ}
    (hl : l.Pairwise (compare · · = .lt)) : l.Nodup := by
  refine hl.imp fun {a b} (hlt : compare a b = .lt) heq => ?_
  have hself : compare b b = .eq := Std.ReflCmp.compare_self
  rw [heq, hself] at hlt
  cases hlt

end Table

end Landing
