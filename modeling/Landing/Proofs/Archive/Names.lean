import Landing.Archive.EntryPath
import Mathlib.Tactic.Common
import Mathlib.Tactic.SplitIfs

/-!
# Which name a path gets

A path is written part by part, and parts without meaning are left out.  So what stands
in the field afterwards is the tidy form of the path (`EntryPath.written_of_write`), and
it is the path itself exactly if there is nothing to tidy up, that is, no part of it is
empty or a dot (`EntryPath.tidy_eq_iff`).

It also stands in the field as it was written: no zero octet is among it, and what is
behind it does not show (`Field.Clean`).
-/

namespace Landing

/-! ### Fields -/

namespace Field

variable {f g : Field} {piece : List UInt8}

/-- What was written shows. -/
structure Clean (f : Field) : Prop where
  written : ∀ b ∈ f.written, b ≠ 0
  behind : f.behind = [] ∨ ∃ rest, f.behind = 0 :: rest

theorem clean_blank (size : Nat) : (blank size).Clean where
  written b hb := by cases hb
  behind := by
    cases size with
    | zero => exact .inl rfl
    | succ size => exact .inr ⟨List.replicate size 0, rfl⟩

theorem Clean.content_eq (hf : f.Clean) : f.content = f.written := by
  have hall : ∀ b ∈ f.written, (b != 0) = true := fun b hb => by simpa using hf.written b hb
  rw [content, octets]
  rcases hf.behind with hnone | ⟨rest, hzero⟩
  · rw [hnone, List.takeWhile_append_of_pos hall, List.takeWhile_nil, List.append_nil]
  · rw [hzero, List.takeWhile_append_of_pos hall]
    simp

/-- A piece is written behind what has been written. -/
theorem Clean.write (hf : f.Clean) (hwrite : f.write piece = .ok g) :
    g.Clean ∧ g.written = f.written ++ piece := by
  unfold Field.write at hwrite
  split at hwrite
  · cases hwrite
  split at hwrite
  · cases hwrite
  next hzero =>
    cases hwrite
    refine ⟨⟨fun b hb => ?_, ?_⟩, rfl⟩
    · rcases List.mem_append.1 hb with hold | hnew
      · exact hf.written b hold
      · rintro rfl
        exact hzero (List.contains_iff_mem.2 hnew)
    · cases f.behind.drop piece.length with
      | nil => exact .inl rfl
      | cons b rest => exact .inr ⟨rest, rfl⟩

end Field

namespace EntryPath

/-! ### Writing keeps the size of a field -/

/-- The field has `n` octets, and so it has where writing was refused. -/
def Sized (n : Nat) : Except Refusal Field → Prop
  | .ok f => f.octets.length = n
  | .error r => r.field.octets.length = n

section

variable {n : Nat} {f : Field}

theorem Sized.bind {x : Except Refusal Field} {next : Field → Except Refusal Field} (hx : Sized n x)
    (hnext : ∀ g, g.octets.length = n → Sized n (next g)) : Sized n (x.bind next) := by
  cases x with
  | error r => exact hx
  | ok g => exact hnext g hx

theorem sized_append (hf : f.octets.length = n) (text : List Char) : Sized n (append f text) := by
  rw [append]
  cases hwrite : f.write (octets text) with
  | error why => exact hf
  | ok g => exact (Field.length_octets_write hwrite).trans hf

theorem sized_appendComponent (hf : f.octets.length = n) (text : List Char) :
    Sized n (appendComponent f text) := by
  unfold appendComponent
  split
  · exact sized_append hf text
  · exact (sized_append hf ['/']).bind fun g hg => sized_append hg text

theorem sized_place {beginning only : Bool} (cs : List Component) (hf : f.octets.length = n) :
    Sized n (place beginning only f cs) := by
  induction cs generalizing f with
  | nil => exact hf
  | cons c cs ih =>
    cases c with
    | root => exact hf
    | parent =>
      rw [place]
      split
      · exact sized_appendComponent hf _
      · exact hf
    | current =>
      rw [place]
      split
      · exact (sized_appendComponent hf _).bind fun g hg => ih hg
      · exact ih hf
    | normal name => exact (sized_appendComponent hf _).bind fun g hg => ih hg

theorem sized_write {beginning : Bool} (hf : f.octets.length = n) (path : List Char) :
    Sized n (write beginning f path) := by
  refine (sized_place _ hf).bind fun g hg => ?_
  split
  · exact hg
  · split
    · exact sized_append hg ['/']
    · exact hg

end

/-! ### Parts of a path -/

section

variable {part path rest : List Char} {parts : List (List Char)}

theorem exists_cut_eq_cons (path : List Char) : ∃ part parts, cut path = part :: parts := by
  cases path with
  | nil => exact ⟨_, _, rfl⟩
  | cons c rest =>
    rw [cut]
    split
    · exact ⟨_, _, rfl⟩
    · split <;> exact ⟨_, _, rfl⟩

theorem cut_cons_of_ne {c : Char} (hc : c ≠ '/') (hcut : cut rest = part :: parts) :
    cut (c :: rest) = (c :: part) :: parts := by
  rw [cut, if_neg hc, hcut]

/-- Cutting at slashes is splitting at slashes. -/
theorem cut_eq_splitOn (path : List Char) : cut path = path.splitOn '/' := by
  induction path with
  | nil => rfl
  | cons c rest ih =>
    obtain ⟨part, parts, hcut⟩ := exists_cut_eq_cons rest
    rw [List.splitOn_cons_eq_if_modifyHead, ← ih, hcut]
    by_cases hc : c = '/'
    · simp [cut, hc, hcut]
    · simp [cut_cons_of_ne hc hcut, hc]

theorem slash_not_mem_of_mem_cut (hpart : part ∈ cut path) : '/' ∉ part := by
  induction path generalizing part with
  | nil =>
    rw [cut, List.mem_singleton] at hpart
    simp [hpart]
  | cons c rest ih =>
    by_cases hc : c = '/'
    · rw [cut, if_pos hc] at hpart
      rcases List.mem_cons.1 hpart with rfl | hrest
      · exact List.not_mem_nil
      · exact ih hrest
    · obtain ⟨first, parts, hcut⟩ := exists_cut_eq_cons rest
      rw [cut_cons_of_ne hc hcut] at hpart
      rcases List.mem_cons.1 hpart with rfl | hrest
      · have hfirst := ih (hcut ▸ List.mem_cons_self)
        simp [hfirst, Ne.symm hc]
      · exact ih (hcut ▸ List.mem_cons_of_mem _ hrest)

/-- What a path ends with, its last part ends with. -/
theorem exists_part_of_suffix {ending : List Char} (hending : '/' ∉ ending) (path : List Char) :
    ∃ part ∈ cut (path ++ ending), ending <:+ part := by
  induction path with
  | nil =>
    refine ⟨ending, ?_, List.suffix_refl _⟩
    rw [List.nil_append, cut_eq_splitOn, List.splitOn_eq_singleton hending]
    exact List.mem_singleton_self ending
  | cons c path ih =>
    obtain ⟨part, hpart, hsuffix⟩ := ih
    rw [List.cons_append]
    by_cases hc : c = '/'
    · rw [cut, if_pos hc]
      exact ⟨part, List.mem_cons_of_mem _ hpart, hsuffix⟩
    · obtain ⟨first, parts, hcut⟩ := exists_cut_eq_cons (path ++ ending)
      rw [cut_cons_of_ne hc hcut]
      rw [hcut] at hpart
      rcases List.mem_cons.1 hpart with rfl | hrest
      · exact ⟨c :: part, List.mem_cons_self, hsuffix.trans (List.suffix_cons c part)⟩
      · exact ⟨part, List.mem_cons_of_mem _ hrest, hsuffix⟩

end

/-! ### Tidy paths -/

/-- The part means something where it stands. -/
def Meaningful (part : List Char) : Prop := part ≠ [] ∧ part ≠ ['.']

instance (part : List Char) : Decidable (Meaningful part) := by
  unfold Meaningful
  infer_instance

/-- Every part of the path means something. -/
def Straight (path : List Char) : Prop := ∀ part ∈ cut path, Meaningful part

instance (path : List Char) : Decidable (Straight path) := by
  unfold Straight
  infer_instance

/-- The path without the parts that mean nothing. -/
def tidy (path : List Char) : List Char :=
  ['/'].intercalate ((cut path).filter fun part => Meaningful part)

/-- A path that means anything is tidy exactly if all of its parts mean something. -/
theorem tidy_eq_iff {path : List Char} (hsome : ∃ part ∈ cut path, Meaningful part) :
    tidy path = path ↔ Straight path := by
  constructor
  · intro heq part hpart
    have hne : (cut path).filter (fun part => Meaningful part) ≠ [] := by
      obtain ⟨p, hp, hmeaning⟩ := hsome
      exact List.ne_nil_of_mem (List.mem_filter.2 ⟨hp, decide_eq_true hmeaning⟩)
    have hcut : cut (tidy path) = (cut path).filter fun part => Meaningful part := by
      rw [cut_eq_splitOn (tidy path)]
      exact List.splitOn_intercalate _
        (fun q hq => slash_not_mem_of_mem_cut (List.mem_filter.1 hq).1) hne
    rw [heq] at hcut
    rw [hcut] at hpart
    exact of_decide_eq_true (List.mem_filter.1 hpart).2
  · intro hstraight
    have hall : (cut path).filter (fun part => Meaningful part) = cut path :=
      List.filter_eq_self.2 fun part hpart => decide_eq_true (hstraight part hpart)
    rw [tidy, hall, cut_eq_splitOn, List.intercalate_splitOn]

/-! ### What is written -/

section

variable {f g : Field} {text : List Char} {cs : List Component} {path : List Char}

theorem octets_append (l m : List Char) : octets (l ++ m) = octets l ++ octets m :=
  List.flatMap_append

theorem written_of_append (hf : f.Clean) (happend : append f text = .ok g) :
    g.Clean ∧ g.written = f.written ++ octets text := by
  rw [append] at happend
  cases hwrite : f.write (octets text) with
  | error why =>
    rw [hwrite] at happend
    cases happend
  | ok g' =>
    rw [hwrite] at happend
    cases happend
    exact hf.write hwrite

/-- One part more, behind a slash. -/
theorem intercalate_append_singleton {parts : List (List Char)} (hne : parts ≠ [])
    (part : List Char) :
    ['/'].intercalate (parts ++ [part]) = ['/'].intercalate parts ++ '/' :: part := by
  induction parts with
  | nil => exact absurd rfl hne
  | cons first parts ih =>
    cases parts with
    | nil => simp [List.intercalate_cons_cons]
    | cons next parts =>
      have hrest := ih (List.cons_ne_nil _ _)
      simp only [List.cons_append, List.intercalate_cons_cons, List.append_assoc] at hrest ⊢
      rw [hrest]

/-- The field holds these parts with slashes between them. -/
structure Holds (f : Field) (parts : List (List Char)) : Prop where
  clean : f.Clean
  written : f.written = octets (['/'].intercalate parts)
  named : ∀ part ∈ parts, part ≠ []

theorem holds_blank (size : Nat) : Holds (.blank size) [] :=
  ⟨Field.clean_blank size, rfl, fun _ hpart => absurd hpart List.not_mem_nil⟩

theorem octets_eq_nil_iff {text : List Char} : octets text = [] ↔ text = [] := by
  cases text with
  | nil => simp [octets]
  | cons c rest => simp [octets, String.utf8EncodeChar_ne_nil]

/-- Nothing has been written only if there is no part yet. -/
theorem Holds.isEmpty_iff {parts : List (List Char)} (h : Holds f parts) :
    f.written.isEmpty = true ↔ parts = [] := by
  rw [List.isEmpty_iff, h.written, octets_eq_nil_iff]
  constructor
  · intro hnone
    cases parts with
    | nil => rfl
    | cons part rest =>
      have hfirst := h.named part List.mem_cons_self
      cases rest with
      | nil => simp [hfirst] at hnone
      | cons next rest => simp [List.intercalate_cons_cons] at hnone
  · rintro rfl
    rfl

theorem Holds.appendComponent {parts : List (List Char)} (h : Holds f parts) (htext : text ≠ [])
    (happend : EntryPath.appendComponent f text = .ok g) : Holds g (parts ++ [text]) := by
  have hnamed : ∀ part ∈ parts ++ [text], part ≠ [] := by
    intro part hpart
    rcases List.mem_append.1 hpart with hold | hnew
    · exact h.named part hold
    · rwa [List.mem_singleton.1 hnew]
  unfold EntryPath.appendComponent at happend
  split at happend
  · next hempty =>
    obtain ⟨hg, hwritten⟩ := written_of_append h.clean happend
    refine ⟨hg, ?_, hnamed⟩
    rw [hwritten, List.isEmpty_iff.1 hempty, h.isEmpty_iff.1 hempty]
    simp
  · next hsome =>
    have hparts : parts ≠ [] := fun hnone => hsome (h.isEmpty_iff.2 hnone)
    cases hslash : append f ['/'] with
    | error r =>
      rw [hslash] at happend
      cases happend
    | ok g' =>
      rw [hslash] at happend
      obtain ⟨hg', hwritten'⟩ := written_of_append h.clean hslash
      obtain ⟨hg, hwritten⟩ := written_of_append hg' happend
      refine ⟨hg, ?_, hnamed⟩
      rw [hwritten, hwritten', h.written, intercalate_append_singleton hparts, List.append_assoc,
        ← octets_append, ← octets_append]
      rfl

/-- The name that a component stands for. -/
def Component.name? : Component → Option (List Char)
  | .normal name => some name
  | _ => none

/-- Placing components writes their names; a parent directory is not among them. -/
theorem Holds.place {only : Bool} {parts : List (List Char)} (h : Holds f parts)
    (honly : only = true → Component.current ∉ cs) (hnames : ∀ name, .normal name ∈ cs → name ≠ [])
    (hplace : EntryPath.place false only f cs = .ok g) :
    Holds g (parts ++ cs.filterMap Component.name?) ∧ Component.parent ∉ cs := by
  induction cs generalizing f parts with
  | nil =>
    cases hplace
    simpa using h
  | cons c cs ih =>
    have honly' : only = true → Component.current ∉ cs :=
      fun h' hmem => honly h' (List.mem_cons_of_mem _ hmem)
    have hnames' : ∀ name, Component.normal name ∈ cs → name ≠ [] :=
      fun name hmem => hnames name (List.mem_cons_of_mem _ hmem)
    cases c with
    | root => cases hplace
    | parent =>
      rw [EntryPath.place, Bool.false_and] at hplace
      cases hplace
    | current =>
      rw [EntryPath.place] at hplace
      split at hplace
      · next h' => exact absurd List.mem_cons_self (honly h')
      · obtain ⟨hholds, hparent⟩ := ih h honly' hnames' hplace
        exact ⟨hholds, by simp [hparent]⟩
    | normal name =>
      rw [EntryPath.place] at hplace
      cases hfirst : EntryPath.appendComponent f name with
      | error r =>
        rw [hfirst] at hplace
        cases hplace
      | ok g' =>
        rw [hfirst] at hplace
        obtain ⟨hholds, hparent⟩ :=
          ih (h.appendComponent (hnames name List.mem_cons_self) hfirst) honly' hnames' hplace
        rw [List.append_assoc] at hholds
        exact ⟨hholds, by simp [hparent]⟩

end

/-! ### The components of a path -/

section

variable {path : List Char} {f : Field} {size : Nat}

/-- The part is a name. -/
def IsName (part : List Char) : Prop := Meaningful part ∧ part ≠ ['.', '.']

instance (part : List Char) : Decidable (IsName part) := by
  unfold IsName
  infer_instance

theorem bind_name?_component? {first : Bool} {part : List Char} :
    (component? first part).bind Component.name? = if IsName part then some part else none := by
  unfold component?
  split
  · next h => simp [h, IsName, Meaningful]
  split
  · next h => cases first <;> simp [h, IsName, Meaningful, Component.name?]
  split
  · next h => simp [h, IsName, Component.name?]
  · next h₁ h₂ h₃ => simp [h₁, h₂, h₃, IsName, Meaningful, Component.name?]

/-- The names of a path are its parts that are names. -/
theorem names_components (path : List Char) :
    (components path).filterMap Component.name? = (cut path).filter fun part => IsName part := by
  obtain ⟨first, parts, hcut⟩ := exists_cut_eq_cons path
  have hroot : (if path.head? = some '/' then [Component.root] else []).filterMap
      Component.name? = [] := by
    split <;> rfl
  have hfirst : (component? true first).toList.filterMap Component.name? =
      [first].filter fun part => IsName part := by
    have htoList : ∀ o : Option Component,
        o.toList.filterMap Component.name? = (o.bind Component.name?).toList := by
      rintro (_ | c)
      · rfl
      · cases hname : c.name? <;> simp [hname]
    rw [htoList, bind_name?_component?]
    by_cases hname : IsName first <;> simp [hname]
  have hparts : (parts.filterMap (component? false)).filterMap Component.name? =
      parts.filter fun part => IsName part := by
    have hguard : (fun part => (component? false part).bind Component.name?) =
        Option.guard fun part => decide (IsName part) := by
      funext part
      rw [bind_name?_component?]
      simp [Option.guard]
    rw [List.filterMap_filterMap, hguard, List.filterMap_eq_filter]
  rw [components, hcut]
  dsimp only
  rw [List.filterMap_append, List.filterMap_append, hroot, hfirst, hparts, List.nil_append,
    ← List.filter_append, List.singleton_append]

/-- A component stands for a part, if it is not the slash at the beginning. -/
theorem exists_part_of_mem_components {c : Component} (hc : c ∈ components path) :
    c = .root ∨ ∃ first, ∃ part ∈ cut path, component? first part = some c := by
  obtain ⟨head, parts, hcut⟩ := exists_cut_eq_cons path
  rw [components, hcut] at hc
  rcases List.mem_append.1 hc with hc | hc
  · rcases List.mem_append.1 hc with hroot | hfirst
    · left
      split at hroot
      · exact List.mem_singleton.1 hroot
      · cases hroot
    · exact .inr ⟨true, head, hcut ▸ List.mem_cons_self, Option.mem_toList.1 hfirst⟩
  · obtain ⟨part, hpart, hsome⟩ := List.mem_filterMap.1 hc
    exact .inr ⟨false, part, hcut ▸ List.mem_cons_of_mem _ hpart, hsome⟩

/-- A part stands for a component wherever it stands. -/
theorem mem_components_of_part {c : Component} {part : List Char} (hpart : part ∈ cut path)
    (hsome : ∀ first, component? first part = some c) : c ∈ components path := by
  obtain ⟨head, parts, hcut⟩ := exists_cut_eq_cons path
  rw [components, hcut]
  rw [hcut] at hpart
  rcases List.mem_cons.1 hpart with rfl | hpart
  · exact List.mem_append_left _ (List.mem_append_right _ (Option.mem_toList.2 (hsome true)))
  · exact List.mem_append_right _ (List.mem_filterMap.2 ⟨part, hpart, hsome false⟩)

theorem component?_of_isName {part : List Char} (hpart : IsName part) (first : Bool) :
    component? first part = some (.normal part) := by
  rw [component?, if_neg hpart.1.1, if_neg hpart.1.2, if_neg hpart.2]

theorem name_ne_nil_of_mem_components {name : List Char} (hname : .normal name ∈ components path) :
    name ≠ [] := by
  rcases exists_part_of_mem_components hname with hroot | ⟨first, part, _, hsome⟩
  · cases hroot
  · have hbind : (component? first part).bind Component.name? =
        if IsName part then some part else none := bind_name?_component?
    rw [hsome, Option.bind_some] at hbind
    split at hbind
    · next hpart =>
      cases hbind
      exact hpart.1.1
    · cases hbind

/-- **The name in a header.**  A path that is written holds what is left when it is tidied up. -/
theorem content_of_write (hslash : path.getLast? ≠ some '/') (hname : ∃ part ∈ cut path, IsName part)
    (hwrite : write false (.blank size) path = .ok f) : f.content = octets (tidy path) := by
  obtain ⟨part, hpart, hisName⟩ := hname
  have hnormal : Component.normal part ∈ components path :=
    mem_components_of_part hpart (component?_of_isName hisName)
  have honly : ((components path).length == 1) = true → Component.current ∉ components path := by
    intro hone hcurrent
    obtain ⟨c, hc⟩ := List.length_eq_one_iff.1 (beq_iff_eq.1 hone)
    rw [hc, List.mem_singleton] at hnormal hcurrent
    rw [← hnormal] at hcurrent
    cases hcurrent
  unfold write at hwrite
  dsimp only at hwrite
  cases hplace : place false ((components path).length == 1) (.blank size) (components path) with
  | error r =>
    rw [hplace] at hwrite
    cases hwrite
  | ok g =>
    rw [hplace] at hwrite
    change (if g.written.isEmpty then Except.error _ else if path.getLast? = some '/' then append g _
      else Except.ok g) = Except.ok f at hwrite
    rw [if_neg hslash] at hwrite
    split at hwrite
    · cases hwrite
    cases hwrite
    obtain ⟨hholds, hparent⟩ := (holds_blank size).place honly
      (fun name hmem => name_ne_nil_of_mem_components hmem) hplace
    -- A path with a parent directory is not written, so all parts that mean something are names.
    have hfilter : (cut path).filter (fun part => IsName part) =
        (cut path).filter fun part => Meaningful part := by
      refine List.filter_congr fun q hq => decide_eq_decide.2 (and_iff_left ?_)
      rintro rfl
      exact hparent (mem_components_of_part hq fun first => by cases first <;> rfl)
    rw [hholds.clean.content_eq, hholds.written, List.nil_append, names_components, hfilter, tidy]

end

end EntryPath
end Landing
