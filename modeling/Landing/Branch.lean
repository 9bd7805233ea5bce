import Landing.Json.Record

/-!
# Branches

A branch belongs to a project and has a fully qualified name.  Names are given
short or in full; `Branch.named` makes them full, and giving the full name again
changes nothing (`named_named`).  Branches are ordered by project, then name.
-/

namespace Landing

abbrev ProjectName := String

/-- A branch of a project, under its fully qualified name. -/
structure Branch where
  project : ProjectName
  name : String
  deriving DecidableEq

namespace Branch

instance : Ord Branch := ⟨compareLex (compareOn Branch.project) (compareOn Branch.name)⟩
instance : Std.TransOrd Branch :=
  inferInstanceAs (Std.TransCmp (compareLex (compareOn Branch.project) (compareOn Branch.name)))
instance : Std.LawfulEqOrd Branch where
  eq_of_compare {a b} h := by
    have hc : compareLex (compareOn Branch.project) (compareOn Branch.name) a b = .eq := h
    rw [compareLex_eq_eq] at hc
    have hp : compare a.project b.project = .eq := hc.1
    have hn : compare a.name b.name = .eq := hc.2
    have hp := Std.LawfulEqCmp.eq_of_compare hp
    have hn := Std.LawfulEqCmp.eq_of_compare hn
    cases a; cases b
    simp_all

/-- What every fully qualified name starts with. -/
def qualifier : List Char := ['r', 'e', 'f', 's', '/']

/-- What the full name of a branch given by its short name starts with. -/
def headsQualifier : List Char := qualifier ++ ['h', 'e', 'a', 'd', 's', '/']

/-- The full name for a short or full name. -/
def qualify (name : String) : String :=
  if qualifier.isPrefixOf name.toList then name
  else String.ofList (headsQualifier ++ name.toList)

/-- The branch with a short or full name. -/
def named (project : ProjectName) (name : String) : Branch := ⟨project, qualify name⟩

/-- The name without the part that short names leave out. -/
def short (b : Branch) : String :=
  if headsQualifier.isPrefixOf b.name.toList then
    String.ofList (b.name.toList.drop headsQualifier.length)
  else b.name

/-- Project and full name. -/
def text (b : Branch) : String := b.project ++ ":" ++ b.name

/-- The branch has a full name. -/
def IsQualified (b : Branch) : Prop := qualify b.name = b.name

instance (b : Branch) : Decidable b.IsQualified := inferInstanceAs (Decidable (_ = _))

theorem qualify_qualify (name : String) : qualify (qualify name) = qualify name := by
  unfold qualify
  split
  · rename_i h
    simp
  · rw [if_pos]
    simp [headsQualifier, qualifier]

theorem named_named (project : ProjectName) (name : String) :
    named project (named project name).name = named project name := by
  simp [named, qualify_qualify]

def toJson (b : Branch) : Json :=
  .object [("project", .string b.project), ("branch", .string b.name)]

/-- Read a branch; its name is taken as it stands. -/
def ofJson? (j : Json) : Option Branch := do
  let r ← Json.Fields.ofJson? ["project", "branch"] j
  let project ← r.required "project" Json.string?
  let name ← r.required "branch" Json.string?
  some ⟨project, name⟩

end Branch

end Landing
