import Landing.Submission.BranchPlan
import Mathlib.Tactic.Common

/-!
# What a merge commit says of its changes

The message of a merge commit is read line by line.  For a single change it is one line,
which quotes the subject.  For several changes the numbers stand on the first line, with
commas between them, and every subject has a line of its own further down
(`tellsOf_mergeMessage`).  That is so whatever the subjects are, for a subject is a line
itself (`Commit.newline_not_mem_subject`).
-/

namespace Landing

/-! ### Subjects are lines -/

/-- There is no line end in the first line of a text. -/
theorem Text.newline_not_mem_firstLine (s : String) : '\n' ∉ (firstLine s).toList := by
  have hline : '\n' ∉ s.toList.takeWhile (· ≠ '\n') := by
    intro hmem
    simpa using List.all_eq_true.1 List.all_takeWhile '\n' hmem
  rw [firstLine, String.toList_ofList]
  split
  · exact hline
  · unfold dropFinalReturn
    split
    · exact fun hmem => hline (List.dropLast_subset _ hmem)
    · exact hline

theorem Commit.newline_not_mem_subject (c : Commit) : '\n' ∉ c.subject.toList :=
  Text.newline_not_mem_firstLine c.message

/-! ### Messages -/

/-- The message tells of the changes with these numbers and subjects.  Of a single one it quotes the
subject.  Of several ones it lists the numbers on its first line, and the subjects on lines of their
own, in the same order. -/
structure TellsOf (listed : List (ChangeId × String)) (message : String) : Prop where
  single : ∀ id subject, listed = [(id, subject)] → message = "Merge \"" ++ subject ++ "\""
  several : 2 ≤ listed.length → ∃ numbers : List Char,
    message.toList.splitOn '\n' =
      ("Merge changes ".toList ++ numbers) :: [] :: "* changes:".toList ::
        listed.map (fun e => "  ".toList ++ e.2.toList) ∧
    numbers.splitOn ',' = listed.map fun e => (toString e.1.toNat).toList

/-- The numeral of a number is made of digits. -/
theorem isDigit_of_mem_toString {n : Nat} {c : Char} (hc : c ∈ (toString n).toList) :
    c.isDigit = true := by
  have hdigits : (toString n).toList = Nat.toDigits 10 n := String.toList_ofList
  rw [hdigits] at hc
  exact Nat.isDigit_of_mem_toDigits (by decide) (by decide) hc

/-- Parts with something between them are the first part and the others, each with it in front. -/
theorem intercalate_cons_eq_flatMap {α : Type} (x : α) (first : List α) (rest : List (List α)) :
    [x].intercalate (first :: rest) = first ++ rest.flatMap (x :: ·) := by
  induction rest generalizing first with
  | nil => simp [List.intercalate]
  | cons second rest ih =>
    rw [List.intercalate_cons_cons, ih, List.flatMap_cons, List.append_assoc]
    rfl

variable {listed : List (ChangeId × String)}

/-- The numbers of changes, as a message lists them. -/
def numerals (listed : List (ChangeId × String)) : List Char :=
  (Text.join "," (listed.map fun e => toString e.1.toNat)).toList

theorem numerals_eq_intercalate (listed : List (ChangeId × String)) :
    numerals listed = [','].intercalate (listed.map fun e => (toString e.1.toNat).toList) := by
  rw [numerals, Text.join, String.toList_intercalate, List.map_map]
  rfl

theorem newline_not_mem_numerals (listed : List (ChangeId × String)) : '\n' ∉ numerals listed := by
  rw [numerals_eq_intercalate]
  cases listed with
  | nil => simp
  | cons e rest =>
    rw [List.map_cons, intercalate_cons_eq_flatMap, List.flatMap_map]
    intro hmem
    rcases List.mem_append.1 hmem with hfirst | hlater
    · exact absurd (isDigit_of_mem_toString hfirst) (by decide)
    · obtain ⟨e', _, hmem'⟩ := List.mem_flatMap.1 hlater
      rcases List.mem_cons.1 hmem' with heq | hdigit
      · exact absurd heq (by decide)
      · exact absurd (isDigit_of_mem_toString hdigit) (by decide)

/-- The message for several changes, line by line. -/
theorem toList_mergeMessage (hlength : 2 ≤ listed.length) :
    (mergeMessage listed).toList = ['\n'].intercalate
      (("Merge changes ".toList ++ numerals listed) :: [] :: "* changes:".toList ::
        listed.map fun e => "  ".toList ++ e.2.toList) := by
  have hmessage : mergeMessage listed =
      "Merge changes " ++ Text.join "," (listed.map fun e => toString e.1.toNat) ++
        "\n\n* changes:" ++ String.join (listed.map fun e => "\n  " ++ e.2) := by
    match listed, hlength with
    | _ :: _ :: _, _ => rfl
  rw [hmessage, intercalate_cons_eq_flatMap, numerals]
  simp [String.toList_join, List.flatMap_map]

/-- **A merge commit tells of its changes**: it quotes the subject of a single one, and lists the
numbers and subjects of several. -/
theorem tellsOf_mergeMessage (hlines : ∀ e ∈ listed, '\n' ∉ e.2.toList) :
    TellsOf listed (mergeMessage listed) where
  single id subject heq := by rw [heq, mergeMessage]
  several hlength := by
    refine ⟨numerals listed, ?_, ?_⟩
    · rw [toList_mergeMessage hlength, List.splitOn_intercalate _ ?_ (List.cons_ne_nil _ _)]
      intro line hline
      simp only [List.mem_cons, List.mem_map] at hline
      rcases hline with rfl | rfl | rfl | ⟨e, he, rfl⟩
      · simp [newline_not_mem_numerals]
      · exact List.not_mem_nil
      · decide
      · simpa using hlines e he
    · rw [numerals_eq_intercalate, List.splitOn_intercalate]
      · intro numeral hnumeral hcomma
        obtain ⟨e, _, rfl⟩ := List.mem_map.1 hnumeral
        exact absurd (isDigit_of_mem_toString hcomma) (by decide)
      · intro hnil
        rw [List.map_eq_nil_iff.1 hnil] at hlength
        exact absurd hlength (by decide)

/-- Two changes, told of line by line. -/
example : mergeMessage [(1, "x"), (20, "y, z")] = "Merge changes 1,20\n\n* changes:\n  x\n  y, z" := by
  decide +kernel

end Landing
