import Landing.Json.Printer
import Landing.Json.Reader
import Mathlib.Data.List.DropRight

/-!
# Reading what was printed

A JSON value may be written in many layouts, which differ in the blanks between its
parts.  `Json.Layout` says what a layout of a value is, without saying where the
blanks stand, so it covers the compact and the indented layout alike
(`Json.Plain.layout_compact`, `Json.Plain.layout_indented`).

The reader takes every layout back to its value (`Json.ofChars?_of_layout`).  The
proof is an induction on the count that bounds the reader's calls, with one lemma
for each of its three functions; that twice the length of the text is enough is a
part of the statement.

Only plain values have layouts: those without a number that is not natural, and
without a string that denotes no text.
-/

namespace Landing.Json

/-- A value whose numbers are natural ones and whose strings denote texts. -/
inductive Plain : Json → Prop
  | null : Plain .null
  | bool (b : Bool) : Plain (.bool b)
  | nat (n : Nat) : Plain (.nat n)
  | string (s : String) : Plain (.string s)
  | array {items : List Json} : (∀ j ∈ items, Plain j) → Plain (.array items)
  | object {members : List (String × Json)} : (∀ m ∈ members, Plain m.2) →
    Plain (.object members)

/-- Characters that may stand between the parts of a text. -/
def Blank (cs : List Char) : Prop := ∀ c ∈ cs, isSpace c = true

mutual

/-- The characters write the value. -/
inductive Layout : Json → List Char → Prop
  | null : Layout .null (atom .null)
  | bool (b : Bool) : Layout (.bool b) (atom (.bool b))
  | nat (n : Nat) : Layout (.nat n) (digits n)
  | string (s : String) : Layout (.string s) (quote s)
  | emptyArray : Layout (.array []) ['[', ']']
  | array {items : List Json} {cs : List Char} : Items items cs → Layout (.array items) ('[' :: cs)
  | emptyObject : Layout (.object []) ['\x7b', '\x7d']
  | object {members : List (String × Json)} {cs : List Char} : Members members cs →
    Layout (.object members) ('\x7b' :: cs)

/-- The characters write one or more items, up to and with the closing bracket. -/
inductive Items : List Json → List Char → Prop
  | last {j : Json} {a cs b : List Char} : Blank a → Layout j cs → Blank b →
    Items [j] (a ++ cs ++ b ++ [']'])
  | more {j : Json} {items : List Json} {a cs b rest : List Char} : Blank a → Layout j cs →
    Blank b → Items items rest → Items (j :: items) (a ++ cs ++ b ++ ',' :: rest)

/-- The characters write one or more members, up to and with the closing brace. -/
inductive Members : List (String × Json) → List Char → Prop
  | last (name : String) {j : Json} {a b cs d : List Char} : Blank a → Blank b → Layout j cs →
    Blank d → Members [(name, j)] (a ++ quote name ++ ':' :: b ++ cs ++ d ++ ['\x7d'])
  | more (name : String) {j : Json} {members : List (String × Json)} {a b cs d rest : List Char} :
    Blank a → Blank b → Layout j cs → Blank d → Members members rest →
    Members ((name, j) :: members) (a ++ quote name ++ ':' :: b ++ cs ++ d ++ ',' :: rest)

end

/-! ### Blanks -/

theorem blank_nil : Blank [] := fun _ hc => absurd hc List.not_mem_nil

theorem blank_newLine (depth : Nat) : Blank (newLine depth) := by
  intro c hc
  rcases List.mem_cons.1 hc with rfl | hc
  · rfl
  · rw [List.eq_of_mem_replicate hc]
    rfl

/-- Blanks are skipped. -/
theorem skipSpace_append {a cs : List Char} (ha : Blank a) :
    skipSpace (a ++ cs) = skipSpace cs := by
  unfold skipSpace
  rw [List.dropWhile_append_of_pos ha]

/-- A character that is no blank is not skipped. -/
theorem skipSpace_cons {c : Char} {cs : List Char} (hc : isSpace c = false) :
    skipSpace (c :: cs) = c :: cs := by
  unfold skipSpace
  rw [List.dropWhile_cons_of_neg (by simp [hc])]

theorem skipSpace_skipSpace (cs : List Char) : skipSpace (skipSpace cs) = skipSpace cs := by
  unfold skipSpace
  exact List.dropWhile_idempotent isSpace cs

/-- Blanks before a value make no difference. -/
theorem value?_skipSpace (bound : Nat) (cs : List Char) :
    value? bound (skipSpace cs) = value? bound cs := by
  cases bound with
  | zero => rfl
  | succ bound => rw [value?, value?, skipSpace_skipSpace]

theorem items?_skipSpace (bound : Nat) (cs : List Char) :
    items? bound (skipSpace cs) = items? bound cs := by
  cases bound with
  | zero => rfl
  | succ bound => rw [items?, items?, value?_skipSpace]

theorem members?_skipSpace (bound : Nat) (cs : List Char) :
    members? bound (skipSpace cs) = members? bound cs := by
  cases bound with
  | zero => rfl
  | succ bound => rw [members?, members?, memberName?, memberName?, skipSpace_skipSpace]

/-! ### Strings -/

/-- A character that stands for itself between quotes. -/
theorem pieces?_char {c : Char} (hquote : c ≠ '"') (hslash : c ≠ '\\') (hcontrol : ¬ c.toNat < 0x20)
    (cs : List Char) :
    pieces? (c :: cs) = (pieces? cs).map fun r => (.char c :: r.1, r.2) := by
  rw [pieces?.eq_def]
  split
  · next heq => cases heq
  · next heq => exact absurd (List.cons.inj heq).1 hquote
  · next heq => exact absurd (List.cons.inj heq).1 hslash
  · next heq => exact absurd (List.cons.inj heq).1 hslash
  · next heq =>
    obtain ⟨rfl, rfl⟩ := List.cons.inj heq
    have hraw : (decide (c.toNat < 0x20) || decide (c = '\\')) = false := by simp [hcontrol, hslash]
    rw [hraw]
    cases pieces? cs with
    | none => rfl
    | some r => rfl

/-- A control character that is written by its code. -/
theorem pieces?_code {n : Nat} (hn : n < 0x20) (cs : List Char) :
    pieces? (['\\', 'u'] ++ Hex.write 4 n ++ cs) =
      (pieces? cs).map fun r => (.unit n :: r.1, r.2) := by
  have hvalue : Hex.value? (Hex.write 4 n) = some n :=
    Hex.value?_write 4 n (Nat.lt_trans hn (by decide))
  obtain ⟨a, b, c, d, hdigits⟩ : ∃ a b c d, Hex.write 4 n = [a, b, c, d] :=
    ⟨_, _, _, _, rfl⟩
  rw [hdigits] at hvalue ⊢
  show pieces? ('\\' :: 'u' :: a :: b :: c :: d :: cs) = _
  rw [pieces?, hvalue]
  cases pieces? cs with
  | none => rfl
  | some r => rfl

/-- A character that is written by a short escape. -/
theorem pieces?_short {e c : Char} (he : shortEscape? e = some c) (hu : e ≠ 'u') (cs : List Char) :
    pieces? ('\\' :: e :: cs) = (pieces? cs).map fun r => (.char c :: r.1, r.2) := by
  rw [pieces?.eq_def]
  split
  · next heq => cases heq
  · next heq => cases heq
  · next heq => exact absurd (List.cons.inj (List.cons.inj heq).2).1 hu
  · next heq =>
    obtain ⟨rfl, rfl⟩ := List.cons.inj (List.cons.inj heq).2
    rw [he]
    cases pieces? cs with
    | none => rfl
    | some r => rfl
  · next hno heq =>
    obtain ⟨rfl, rfl⟩ := List.cons.inj heq
    exact absurd rfl (hno e cs rfl)

/-- A character is written by a short escape, by its code, or as itself. -/
theorem escapeChar_cases (c : Char) :
    (∃ e, shortEscape? e = some c ∧ e ≠ 'u' ∧ escapeChar c = ['\\', e]) ∨
    (c.toNat < 0x20 ∧ escapeChar c = ['\\', 'u'] ++ Hex.write 4 c.toNat) ∨
    (c ≠ '"' ∧ c ≠ '\\' ∧ ¬ c.toNat < 0x20 ∧ escapeChar c = [c]) := by
  unfold escapeChar
  split_ifs with hquote hslash hfeed hreturn htab hback hform hcontrol
  · exact .inl ⟨'"', by rw [hquote]; rfl, by decide, rfl⟩
  · exact .inl ⟨'\\', by rw [hslash]; rfl, by decide, rfl⟩
  · exact .inl ⟨'n', by rw [hfeed]; rfl, by decide, rfl⟩
  · exact .inl ⟨'r', by rw [hreturn]; rfl, by decide, rfl⟩
  · exact .inl ⟨'t', by rw [htab]; rfl, by decide, rfl⟩
  · exact .inl ⟨'b', by rw [hback]; rfl, by decide, rfl⟩
  · exact .inl ⟨'f', by rw [hform]; rfl, by decide, rfl⟩
  · exact .inr (.inl ⟨hcontrol, rfl⟩)
  · exact .inr (.inr ⟨hquote, hslash, hcontrol, rfl⟩)

/-- No control character is half of a surrogate pair. -/
theorem text?_code {n : Nat} (hn : n < 0x20) (ps : List Piece) :
    text? (.unit n :: ps) = (text? ps).map (Char.ofNat n :: ·) := by
  have hhigh : isHighSurrogate n = false := by
    simp only [isHighSurrogate, Bool.and_eq_false_iff, decide_eq_false_iff_not]
    omega
  have hlow : isLowSurrogate n = false := by
    simp only [isLowSurrogate, Bool.and_eq_false_iff, decide_eq_false_iff_not]
    omega
  rw [text?.eq_def]
  simp [hhigh, hlow]

/-- Every character is read back from the way in which it is written. -/
theorem pieces?_escapeChar (c : Char) (cs : List Char) :
    ∃ p, pieces? (escapeChar c ++ cs) = (pieces? cs).map (fun r => (p :: r.1, r.2)) ∧
      ∀ ps, text? (p :: ps) = (text? ps).map (c :: ·) := by
  rcases escapeChar_cases c with ⟨e, he, hu, hescape⟩ | ⟨hcontrol, hescape⟩ |
    ⟨hquote, hslash, hcontrol, hescape⟩
  · rw [hescape]
    exact ⟨.char c, pieces?_short he hu cs, fun ps => rfl⟩
  · rw [hescape]
    refine ⟨.unit c.toNat, pieces?_code hcontrol cs, fun ps => ?_⟩
    rw [text?_code hcontrol, Char.ofNat_toNat]
  · rw [hescape]
    exact ⟨.char c, pieces?_char hquote hslash hcontrol cs, fun ps => rfl⟩

/-- The rest of a string is read up to and with its closing quote. -/
theorem pieces?_flatMap_escapeChar (cs rest : List Char) :
    ∃ ps, pieces? (cs.flatMap escapeChar ++ '"' :: rest) = some (ps, rest) ∧
      text? ps = some cs := by
  induction cs with
  | nil => exact ⟨[], rfl, rfl⟩
  | cons c cs ih =>
    obtain ⟨ps, hps, htext⟩ := ih
    obtain ⟨p, hp, hstep⟩ := pieces?_escapeChar c (cs.flatMap escapeChar ++ '"' :: rest)
    refine ⟨p :: ps, ?_, ?_⟩
    · rw [List.flatMap_cons, List.append_assoc, hp, hps]
      rfl
    · rw [hstep, htext]
      rfl

/-- A quoted text is read back. -/
theorem stringRest?_quote (s : String) (rest : List Char) :
    ∃ cs, quote s ++ rest = '"' :: cs ∧ stringRest? cs = some (some s, rest) := by
  obtain ⟨ps, hps, htext⟩ := pieces?_flatMap_escapeChar s.toList rest
  refine ⟨s.toList.flatMap escapeChar ++ '"' :: rest, by simp [quote], ?_⟩
  rw [stringRest?, hps]
  show some ((text? ps).map String.ofList, rest) = _
  rw [htext]
  simp

/-! ### Numbers -/

/-- What follows a number: nothing that would be taken for a part of it. -/
def Ends (rest : List Char) : Prop :=
  ∀ c, rest.head? = some c → isDigit c = false ∧ c ≠ '.' ∧ c ≠ 'e' ∧ c ≠ 'E'

theorem ends_nil : Ends [] := fun c hc => by cases hc

theorem ends_cons {c : Char} {rest : List Char}
    (hc : isDigit c = false ∧ c ≠ '.' ∧ c ≠ 'e' ∧ c ≠ 'E') : Ends (c :: rest) := by
  intro d hd
  cases hd
  exact hc

/-- Blanks end a number, and so does what ends one after them. -/
theorem Ends.append {a rest : List Char} (ha : Blank a) (hrest : Ends rest) : Ends (a ++ rest) := by
  cases a with
  | nil => exact hrest
  | cons c a =>
    refine ends_cons ?_
    have hc : isSpace c = true := ha c List.mem_cons_self
    simp only [isSpace, Bool.or_eq_true, decide_eq_true_eq] at hc
    rcases hc with ((rfl | rfl) | rfl) | rfl <;> decide

theorem isDigit_of_mem_digits {n : Nat} {c : Char} (hc : c ∈ digits n) : isDigit c = true := by
  have hdigit : c.isDigit = true := Nat.isDigit_of_mem_toDigits (by decide) (by decide) hc
  simpa [Char.isDigit, isDigit, Char.le_def] using hdigit

/-- A number starts with a digit, which is not a blank. -/
theorem exists_digits_eq_cons (n : Nat) :
    ∃ c cs, digits n = c :: cs ∧ isDigit c = true ∧ isSpace c = false := by
  obtain ⟨c, cs, hdigits⟩ : ∃ c cs, digits n = c :: cs :=
    List.exists_cons_of_ne_nil Nat.toDigits_ne_nil
  have hc : isDigit c = true := isDigit_of_mem_digits (n := n) (hdigits ▸ List.mem_cons_self)
  refine ⟨c, cs, hdigits, hc, ?_⟩
  simp only [isSpace, Bool.or_eq_false_iff, decide_eq_false_iff_not]
  refine ⟨⟨⟨?_, ?_⟩, ?_⟩, ?_⟩ <;> rintro rfl <;> cases hc

theorem decimalValue_digits (n : Nat) : decimalValue (digits n) = n := by
  calc decimalValue (digits n)
      = Nat.ofDigitChars 10 (digits n) 0 := by
        rw [Nat.ofDigitChars_eq_foldl, decimalValue]
        simp only [Nat.mul_comm]
        rfl
    _ = n := Nat.ofDigitChars_ten_toDigits

/-- Digits are read up to what ends the number. -/
theorem spanDigits_digits (n : Nat) {rest : List Char} (hrest : Ends rest) :
    spanDigits (digits n ++ rest) = (digits n, rest) := by
  have hall : ∀ c ∈ digits n, isDigit c = true := fun c hc => isDigit_of_mem_digits hc
  have hnone : rest.takeWhile isDigit = [] ∧ rest.dropWhile isDigit = rest := by
    cases rest with
    | nil => exact ⟨rfl, rfl⟩
    | cons c rest =>
      have hc : isDigit c = false := (hrest c rfl).1
      simp [hc]
  rw [spanDigits, List.takeWhile_append_of_pos hall, List.dropWhile_append_of_pos hall, hnone.1,
    hnone.2, List.append_nil]

/-- The first digit of a positive number is positive. -/
theorem head?_digits {n : Nat} (hn : n ≠ 0) : (digits n).head? ≠ some '0' := by
  induction n using Nat.strongRecOn with
  | ind n ih =>
    unfold digits
    rw [Nat.toDigits_eq_if (by decide)]
    split_ifs with hlt
    · have hdigit : ∀ m, m < 10 → m ≠ 0 → [Nat.digitChar m].head? ≠ some '0' := by decide
      exact hdigit n hlt hn
    · rw [List.head?_append_of_ne_nil _ Nat.toDigits_ne_nil]
      exact ih (n / 10) (Nat.div_lt_self (by omega) (by omega)) (by omega)

/-- The digits of a number have no superfluous zero in front. -/
theorem digits_ne_zero_cons (n : Nat) (d : Char) (ds : List Char) : digits n ≠ '0' :: d :: ds := by
  intro heq
  by_cases hn : n = 0
  · rw [hn] at heq
    cases heq
  · apply head?_digits hn
    rw [heq, List.head?_cons]

theorem wholePart?_digits (n : Nat) {rest : List Char} (hrest : Ends rest) :
    wholePart? (digits n ++ rest) = some (digits n, rest) := by
  rw [wholePart?, spanDigits_digits n hrest]
  split
  · next heq => exact absurd (Prod.mk.inj heq).1 Nat.toDigits_ne_nil
  · next heq => exact absurd (Prod.mk.inj heq).1 (digits_ne_zero_cons n _ _)
  · next heq =>
    obtain ⟨rfl, rfl⟩ := Prod.mk.inj heq
    rfl

theorem fraction?_of_ends {rest : List Char} (hrest : Ends rest) :
    fraction? rest = some ([], rest) := by
  rw [fraction?.eq_def]
  split
  · exact absurd rfl (hrest _ rfl).2.1
  · rfl

theorem exponent?_of_ends {rest : List Char} (hrest : Ends rest) :
    exponent? rest = some ([], rest) := by
  cases rest with
  | nil => rfl
  | cons c rest =>
    obtain ⟨-, -, he, hE⟩ := hrest c rfl
    simp [exponent?, he, hE]

theorem minus_digits (n : Nat) (rest : List Char) :
    minus (digits n ++ rest) = ([], digits n ++ rest) := by
  rw [minus.eq_def]
  split
  · next heq =>
    obtain ⟨c, cs, hdigits, hc, -⟩ := exists_digits_eq_cons n
    rw [hdigits] at heq
    cases heq
    cases hc
  · rfl

/-- A natural number is read back. -/
theorem number?_digits (n : Nat) {rest : List Char} (hrest : Ends rest) :
    number? (digits n ++ rest) = some (.nat n, rest) := by
  simp [number?, minus_digits, wholePart?_digits n hrest, fraction?_of_ends hrest,
    exponent?_of_ends hrest, decimalValue_digits]
/-! ### Values -/

theorem value?_nat (bound n : Nat) {rest : List Char} (hrest : Ends rest) :
    value? (bound + 1) (digits n ++ rest) = some (.nat n, rest) := by
  obtain ⟨c, cs, hdigits, hc, hspace⟩ := exists_digits_eq_cons n
  have hnumber := number?_digits n hrest
  rw [hdigits, List.cons_append] at hnumber ⊢
  rw [value?, skipSpace_cons hspace]
  -- A digit is the first character of no other value.
  split
  case h_7 => exact hnumber
  all_goals
    next heq =>
    obtain ⟨rfl, -⟩ := List.cons.inj heq
    cases hc

theorem value?_string (bound : Nat) (s : String) (rest : List Char) :
    value? (bound + 1) (quote s ++ rest) = some (.string s, rest) := by
  obtain ⟨cs, hquote, hrest⟩ := stringRest?_quote s rest
  rw [hquote, value?, skipSpace_cons (by decide)]
  simp [hrest]

theorem memberName?_quote {a : List Char} (ha : Blank a) (name : String) (rest : List Char) :
    memberName? (a ++ quote name ++ ':' :: rest) = some (some name, rest) := by
  obtain ⟨cs, hquote, hrest⟩ := stringRest?_quote name (':' :: rest)
  rw [memberName?, List.append_assoc, skipSpace_append ha, hquote, skipSpace_cons (by decide)]
  simp only [hrest]
  rw [skipSpace_cons (by decide)]
  rfl

/-- No value starts with a blank or with a closing bracket. -/
theorem Layout.head {j : Json} {cs : List Char} (h : Layout j cs) :
    ∃ c rest, cs = c :: rest ∧ isSpace c = false ∧ c ≠ ']' := by
  cases h
  case nat n =>
    obtain ⟨c, cs, hdigits, hc, hspace⟩ := exists_digits_eq_cons n
    refine ⟨c, cs, hdigits, hspace, ?_⟩
    rintro rfl
    cases hc
  case bool b => cases b <;> exact ⟨_, _, rfl, by decide, by decide⟩
  all_goals exact ⟨_, _, rfl, by decide, by decide⟩

/-- The items of an array do not start with its closing bracket. -/
theorem Items.skipSpace_ne {items : List Json} {cs : List Char} (h : Items items cs)
    (rest : List Char) : ∀ tail, skipSpace (cs ++ rest) ≠ ']' :: tail := by
  intro tail heq
  cases h
  case last ha hj hb =>
    obtain ⟨c, cs, rfl, hspace, hc⟩ := hj.head
    simp only [List.append_assoc, List.cons_append] at heq
    rw [skipSpace_append ha, skipSpace_cons hspace] at heq
    exact hc (List.cons.inj heq).1
  case more ha hj hb _ =>
    obtain ⟨c, cs, rfl, hspace, hc⟩ := hj.head
    simp only [List.append_assoc, List.cons_append] at heq
    rw [skipSpace_append ha, skipSpace_cons hspace] at heq
    exact hc (List.cons.inj heq).1

/-- The members of an object start with the quote of a name. -/
theorem Members.skipSpace_eq {members : List (String × Json)} {cs : List Char}
    (h : Members members cs) (rest : List Char) : ∃ tail, skipSpace (cs ++ rest) = '"' :: tail := by
  cases h
  case last ha _ _ _ =>
    simp only [List.append_assoc, skipSpace_append ha, quote, List.cons_append]
    exact ⟨_, skipSpace_cons (by decide)⟩
  case more ha _ _ _ _ =>
    simp only [List.append_assoc, skipSpace_append ha, quote, List.cons_append]
    exact ⟨_, skipSpace_cons (by decide)⟩

theorem value?_array {bound : Nat} {items : List Json} {cs rest : List Char}
    (h : Items items cs) (hread : items? bound (cs ++ rest) = some (items, rest)) :
    value? (bound + 1) ('[' :: cs ++ rest) = some (.array items, rest) := by
  rw [List.cons_append, value?, skipSpace_cons (by decide)]
  simp only
  split
  · next heq => exact absurd heq (h.skipSpace_ne rest _)
  · rw [items?_skipSpace, hread]

theorem value?_object {bound : Nat} {members : List (String × Json)} {cs rest : List Char}
    (h : Members members cs)
    (hread : members? bound (cs ++ rest) = some (some members, rest)) :
    value? (bound + 1) ('\x7b' :: cs ++ rest) = some (.object members, rest) := by
  obtain ⟨tail, htail⟩ := h.skipSpace_eq rest
  rw [List.cons_append, value?, skipSpace_cons (by decide)]
  simp only
  split
  · next heq => cases htail.symm.trans heq
  · rw [members?_skipSpace, hread]

/-- Blanks may stand in front of a value. -/
theorem value?_append {a : List Char} (ha : Blank a) (bound : Nat) (cs : List Char) :
    value? bound (a ++ cs) = value? bound cs := by
  rw [← value?_skipSpace, skipSpace_append ha, value?_skipSpace]

section Steps

variable {bound : Nat} {a b cs d rest : List Char} {j : Json} (ha : Blank a) (hb : Blank b)

include ha hb

/-- One item, with blanks around it, and the closing bracket. -/
theorem items?_last
    (hvalue : value? bound (cs ++ (b ++ ']' :: rest)) = some (j, b ++ ']' :: rest)) :
    items? (bound + 1) (a ++ cs ++ b ++ [']'] ++ rest) = some ([j], rest) := by
  simp only [List.append_assoc, List.singleton_append]
  rw [items?, value?_append ha, hvalue]
  simp only [skipSpace_append hb]
  rw [skipSpace_cons (by decide)]
  rfl

/-- One item, with blanks around it, and the items after its comma. -/
theorem items?_more {items : List Json} {more : List Char}
    (hvalue : value? bound (cs ++ (b ++ ',' :: (more ++ rest))) =
      some (j, b ++ ',' :: (more ++ rest)))
    (hmore : items? bound (more ++ rest) = some (items, rest)) :
    items? (bound + 1) (a ++ cs ++ b ++ ',' :: more ++ rest) = some (j :: items, rest) := by
  simp only [List.append_assoc, List.cons_append]
  rw [items?, value?_append ha, hvalue]
  simp only [skipSpace_append hb]
  rw [skipSpace_cons (by decide)]
  simp only [hmore]

/-- One member and the closing brace. -/
theorem members?_last (hd : Blank d) (name : String)
    (hvalue : value? bound (cs ++ (d ++ '\x7d' :: rest)) = some (j, d ++ '\x7d' :: rest)) :
    members? (bound + 1) (a ++ quote name ++ ':' :: b ++ cs ++ d ++ ['\x7d'] ++ rest) =
      some (some [(name, j)], rest) := by
  have hname := memberName?_quote ha name (b ++ (cs ++ (d ++ '\x7d' :: rest)))
  simp only [List.append_assoc, List.cons_append, List.nil_append] at hname ⊢
  rw [members?, hname]
  simp only [value?_append hb, hvalue, skipSpace_append hd]
  rw [skipSpace_cons (by decide)]
  rfl

/-- One member and the members after its comma. -/
theorem members?_more (hd : Blank d) (name : String) {members : List (String × Json)}
    {more : List Char}
    (hvalue : value? bound (cs ++ (d ++ ',' :: (more ++ rest))) =
      some (j, d ++ ',' :: (more ++ rest)))
    (hmore : members? bound (more ++ rest) = some (some members, rest)) :
    members? (bound + 1) (a ++ quote name ++ ':' :: b ++ cs ++ d ++ ',' :: more ++ rest) =
      some (some ((name, j) :: members), rest) := by
  have hname := memberName?_quote ha name (b ++ (cs ++ (d ++ ',' :: (more ++ rest))))
  simp only [List.append_assoc, List.cons_append] at hname ⊢
  rw [members?, hname]
  simp only [value?_append hb, hvalue, skipSpace_append hd]
  rw [skipSpace_cons (by decide)]
  simp only [hmore]
  rfl

end Steps

/-- With a count of its length, every layout of a value is read back, and so are the items and the
members inside it.  By induction on the count, which every call spends on a character. -/
theorem read_layout (bound : Nat) :
    (∀ {j : Json} {cs rest : List Char}, Layout j cs → Ends rest → cs.length ≤ bound →
      value? bound (cs ++ rest) = some (j, rest)) ∧
    (∀ {items : List Json} {cs rest : List Char}, Items items cs → cs.length ≤ bound →
      items? bound (cs ++ rest) = some (items, rest)) ∧
    (∀ {members : List (String × Json)} {cs rest : List Char}, Members members cs →
      cs.length ≤ bound → members? bound (cs ++ rest) = some (some members, rest)) := by
  induction bound with
  | zero =>
    refine ⟨?_, ?_, ?_⟩
    · intro j cs rest h _ hbound
      obtain ⟨c, cs, rfl, -, -⟩ := h.head
      simp at hbound
    · intro items cs rest h hbound
      cases h <;> simp at hbound
    · intro members cs rest h hbound
      cases h <;> simp at hbound
  | succ bound ih =>
    obtain ⟨ihValue, ihItems, ihMembers⟩ := ih
    have hbracket : ∀ rest, Ends (']' :: rest) := fun rest => ends_cons (by decide)
    have hbrace : ∀ rest, Ends ('\x7d' :: rest) := fun rest => ends_cons (by decide)
    have hcomma : ∀ rest, Ends (',' :: rest) := fun rest => ends_cons (by decide)
    refine ⟨?_, ?_, ?_⟩
    · intro j cs rest h hrest hbound
      cases h
      case null => rfl
      case bool b => cases b <;> rfl
      case nat n => exact value?_nat bound n hrest
      case string s => exact value?_string bound s rest
      case emptyArray => rfl
      case emptyObject => rfl
      case array cs h =>
        exact value?_array h (ihItems h (Nat.le_of_succ_le_succ hbound))
      case object cs h =>
        exact value?_object h (ihMembers h (Nat.le_of_succ_le_succ hbound))
    · intro items cs rest h hbound
      cases h
      case last ha hj hb =>
        simp at hbound
        exact items?_last ha hb (ihValue hj ((hbracket rest).append hb) (by omega))
      case more ha hj hb hmore =>
        simp at hbound
        exact items?_more ha hb (ihValue hj ((hcomma _).append hb) (by omega))
          (ihItems hmore (by omega))
    · intro members cs rest h hbound
      cases h
      case last name _ _ _ _ _ ha hb hj hd =>
        simp at hbound
        exact members?_last ha hb hd name (ihValue hj ((hbrace rest).append hd) (by omega))
      case more name _ _ _ _ _ _ _ ha hb hj hd hmore =>
        simp at hbound
        exact members?_more ha hb hd name (ihValue hj ((hcomma _).append hd) (by omega))
          (ihMembers hmore (by omega))

/-- Every layout of a value is read as that value. -/
theorem ofChars?_of_layout {j : Json} {cs : List Char} (h : Layout j cs) :
    ofChars? cs = some j := by
  have hread := (read_layout (2 * cs.length + 2)).1 h ends_nil (by omega)
  rw [List.append_nil] at hread
  rw [ofChars?, hread]
  rfl

/-! ### The printed layouts -/

theorem items_indentedItems {depth : Nat} {items : List Json} (hne : items ≠ [])
    (h : ∀ j ∈ items, Layout j (indented (depth + 1) j)) :
    Items items (indentedItems depth items) := by
  induction items with
  | nil => exact absurd rfl hne
  | cons j rest ih =>
    have hj : Layout j (indented (depth + 1) j) := h j List.mem_cons_self
    cases rest with
    | nil =>
      rw [indentedItems]
      exact .last (blank_newLine _) hj (blank_newLine _)
    | cons next rest =>
      have hrest := ih (List.cons_ne_nil _ _) fun j hmem => h j (List.mem_cons_of_mem _ hmem)
      rw [indentedItems, ← List.append_nil (newLine (depth + 1) ++ _)]
      exact .more (blank_newLine _) hj blank_nil hrest

theorem members_indentedMembers {depth : Nat} {members : List (String × Json)} (hne : members ≠ [])
    (h : ∀ m ∈ members, Layout m.2 (indented (depth + 1) m.2)) :
    Members members (indentedMembers depth members) := by
  have hspace : Blank [' '] := by
    intro c hc
    rw [List.mem_singleton.1 hc]
    rfl
  induction members with
  | nil => exact absurd rfl hne
  | cons m rest ih =>
    obtain ⟨name, j⟩ := m
    have hj : Layout j (indented (depth + 1) j) := h _ List.mem_cons_self
    cases rest with
    | nil =>
      rw [indentedMembers]
      have hlast := Members.last name (blank_newLine (depth + 1)) hspace hj (blank_newLine depth)
      simpa using hlast
    | cons next rest =>
      have hrest := ih (List.cons_ne_nil _ _) fun m hmem => h m (List.mem_cons_of_mem _ hmem)
      rw [indentedMembers]
      have hmore := Members.more name (blank_newLine (depth + 1)) hspace hj blank_nil hrest
      simpa using hmore

/-- The indented layout is a layout. -/
theorem Plain.layout_indented {j : Json} (h : Plain j) (depth : Nat) :
    Layout j (indented depth j) := by
  induction h generalizing depth with
  | null => exact .null
  | bool b => rw [indented]; exact .bool b
  | nat n => rw [indented]; exact .nat n
  | string s => rw [indented]; exact .string s
  | @array items _ ih =>
    cases items with
    | nil => rw [indented]; exact .emptyArray
    | cons j rest =>
      rw [indented]
      exact .array (items_indentedItems (List.cons_ne_nil _ _) fun j hj => ih j hj (depth + 1))
  | @object members _ ih =>
    cases members with
    | nil => rw [indented]; exact .emptyObject
    | cons m rest =>
      rw [indented]
      exact .object (members_indentedMembers (List.cons_ne_nil _ _) fun m hm => ih m hm (depth + 1))

theorem items_compactItems {items : List Json} (hne : items ≠ [])
    (h : ∀ j ∈ items, Layout j (compact j)) : Items items (compactItems items) := by
  induction items with
  | nil => exact absurd rfl hne
  | cons j rest ih =>
    have hj : Layout j (compact j) := h j List.mem_cons_self
    cases rest with
    | nil =>
      rw [compactItems]
      simpa using Items.last blank_nil hj blank_nil
    | cons next rest =>
      have hrest := ih (List.cons_ne_nil _ _) fun j hmem => h j (List.mem_cons_of_mem _ hmem)
      rw [compactItems]
      simpa using Items.more blank_nil hj blank_nil hrest

theorem members_compactMembers {members : List (String × Json)} (hne : members ≠ [])
    (h : ∀ m ∈ members, Layout m.2 (compact m.2)) : Members members (compactMembers members) := by
  induction members with
  | nil => exact absurd rfl hne
  | cons m rest ih =>
    obtain ⟨name, j⟩ := m
    have hj : Layout j (compact j) := h _ List.mem_cons_self
    cases rest with
    | nil =>
      rw [compactMembers]
      simpa using Members.last name blank_nil blank_nil hj blank_nil
    | cons next rest =>
      have hrest := ih (List.cons_ne_nil _ _) fun m hmem => h m (List.mem_cons_of_mem _ hmem)
      rw [compactMembers]
      simpa using Members.more name blank_nil blank_nil hj blank_nil hrest

/-- The compact layout is a layout. -/
theorem Plain.layout_compact {j : Json} (h : Plain j) : Layout j (compact j) := by
  induction h with
  | null => exact .null
  | bool b => rw [compact]; exact .bool b
  | nat n => rw [compact]; exact .nat n
  | string s => rw [compact]; exact .string s
  | @array items _ ih =>
    rw [compact]
    cases items with
    | nil => rw [compactItems]; exact .emptyArray
    | cons j rest => exact .array (items_compactItems (List.cons_ne_nil _ _) ih)
  | @object members _ ih =>
    rw [compact]
    cases members with
    | nil => rw [compactMembers]; exact .emptyObject
    | cons m rest => exact .object (members_compactMembers (List.cons_ne_nil _ _) ih)

/-- What is printed in the indented layout is read back. -/
theorem Plain.ofText?_toIndentedText {j : Json} (h : Plain j) :
    ofText? j.toIndentedText = some j := by
  rw [ofText?, toIndentedText, String.toList_ofList]
  exact ofChars?_of_layout (h.layout_indented 0)

/-- What is printed in the compact layout is read back. -/
theorem Plain.ofText?_toText {j : Json} (h : Plain j) : ofText? j.toText = some j := by
  rw [ofText?, toText, String.toList_ofList]
  exact ofChars?_of_layout h.layout_compact

end Landing.Json
