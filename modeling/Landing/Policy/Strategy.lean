import Landing.Text.Blank
import Landing.Text.Layout

/-!
# Strategies

How a branch takes its changes.  A strategy is named by three words with hyphens
between them; a person may also write underscores, capitals and blanks around it
(`Strategy.ofLooseText?`).
-/

namespace Landing

/-- How a branch takes its changes. -/
inductive Strategy where
  /-- Refuse everything that needs a merge. -/
  | fastForwardOnly
  /-- Fast-forward where possible, and merge otherwise. -/
  | mergeIfNecessary
  /-- Merge even where a fast-forward is possible. -/
  | mergeAlways
  deriving DecidableEq

namespace Strategy

def text : Strategy → String
  | fastForwardOnly => "fast-forward-only"
  | mergeIfNecessary => "merge-if-necessary"
  | mergeAlways => "merge-always"

/-- The strategy with exactly this name. -/
def ofText? : String → Option Strategy
  | "fast-forward-only" => some fastForwardOnly
  | "merge-if-necessary" => some mergeIfNecessary
  | "merge-always" => some mergeAlways
  | _ => none

/-- The strategy that a person may have meant. -/
def ofLooseText? (s : String) : Option Strategy :=
  ofText? (Text.replaceChar '_' '-' (Text.trim s).toLower)

theorem ofText?_text (s : Strategy) : ofText? s.text = some s := by cases s <;> rfl

end Strategy

end Landing
