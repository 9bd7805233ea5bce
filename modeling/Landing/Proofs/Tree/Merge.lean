import Landing.Proofs.Text.Octets
import Landing.Tree.Merge
import Mathlib.Data.List.Nodup
import Mathlib.Tactic.ByContra

/-!
# What a merge of trees is

Path by path, a merge takes the value of the side that differs from the base, or the
common value of both sides (`Tree.Settled`); the values clash when all three are
different.  `Tree.Merged` says this of whole trees, without a look at how they are
merged: there is at most one result that it allows (`Tree.Merged.unique`), and it makes
no difference between the sides (`Tree.Merged.symm`).

So what merging gives (`Tree.merged_merge`) is known as soon as a result is known that
is allowed, and this is how the laws of merging are proved (`Tree.merge_exact`).
-/

namespace Landing.Tree

/-! ### One path -/

section

variable {α : Type} {base ours theirs v v' : α}

/-- The value is what both sides agree on, or that of the one side where the other one has the base. -/
def Settled (base ours theirs v : α) : Prop :=
  ours = theirs ∧ v = ours ∨ theirs = base ∧ v = ours ∨ ours = base ∧ v = theirs

/-- All three values are different. -/
def Clash (base ours theirs : α) : Prop :=
  ours ≠ theirs ∧ theirs ≠ base ∧ ours ≠ base

theorem Settled.symm (h : Settled base ours theirs v) : Settled base theirs ours v := by
  rcases h with ⟨rfl, rfl⟩ | h | h
  · exact .inl ⟨rfl, rfl⟩
  · exact .inr (.inr h)
  · exact .inr (.inl h)

theorem Clash.symm (h : Clash base ours theirs) : Clash base theirs ours :=
  ⟨h.1.symm, h.2.2, h.2.1⟩

theorem Settled.not_clash (h : Settled base ours theirs v) : ¬ Clash base ours theirs := by
  rintro ⟨hsides, htheirs, hours⟩
  rcases h with ⟨heq, _⟩ | ⟨heq, _⟩ | ⟨heq, _⟩
  · exact hsides heq
  · exact htheirs heq
  · exact hours heq

/-- No two values are settled on. -/
theorem Settled.unique (h : Settled base ours theirs v) (h' : Settled base ours theirs v') :
    v = v' := by
  rcases h with ⟨hsame, hv⟩ | ⟨hsame, hv⟩ | ⟨hsame, hv⟩ <;>
    rcases h' with ⟨hsame', hv'⟩ | ⟨hsame', hv'⟩ | ⟨hsame', hv'⟩ <;>
    simp_all

end

variable {base ours theirs : Option String}

/-- A path that merges gets the value that is settled on. -/
theorem settled_of_mergeValue {v : Option String} (h : mergeValue base ours theirs = some v) :
    Settled base ours theirs v := by
  unfold mergeValue at h
  split at h
  · next hsame =>
    cases h
    exact hsame.imp (⟨·, rfl⟩) fun heq => .inl ⟨heq, rfl⟩
  · split at h
    · next heq =>
      cases h
      exact .inr (.inr ⟨heq, rfl⟩)
    · cases h

theorem mergeValue_eq_none_iff : mergeValue base ours theirs = none ↔ Clash base ours theirs := by
  unfold mergeValue Clash
  split
  · next hsame =>
    refine iff_of_false (by simp) ?_
    rintro ⟨hsides, htheirs, -⟩
    exact hsame.elim hsides htheirs
  · next hdiffer =>
    rw [not_or] at hdiffer
    simp [hdiffer]

/-! ### All paths -/

variable {b o t : Tree} {p : String} {r r' : Except (List String) Tree}

/-- What is allowed as the result of a merge. -/
inductive Merged (b o t : Tree) : Except (List String) Tree → Prop
  /-- Every path has the value that is settled on. -/
  | merges {tree : Tree} : (∀ p, Settled (b.get? p) (o.get? p) (t.get? p) (tree.get? p)) →
    Merged b o t (.ok tree)
  /-- The paths at which the trees clash are listed. -/
  | conflicts {paths : List String} : paths ≠ [] →
    (∀ p, p ∈ paths ↔ Clash (b.get? p) (o.get? p) (t.get? p)) →
    paths.Pairwise (compare · · = .lt) → Merged b o t (.error paths)

theorem Merged.symm (h : Merged b o t r) : Merged b t o r := by
  cases h with
  | merges hsettled => exact .merges fun p => (hsettled p).symm
  | conflicts hne hclash hascending =>
    refine .conflicts hne (fun p => ?_) hascending
    rw [hclash]
    exact ⟨.symm, .symm⟩

/-- Where some path clashes nothing else is allowed than to list the paths that do. -/
theorem Merged.unique (h : Merged b o t r) (h' : Merged b o t r') : r = r' := by
  -- A listed path clashes, so it is not settled.
  have hapart : ∀ {paths : List String}, paths ≠ [] →
      (∀ p, p ∈ paths ↔ Clash (b.get? p) (o.get? p) (t.get? p)) →
      ∀ {tree : Tree}, ¬ ∀ p, Settled (b.get? p) (o.get? p) (t.get? p) (tree.get? p) := by
    intro paths hne hclash tree hsettled
    obtain ⟨p, hp⟩ := List.exists_mem_of_ne_nil _ hne
    exact (hsettled p).not_clash ((hclash p).1 hp)
  cases h with
  | merges hsettled =>
    cases h' with
    | merges hsettled' =>
      exact congrArg Except.ok (Table.ext_get? fun p => (hsettled p).unique (hsettled' p))
    | conflicts hne hclash => exact absurd hsettled (hapart hne hclash)
  | conflicts hne hclash hascending =>
    cases h' with
    | merges hsettled => exact absurd hsettled (hapart hne hclash)
    | conflicts hne' hclash' hascending' =>
      refine congrArg Except.error (Table.eq_of_ascending_keys hascending hascending' fun p => ?_)
      rw [hclash, hclash']

/-! ### Merging -/

theorem mem_allPaths :
    p ∈ allPaths b o t ↔ b.get? p ≠ none ∨ o.get? p ≠ none ∨ t.get? p ≠ none := by
  have hkey : ∀ tree : Tree, p ∈ tree.keys ↔ tree.get? p ≠ none := by
    intro tree
    rw [Table.mem_keys, Option.ne_none_iff_exists']
  rw [allPaths, Table.mem_keys_ofList]
  simp [hkey]

theorem ascending_allPaths (b o t : Tree) : (allPaths b o t).Pairwise (compare · · = .lt) :=
  Table.ascending_keys _

/-- The trees clash at the listed paths. -/
theorem mem_conflicts :
    p ∈ conflicts b o t ↔ Clash (b.get? p) (o.get? p) (t.get? p) := by
  rw [conflicts, List.mem_filter, Option.isNone_iff_eq_none, mergeValue_eq_none_iff, mem_allPaths]
  refine and_iff_right_of_imp fun hclash => ?_
  -- A path that no tree has does not clash.
  by_contra! hnone
  exact hclash.1 (hnone.2.1.trans hnone.2.2.symm)

/-- A merged file is at a path where merging settles on a file. -/
theorem mem_mergedFiles {content : String} : (p, content) ∈ mergedFiles b o t ↔
    mergeValue (b.get? p) (o.get? p) (t.get? p) = some (some content) := by
  simp only [mergedFiles, List.mem_filterMap, Option.map_eq_some_iff, Option.join_eq_some_iff,
    Prod.mk.injEq]
  constructor
  · rintro ⟨_, _, _, hvalue, rfl, rfl⟩
    exact hvalue
  · intro hvalue
    refine ⟨p, mem_allPaths.2 ?_, content, hvalue, rfl, rfl⟩
    -- A path that no tree has gets no file.
    by_contra! hnone
    rw [hnone.1, hnone.2.1, hnone.2.2] at hvalue
    cases hvalue

/-- No path is listed twice among the merged files. -/
theorem nodup_mergedFiles (b o t : Tree) : ((mergedFiles b o t).map (·.1)).Nodup := by
  rw [mergedFiles, List.map_filterMap]
  refine List.Nodup.filterMap (fun p p' q hp hp' => ?_)
    (Table.nodup_of_ascending (ascending_allPaths b o t))
  simp only [Option.map_map, Option.mem_def, Option.map_eq_some_iff, Function.comp_apply] at hp hp'
  obtain ⟨_, _, rfl⟩ := hp
  obtain ⟨_, _, rfl⟩ := hp'
  rfl

/-- Merging gives what is allowed. -/
theorem merged_merge (b o t : Tree) : Merged b o t (merge b o t) := by
  have hvalue : ∀ p, mergeValue (b.get? p) (o.get? p) (t.get? p) = none ↔ p ∈ conflicts b o t :=
    fun p => mergeValue_eq_none_iff.trans mem_conflicts.symm
  unfold merge
  dsimp only
  split
  · next hnone =>
    rw [List.isEmpty_iff] at hnone
    refine .merges fun p => ?_
    cases hmerged : mergeValue (b.get? p) (o.get? p) (t.get? p) with
    | none =>
      rw [hvalue, hnone] at hmerged
      cases hmerged
    | some v =>
      have hfile : (Table.ofList (mergedFiles b o t)).get? p = v := by
        apply Option.ext
        intro content
        rw [Table.get?_ofList (nodup_mergedFiles b o t), mem_mergedFiles, hmerged,
          Option.some.injEq]
      rw [hfile]
      exact settled_of_mergeValue hmerged
  · next hsome =>
    refine .conflicts (fun hnil => hsome (List.isEmpty_iff.2 hnil)) (fun p => mem_conflicts) ?_
    exact (ascending_allPaths b o t).filter _

/-- **What a merge is.**  It fails exactly if the trees clash at some path, and then it lists the paths at
which they do, in the order of their octets.  Otherwise every path has the common value of the sides,
or the value of the side that differs from the base, where a missing file is a value as well.  So it
makes no difference which side is which, a side that is as the base gives way to the other one, and
two equal sides are merged to what they are. -/
theorem merge_exact (b o t : Tree) :
    ((∃ paths, merge b o t = .error paths) ↔ ∃ p, Clash (b.get? p) (o.get? p) (t.get? p)) ∧
    (∀ paths, merge b o t = .error paths →
      (∀ p, p ∈ paths ↔ Clash (b.get? p) (o.get? p) (t.get? p)) ∧
      paths.Pairwise fun p q => CommitId.octets p < CommitId.octets q) ∧
    (∀ tree, merge b o t = .ok tree → ∀ p,
      (o.get? p = t.get? p → tree.get? p = o.get? p) ∧
      (o.get? p ≠ b.get? p → tree.get? p = o.get? p) ∧
      (t.get? p ≠ b.get? p → tree.get? p = t.get? p)) ∧
    merge b o t = merge b t o ∧
    merge b o b = .ok o ∧ merge b b t = .ok t ∧ merge b o o = .ok o := by
  have hmerged := merged_merge b o t
  refine ⟨?_, fun paths hpaths => ?_, fun tree htree p => ?_, ?_, ?_, ?_, ?_⟩
  · constructor
    · rintro ⟨paths, hpaths⟩
      rw [hpaths] at hmerged
      cases hmerged with
      | conflicts hne hclash =>
        obtain ⟨p, hp⟩ := List.exists_mem_of_ne_nil _ hne
        exact ⟨p, (hclash p).1 hp⟩
    · rintro ⟨p, hclash⟩
      cases hmerge : merge b o t with
      | error paths => exact ⟨paths, rfl⟩
      | ok tree =>
        rw [hmerge] at hmerged
        cases hmerged with
        | merges hsettled => exact absurd hclash (hsettled p).not_clash
  · rw [hpaths] at hmerged
    cases hmerged with
    | conflicts _ hclash hascending =>
      exact ⟨hclash, hascending.imp fun hlt => Text.octets_lt_of_compare hlt⟩
  · rw [htree] at hmerged
    cases hmerged with
    | merges hsettled =>
      rcases hsettled p with ⟨hsides, hv⟩ | ⟨hbase, hv⟩ | ⟨hbase, hv⟩
      · exact ⟨fun _ => hv, fun _ => hv, fun _ => hv.trans hsides⟩
      · exact ⟨fun _ => hv, fun _ => hv, fun hne => absurd hbase hne⟩
      · exact ⟨fun hsides => hv.trans hsides.symm, fun hne => absurd hbase hne, fun _ => hv⟩
  · exact hmerged.unique (merged_merge b t o).symm
  · exact (merged_merge b o b).unique (.merges fun p => .inr (.inl ⟨rfl, rfl⟩))
  · exact (merged_merge b b t).unique (.merges fun p => .inr (.inr ⟨rfl, rfl⟩))
  · exact (merged_merge b o o).unique (.merges fun p => .inl ⟨rfl, rfl⟩)

end Landing.Tree
