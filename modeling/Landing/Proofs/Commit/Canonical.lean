import Landing.Commit
import Landing.Proofs.Json.Record

/-!
# Commits are named by their content

The name of a commit is the digest of its draft's canonical text.  The text can be
read back (`Draft.read_canonical`): the escapes of the strings and the brackets of
the lists and of the objects leave one way to take it apart.  So no choice of paths,
contents, names or messages imitates the text of other content, and the only way for
two drafts to share a name is a collision of the digest
(`Draft.canonical_injective_up_to_digest`).
-/

namespace Landing

namespace CommitId

/-- A text is determined by its octets. -/
theorem octets_injective : Function.Injective octets := by
  intro s t h
  exact String.toByteArray_inj.1 (ByteArray.ext (Array.ext' h))

end CommitId

namespace Draft

/-- Two drafts that agree part by part, with the tree as a map from paths to contents. -/
structure SameContent (d d' : Draft) : Prop where
  parents : d.parents = d'.parents
  tree : ∀ path, d.tree.get? path = d'.tree.get? path
  author : d.author.name = d'.author.name ∧ d.author.email = d'.author.email
  committer : d.committer.name = d'.committer.name ∧ d.committer.email = d'.committer.email
  message : d.message = d'.message

/-- The parts are all that there is to a draft. -/
theorem sameContent_iff {d d' : Draft} : d.SameContent d' ↔ d = d' := by
  constructor
  · intro h
    have htree : d.tree = d'.tree := Table.ext_get? h.tree
    have hauthor : d.author = d'.author := by
      rw [Signature.mk.injEq d.author.name]
      exact h.author
    have hcommitter : d.committer = d'.committer := by
      rw [Signature.mk.injEq d.committer.name]
      exact h.committer
    rw [Draft.mk.injEq d.parents]
    exact ⟨h.parents, htree, hauthor, hcommitter, h.message⟩
  · rintro rfl
    exact ⟨rfl, fun _ => rfl, ⟨rfl, rfl⟩, ⟨rfl, rfl⟩, rfl⟩

/-- The canonical text is read back. -/
theorem read_canonical (d : Draft) : (Json.ofText? d.canonical).bind ofJson? = some d := by
  rw [canonical, (roundTrip.plain d).ofText?_toText, Option.bind_some, roundTrip.read_write]

theorem canonical_injective : Function.Injective canonical := by
  intro d d' h
  have hread := d.read_canonical
  rw [h, d'.read_canonical] at hread
  exact (Option.some.inj hread).symm

/-- The octets that are digested determine the draft. -/
theorem octets_canonical_inj {d d' : Draft} :
    CommitId.octets d.canonical = CommitId.octets d'.canonical ↔ d = d' :=
  (CommitId.octets_injective.comp canonical_injective).eq_iff

/-- Drafts have the same canonical text exactly when they have the same content, and a
name is shared only by the same content or where two different lists of octets have one
digest. -/
theorem canonical_injective_up_to_digest (d d' : Draft) :
    (d.canonical = d'.canonical ↔ d.SameContent d') ∧
    (d.id = d'.id ↔ d.SameContent d' ∨
      CommitId.octets d.canonical ≠ CommitId.octets d'.canonical ∧
        Sha256.digest (CommitId.octets d.canonical) =
          Sha256.digest (CommitId.octets d'.canonical)) := by
  have hid : d.id = d'.id ↔ Sha256.digest (CommitId.octets d.canonical) =
      Sha256.digest (CommitId.octets d'.canonical) := by
    rw [id, id, CommitId.ofContent, CommitId.ofContent, CommitId.mk.injEq]
  refine ⟨canonical_injective.eq_iff.trans sameContent_iff.symm, ?_⟩
  rw [sameContent_iff, hid, ne_eq, octets_canonical_inj]
  constructor
  · intro hdigest
    exact (em (d = d')).imp_right fun hne => ⟨hne, hdigest⟩
  · rintro (rfl | ⟨-, hdigest⟩)
    · rfl
    · exact hdigest

end Draft

end Landing
