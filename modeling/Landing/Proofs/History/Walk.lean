import Landing.Proofs.History.Faithful
import Mathlib.Data.List.TakeWhile

/-!
# What a walk finds

The one breadth-first walk behind all questions about ancestry is described by an
invariant, `History.Trail.Inv`: every commit met comes from a start by entered
commits, and every parent of an entered commit has been met or is waiting.  Each
visit keeps the invariant, so a walk that ends without stopping has met
everything that it should (`World.yields_walkFrom`).

From this follow the answers to the questions in use.

* `World.yields_isAccepted`: exactly the commits that some branch leads to are
  accepted.
* `World.yields_unacceptedAncestry`: the ancestry listed is exactly what is
  behind the starts and not accepted, and everything behind them is known.
* `World.yields_isAncestor_exact`: a commit is said to lead to another exactly when it
  does.
-/

namespace Landing

open World

namespace History

variable {starts queue : List CommitId} {t : Trail} {x y : CommitId}
variable {P : CommitId → Visit → Prop} {Q : CommitId → List CommitId → Prop}

/-- A start, or a parent of an entered commit that was met.  `P` tells what may be done at a commit,
and `Q` which parents it may have. -/
inductive Met (starts : List CommitId) (P : CommitId → Visit → Prop)
    (Q : CommitId → List CommitId → Prop) : CommitId → Prop
  | start {x : CommitId} : x ∈ starts → Met starts P Q x
  | parent {x y : CommitId} {ps : List CommitId} :
    Met starts P Q x → P x .enter → Q x ps → y ∈ ps → Met starts P Q y

/-- What holds between two visits of a walk. -/
structure Trail.Inv (starts : List CommitId) (P : CommitId → Visit → Prop)
    (Q : CommitId → List CommitId → Prop) (t : Trail) (queue : List CommitId) : Prop where
  begun : ∀ s ∈ starts, s ∈ t.seen ∨ s ∈ queue
  met : ∀ x, x ∈ t.seen ∨ x ∈ queue → Met starts P Q x
  passed : ∀ x ∈ t.seen, x ∈ t.entered ∨ P x .pass
  entered : ∀ x ∈ t.entered, x ∈ t.seen ∧ P x .enter ∧
    ∃ ps, Q x ps ∧ ∀ y ∈ ps, y ∈ t.seen ∨ y ∈ queue

theorem Trail.inv_start : Trail.start.Inv starts P Q starts where
  begun _ hs := .inr hs
  met _ hx := .start (hx.resolve_left (by simp [start]))
  passed _ hx := absurd hx (by simp [start])
  entered _ hx := absurd hx (by simp [start])

/-- What waits in a queue is met already or pending. -/
theorem Trail.seen_or_pending (hx : x ∈ t.seen ∨ x ∈ queue) :
    x ∈ t.seen ∨ x ∈ t.pending queue := by
  rcases hx with hseen | hqueue
  · exact .inl hseen
  · rw [← List.takeWhile_append_dropWhile (p := fun c => t.seen.contains c) (l := queue)] at hqueue
    rcases List.mem_append.1 hqueue with hdropped | hpending
    · exact .inl (by simpa using List.mem_takeWhile_imp hdropped)
    · exact .inr hpending

/-- Commits that were met already may be taken off the queue. -/
theorem Trail.Inv.pending (hinv : t.Inv starts P Q queue) :
    t.Inv starts P Q (t.pending queue) where
  begun s hs := seen_or_pending (hinv.begun s hs)
  met x hx := hinv.met x (hx.imp_right fun hq => (List.dropWhile_sublist _).subset hq)
  passed := hinv.passed
  entered x hx := by
    obtain ⟨hseen, henter, ps, hps, hall⟩ := hinv.entered x hx
    exact ⟨hseen, henter, ps, hps, fun y hy => seen_or_pending (hall y hy)⟩

/-- Passing the next commit by keeps the invariant. -/
theorem Trail.Inv.pass (hinv : t.Inv starts P Q (x :: queue)) (hx : P x .pass) :
    (t.meet x).Inv starts P Q queue := by
  have hmove : ∀ y, y ∈ t.seen ∨ y ∈ x :: queue → y ∈ (t.meet x).seen ∨ y ∈ queue := by
    intro y hy
    simp only [meet, List.mem_append, List.mem_cons, List.not_mem_nil, or_false] at hy ⊢
    tauto
  refine ⟨fun s hs => hmove s (hinv.begun s hs), fun y hy => hinv.met y ?_, ?_, ?_⟩
  · simp only [meet, List.mem_append, List.mem_cons, List.not_mem_nil, or_false] at hy ⊢
    tauto
  · intro y hy
    rcases List.mem_append.1 hy with hseen | hnew
    · exact hinv.passed y hseen
    · rw [List.mem_singleton.1 hnew]
      exact .inr hx
  · intro y hy
    obtain ⟨hseen, henter, ps, hps, hall⟩ := hinv.entered y hy
    exact ⟨List.mem_append_left _ hseen, henter, ps, hps, fun z hz => hmove z (hall z hz)⟩

/-- Entering the next commit puts its parents into the queue and keeps the invariant. -/
theorem Trail.Inv.enter {ps : List CommitId} (hinv : t.Inv starts P Q (x :: queue))
    (hx : P x .enter) (hps : Q x ps) :
    ((t.meet x).enter x).Inv starts P Q (queue ++ ps) := by
  have hmove : ∀ y, y ∈ t.seen ∨ y ∈ x :: queue →
      y ∈ ((t.meet x).enter x).seen ∨ y ∈ queue ++ ps := by
    intro y hy
    simp only [Trail.enter, meet, List.mem_append, List.mem_cons, List.not_mem_nil,
      or_false] at hy ⊢
    tauto
  have hmet : Met starts P Q x := hinv.met x (.inr (by simp))
  refine ⟨fun s hs => hmove s (hinv.begun s hs), fun y hy => ?_, fun y hy => ?_, fun y hy => ?_⟩
  · simp only [Trail.enter, meet, List.mem_append, List.mem_cons, List.not_mem_nil,
      or_false] at hy
    rcases hy with (hseen | rfl) | hqueue | hparent
    · exact hinv.met y (.inl hseen)
    · exact hmet
    · exact hinv.met y (.inr (by simp [hqueue]))
    · exact hmet.parent hx hps hparent
  · rcases List.mem_append.1 hy with hseen | hnew
    · exact (hinv.passed y hseen).imp_left fun he => List.mem_append_left _ he
    · exact .inl (List.mem_append_right _ hnew)
  · rcases List.mem_append.1 hy with hold | hnew
    · obtain ⟨hseen, henter, qs, hqs, hall⟩ := hinv.entered y hold
      exact ⟨List.mem_append_left _ hseen, henter, qs, hqs, fun z hz => hmove z (hall z hz)⟩
    · obtain rfl := List.mem_singleton.1 hnew
      refine ⟨by simp [Trail.enter, meet], hx, ps, hps, fun z hz => .inr ?_⟩
      exact List.mem_append_right _ hz

/-- What visits of a walk keep: it stays when commits that were met before are taken off the queue, when
the next commit is passed by, and when it is entered. -/
structure Trail.Preserved (P : CommitId → Visit → Prop) (Q : CommitId → List CommitId → Prop)
    (J : Trail → List CommitId → Prop) : Prop where
  pending : ∀ {t queue}, J t queue → J t (t.pending queue)
  pass : ∀ {t x queue}, J t (x :: queue) → x ∉ t.seen → P x .pass → J (t.meet x) queue
  enter : ∀ {t x queue ps}, J t (x :: queue) → x ∉ t.seen → P x .enter → Q x ps →
    J ((t.meet x).enter x) (queue ++ ps)

theorem Trail.Inv.preserved : Trail.Preserved P Q (Trail.Inv starts P Q) where
  pending := Trail.Inv.pending
  pass hinv _ hx := hinv.pass hx
  enter hinv _ hx hps := hinv.enter hx hps

/-- The first pending commit was not met before. -/
theorem Trail.not_mem_seen_of_pending {rest : List CommitId} (hcons : t.pending queue = x :: rest) :
    x ∉ t.seen := by
  intro hold
  have hhead := List.head?_dropWhile_not (fun c => t.seen.contains c) queue
  rw [Trail.pending] at hcons
  rw [hcons] at hhead
  simp [hold] at hhead

/-- A walk that has come to its end has entered everything behind its starts, except for what is
behind a commit that it passed by. -/
theorem Trail.Inv.covers (hinv : t.Inv starts P Q []) {R : CommitId → CommitId → Prop}
    (hR : ∀ x y ps, Q x ps → R x y → y ∈ ps) {s : CommitId} (hs : s ∈ starts)
    (hsy : Relation.ReflTransGen R s y) :
    y ∈ t.entered ∨ ∃ z, P z .pass ∧ Relation.ReflTransGen R z y := by
  have harrive : ∀ z, z ∈ t.seen ∨ z ∈ [] → z ∈ t.entered ∨
      ∃ z', P z' .pass ∧ Relation.ReflTransGen R z' z := by
    intro z hz
    have hseen : z ∈ t.seen := hz.resolve_right (by simp)
    exact (hinv.passed z hseen).imp_right fun hpass => ⟨z, hpass, .refl⟩
  induction hsy with
  | refl => exact harrive s (hinv.begun s hs)
  | tail _ hlast ih =>
    rcases ih with hentered | ⟨z, hpass, hzx⟩
    · -- Its parents were put into the queue, which is empty now.
      obtain ⟨_, _, ps, hps, hall⟩ := hinv.entered _ hentered
      exact harrive _ (hall _ (hR _ _ ps hps hlast))
    · exact .inr ⟨z, hpass, hzx.tail hlast⟩

end History

/-! ### The walk -/

namespace World

open History

variable {w : World} {ds : ProjectName → List Draft} {h h' : History}
variable {project : ProjectName} {id : CommitId} {starts : List CommitId}
variable {P : CommitId → Visit → Prop} {Q : CommitId → List CommitId → Prop}

/-- A successful walk has kept what every visit keeps.  It has stopped at a commit that was next, or it
has come to its end. -/
theorem yields_walk_of_preserved {J : Trail → List CommitId → Prop} (hJ : Trail.Preserved P Q J)
    {I : History → Prop} {visit : CommitId → Reading Visit}
    (hvisit : ∀ c h v h', I h → w.Yields (visit c) h v h' → I h' ∧ P c v)
    (hparents : ∀ c h ps h', I h → w.Yields (parents project c) h ps h' → I h' ∧ Q c ps)
    {budget : Nat} {t t' : Trail} {queue : List CommitId} (hI : I h)
    (hkept : J t queue) (hfound : t.found = none)
    (hy : w.Yields (walk project visit budget t queue) h t' h') :
    I h' ∧ ((∃ x t₁ rest, t'.found = some x ∧ P x .stop ∧ x ∉ t₁.seen ∧ J t₁ (x :: rest)) ∨
      t'.found = none ∧ J t' []) := by
  induction budget generalizing t queue h with
  | zero =>
    rw [walk] at hy
    split at hy
    · next hnil =>
      obtain ⟨rfl, rfl⟩ := yields_pure.1 hy
      exact ⟨hI, .inr ⟨hfound, hnil ▸ hJ.pending hkept⟩⟩
    · exact absurd hy yields_exhausted
  | succ budget ih =>
    rw [walk] at hy
    split at hy
    · next hnil =>
      obtain ⟨rfl, rfl⟩ := yields_pure.1 hy
      exact ⟨hI, .inr ⟨hfound, hnil ▸ hJ.pending hkept⟩⟩
    · next next rest hcons =>
      -- The commits before `next` in the queue were met before.
      have hnext : J t (next :: rest) := hcons ▸ hJ.pending hkept
      have hnew : next ∉ t.seen := Trail.not_mem_seen_of_pending hcons
      obtain ⟨v, h₁, hv, hrest⟩ := yields_bind.1 hy
      obtain ⟨hI₁, hPv⟩ := hvisit next h v h₁ hI hv
      cases v with
      | stop =>
        obtain ⟨rfl, rfl⟩ := yields_pure.1 hrest
        exact ⟨hI₁, .inl ⟨next, t, rest, rfl, hPv, hnew, hnext⟩⟩
      | pass => exact ih hI₁ (hJ.pass hnext hnew hPv) hfound hrest
      | enter =>
        obtain ⟨ps, h₂, hps, hrest⟩ := yields_bind.1 hrest
        obtain ⟨hI₂, hQ⟩ := hparents next h₁ ps h₂ hI₁ hps
        exact ih hI₂ (hJ.enter hnext hnew hPv hQ) hfound hrest

/-- A successful walk from the beginning has stopped at a commit that it met, or it has come to its
end. -/
theorem yields_walkFrom {I : History → Prop} {visit : CommitId → Reading Visit}
    (hvisit : ∀ c h v h', I h → w.Yields (visit c) h v h' → I h' ∧ P c v)
    (hparents : ∀ c h ps h', I h → w.Yields (parents project c) h ps h' → I h' ∧ Q c ps)
    {t' : Trail} (hI : I h) (hy : w.Yields (walkFrom project starts visit) h t' h') :
    I h' ∧ ((∃ x, t'.found = some x ∧ P x .stop ∧ Met starts P Q x) ∨
      t'.found = none ∧ t'.Inv starts P Q []) := by
  simp only [walkFrom, yields_bind, yields_get] at hy
  obtain ⟨_, _, ⟨rfl, rfl⟩, hy⟩ := hy
  obtain ⟨hI', hend⟩ :=
    yields_walk_of_preserved Trail.Inv.preserved hvisit hparents hI Trail.inv_start rfl hy
  refine ⟨hI', hend.imp_left ?_⟩
  rintro ⟨x, _, _, hfound, hstop, _, hinv⟩
  exact ⟨x, hfound, hstop, hinv.met x (.inr List.mem_cons_self)⟩

/-- A commit with these parents is known. -/
def ParentsAre (w : World) (drafts : List Draft) (project : ProjectName) (id : CommitId)
    (ps : List CommitId) : Prop :=
  ∃ c, w.Known drafts project id c ∧ c.parents = ps

/-- A walk meets only what its starts lead to. -/
theorem leads_of_met {drafts : List Draft} {x : CommitId}
    (hmet : Met starts P (w.ParentsAre drafts project) x) :
    ∃ s ∈ starts, w.Leads drafts project s x := by
  induction hmet with
  | start hs => exact ⟨_, hs, .refl⟩
  | parent _ _ hps hy ih =>
    obtain ⟨s, hs, hleads⟩ := ih
    obtain ⟨c, hc, rfl⟩ := hps
    exact ⟨s, hs, hleads.tail ⟨c, hc, hy⟩⟩

/-- Where names are definite, a commit has one list of parents. -/
theorem mem_of_parentsAre {drafts : List Draft} (hdefinite : w.Definite drafts project)
    {x y : CommitId} {ps : List CommitId} (hps : w.ParentsAre drafts project x ps)
    (hxy : w.Parent drafts project x y) : y ∈ ps := by
  obtain ⟨c, hc, rfl⟩ := hps
  obtain ⟨c', hc', hy⟩ := hxy
  rw [hdefinite x c c' hc hc']
  exact hy

theorem ParentsAre.stored {x : CommitId} {ps : List CommitId}
    (hps : w.ParentsAre [] project x ps) : (w.commit? project x).isSome := by
  obtain ⟨c, hc, _⟩ := hps
  rw [known_nil] at hc
  rw [hc]
  rfl

/-- A walk that enters every commit has entered everything that its starts lead to. -/
theorem mem_entered_iff_leads {drafts : List Draft} (hdefinite : w.Definite drafts project)
    {t : Trail} (hinv : t.Inv starts (fun _ v => v = .enter) (w.ParentsAre drafts project) []) :
    id ∈ t.entered ↔ ∃ s ∈ starts, w.Leads drafts project s id := by
  constructor
  · exact fun hid => leads_of_met (hinv.met id (.inl (hinv.entered id hid).1))
  · rintro ⟨s, hs, hleads⟩
    -- No commit was passed by.
    refine (hinv.covers (fun _ _ _ => mem_of_parentsAre hdefinite) hs hleads).resolve_right ?_
    rintro ⟨z, hpass, _⟩
    cases hpass

/-! ### Accepted commits -/

/-- A walk from the tips that enters every commit has entered the accepted ones. -/
theorem mem_entered_iff_accepted {drafts : List Draft} (hsettled : w.Settled drafts project)
    {tips : List (Branch × CommitId)} {t : Trail} (htips : w.branches project = .ok tips)
    (hinv : t.Inv (tips.map (·.2)) (fun _ v => v = .enter) (w.ParentsAre drafts project) []) :
    (id ∈ t.entered ↔ w.Accepted project id) ∧
      (id ∈ t.entered → (w.commit? project id).isSome) := by
  have haccepted : id ∈ t.entered → w.Accepted project id := by
    intro hid
    obtain ⟨tip, htip, hleads⟩ := (mem_entered_iff_leads hsettled.definite hinv).1 hid
    exact hsettled.accepted ((accepted_iff htips).2 ⟨tip, htip, .refl⟩) hleads
  refine ⟨⟨haccepted, fun hid => ?_⟩, fun hid => ?_⟩
  · obtain ⟨tip, htip, hleads⟩ := (accepted_iff htips).1 hid
    exact (mem_entered_iff_leads hsettled.definite hinv).2
      ⟨tip, htip, hleads.mono (List.nil_subset _)⟩
  · rcases hsettled.stored with rfl | hstored
    · obtain ⟨_, _, ps, hps, _⟩ := hinv.entered id hid
      exact hps.stored
    · exact hstored id (haccepted hid)

/-- Listing the accepted commits.  Where drafts take no part in them the list is exact, and all
listed commits are stored. -/
theorem yields_acceptedCommits (hf : h.Faithful w ds) {ids : List CommitId}
    (hy : w.Yields (acceptedCommits project) h ids h') :
    h'.Faithful w ds ∧ (w.Settled (ds project) project →
      ∀ id, (id ∈ ids ↔ w.Accepted project id) ∧ (id ∈ ids → (w.commit? project id).isSome)) := by
  simp only [acceptedCommits, yields_bind, yields_get] at hy
  obtain ⟨_, _, ⟨rfl, rfl⟩, hy⟩ := hy
  have hv := hf.view project
  split at hy
  · next ids' hknown =>
    obtain ⟨rfl, rfl⟩ := yields_pure.1 hy
    exact ⟨hf, fun hsettled => hv.accepted (by rwa [hf.drafts]) ids hknown⟩
  · simp only [yields_bind, yields_modify, yields_pure] at hy
    obtain ⟨tips, h₁, htips, t, h₂, hwalk, _, _, rfl, rfl, rfl⟩ := hy
    obtain ⟨hf₁, hbranches⟩ := yields_tips hf htips
    obtain ⟨hf₂, hend⟩ := yields_walkFrom (I := fun h => h.Faithful w ds)
      (P := fun _ v => v = .enter) (Q := w.ParentsAre (ds project) project)
      (fun c h v h' hI hv => by
        obtain ⟨rfl, rfl⟩ := yields_pure.1 hv
        exact ⟨hI, rfl⟩)
      (fun c h ps h' hI hps => yields_parents hI hps) hf₁ hwalk
    have hinv := (hend.resolve_left (by rintro ⟨x, _, hstop, _⟩; cases hstop)).2
    have hexact : w.Settled (ds project) project → ∀ id,
        (id ∈ t.entered ↔ w.Accepted project id) ∧
          (id ∈ t.entered → (w.commit? project id).isSome) :=
      fun hsettled id => mem_entered_iff_accepted hsettled hbranches hinv
    have hv₂ := hf₂.view project
    refine ⟨hf₂.setView ⟨hv₂.known, hv₂.tips, ?_, hv₂.housed⟩ (hf₂.drafts project), hexact⟩
    intro hsettled ids hids
    cases hids
    exact hexact (by rwa [← hf₂.drafts])

/-- Asking whether a commit is accepted.  Where drafts take no part in it the answer is right, and
the accepted commits turned out to be stored. -/
theorem yields_isAccepted (hf : h.Faithful w ds) {b : Bool}
    (hy : w.Yields (isAccepted project id) h b h') :
    h'.Faithful w ds ∧ (w.Settled (ds project) project →
      (b = true ↔ w.Accepted project id) ∧ w.AcceptedStored project) := by
  simp only [isAccepted, yields_bind, yields_pure] at hy
  obtain ⟨ids, _, hids, rfl, rfl⟩ := hy
  obtain ⟨hf', hexact⟩ := yields_acceptedCommits hf hids
  refine ⟨hf', fun hsettled => ⟨?_, fun x hx => ?_⟩⟩
  · rw [List.contains_iff_mem]
    exact (hexact hsettled id).1
  · exact (hexact hsettled x).2 ((hexact hsettled x).1.2 hx)

/-- What a walk does that passes accepted commits by; it has found all of these stored. -/
def Prunes (w : World) (project : ProjectName) (c : CommitId) (v : Visit) : Prop :=
  w.AcceptedStored project ∧
    ((v = .pass ∧ w.Accepted project c) ∨ (v = .enter ∧ ¬ w.Accepted project c))

theorem yields_prune (hf : h.Faithful w ds) (hsettled : w.Settled (ds project) project)
    {c : CommitId} {v : Visit}
    (hy : w.Yields (do pure (if ← isAccepted project c then .pass else .enter)) h v h') :
    h'.Faithful w ds ∧ w.Prunes project c v := by
  simp only [yields_bind, yields_pure] at hy
  obtain ⟨b, _, hb, rfl, rfl⟩ := hy
  obtain ⟨hf', hexact⟩ := yields_isAccepted hf hb
  obtain ⟨hiff, hstored⟩ := hexact hsettled
  refine ⟨hf', hstored, ?_⟩
  cases b with
  | true => exact .inl ⟨rfl, hiff.1 rfl⟩
  | false => exact .inr ⟨rfl, fun haccepted => Bool.noConfusion (hiff.2 haccepted)⟩

/-- Listing what is behind some commits and not accepted, where drafts take no part in what is
accepted.  The list is exact; everything behind the commits is known, and the accepted commits are
stored. -/
theorem yields_unacceptedAncestry (hf : h.Faithful w ds)
    (hsettled : w.Settled (ds project) project) {ids : List CommitId}
    (hy : w.Yields (unacceptedAncestry project starts) h ids h') :
    h'.Faithful w ds ∧
      (∀ s ∈ starts, w.AcceptedStored project ∧
        ∀ x, w.Leads (ds project) project s x → ∃ c, w.Known (ds project) project x c) ∧
      ∀ id, id ∈ ids ↔
        ¬ w.Accepted project id ∧ ∃ s ∈ starts, w.Leads (ds project) project s id := by
  simp only [unacceptedAncestry, yields_bind, yields_pure] at hy
  obtain ⟨t, _, hwalk, rfl, rfl⟩ := hy
  obtain ⟨hf', hend⟩ := yields_walkFrom (I := fun h => h.Faithful w ds) (P := w.Prunes project)
    (Q := w.ParentsAre (ds project) project)
    (fun c h v h' hI hv => yields_prune hI hsettled hv)
    (fun c h ps h' hI hps => yields_parents hI hps) hf hwalk
  have hinv := (hend.resolve_left (by
    rintro ⟨x, _, ⟨_, ⟨hstop, _⟩ | ⟨hstop, _⟩⟩, _⟩ <;> cases hstop)).2
  -- What the walk has not entered is behind a commit that it passed by, so it is accepted.
  have hcovers : ∀ s ∈ starts, ∀ x, w.Leads (ds project) project s x →
      x ∈ t.entered ∨ w.Accepted project x ∧ w.AcceptedStored project := by
    intro s hs x hleads
    rcases hinv.covers (fun _ _ _ => mem_of_parentsAre hsettled.definite) hs hleads with
      hentered | ⟨z, hz, hzx⟩
    · exact .inl hentered
    · obtain ⟨hstored, ⟨_, haccepted⟩ | ⟨hpass, _⟩⟩ := hz
      · exact .inr ⟨hsettled.accepted haccepted hzx, hstored⟩
      · cases hpass
  refine ⟨hf', fun s hs => ⟨?_, fun x hleads => ?_⟩, fun id => ⟨fun hid => ?_, ?_⟩⟩
  · rcases hcovers s hs s .refl with hentered | ⟨_, hstored⟩
    · exact (hinv.entered s hentered).2.1.1
    · exact hstored
  · rcases hcovers s hs x hleads with hentered | ⟨haccepted, hstored⟩
    · obtain ⟨_, _, ps, ⟨c, hc, _⟩, _⟩ := hinv.entered x hentered
      exact ⟨c, hc⟩
    · obtain ⟨c, hc⟩ := Option.isSome_iff_exists.1 (hstored x haccepted)
      exact ⟨c, .inl hc⟩
  · obtain ⟨hseen, ⟨_, henter⟩, _⟩ := hinv.entered id hid
    refine ⟨?_, leads_of_met (hinv.met id (.inl hseen))⟩
    rcases henter with ⟨hpass, _⟩ | ⟨_, hnot⟩
    · cases hpass
    · exact hnot
  · rintro ⟨hnot, s, hs, hleads⟩
    exact (hcovers s hs id hleads).resolve_right fun haccepted => hnot haccepted.1

/-- Listing what is behind some commits keeps a history faithful also where drafts take part in what is
accepted. -/
theorem faithful_of_unacceptedAncestry (hf : h.Faithful w ds) {ids : List CommitId}
    (hy : w.Yields (unacceptedAncestry project starts) h ids h') : h'.Faithful w ds := by
  simp only [unacceptedAncestry, yields_bind, yields_pure] at hy
  obtain ⟨t, _, hwalk, rfl, rfl⟩ := hy
  exact (yields_walkFrom (I := fun h => h.Faithful w ds) (P := fun _ _ => True)
    (Q := fun _ _ => True)
    (fun c h v h' hI hv => by
      simp only [yields_bind, yields_pure] at hv
      obtain ⟨b, _, hb, _, rfl⟩ := hv
      exact ⟨(yields_isAccepted hI hb).1, trivial⟩)
    (fun c h ps h' hI hps => ⟨(yields_parents hI hps).1, trivial⟩) hf hwalk).1

/-! ### Ancestors -/

/-- What a walk does that is in search of a commit: it stops there and nowhere else.  Where drafts take
no part in what is accepted, a commit is passed by only if it is accepted and the one in search is
not. -/
structure Seeks (w : World) (drafts : List Draft) (project : ProjectName) (ancestor c : CommitId)
    (v : Visit) : Prop where
  stop : v = .stop ↔ c = ancestor
  pass : v = .pass → w.Settled drafts project →
    w.Accepted project c ∧ ¬ w.Accepted project ancestor

theorem yields_seek (hf : h.Faithful w ds) {ancestor c : CommitId} {anywhere : Bool} {v : Visit}
    (hanywhere : w.Settled (ds project) project → (anywhere = true ↔ w.Accepted project ancestor))
    (hy : w.Yields (if c = ancestor then pure .stop
      else if anywhere then pure .enter
      else do pure (if ← isAccepted project c then .pass else .enter)) h v h') :
    h'.Faithful w ds ∧ w.Seeks (ds project) project ancestor c v := by
  split at hy
  · next heq =>
    obtain ⟨rfl, rfl⟩ := yields_pure.1 hy
    exact ⟨hf, ⟨fun _ => heq, fun _ => rfl⟩, fun hpass => by cases hpass⟩
  · next hne =>
    split at hy
    · obtain ⟨rfl, rfl⟩ := yields_pure.1 hy
      refine ⟨hf, ⟨fun hstop => ?_, fun heq => absurd heq hne⟩, fun hpass => ?_⟩
      · cases hstop
      · cases hpass
    · next hnowhere =>
      simp only [yields_bind, yields_pure] at hy
      obtain ⟨b, _, hb, rfl, rfl⟩ := hy
      obtain ⟨hf', hexact⟩ := yields_isAccepted hf hb
      refine ⟨hf', ⟨fun hstop => ?_, fun heq => absurd heq hne⟩, fun hpass hsettled => ?_⟩
      · cases b <;> cases hstop
      · cases b with
        | false => cases hpass
        | true =>
          refine ⟨(hexact hsettled).1.1 rfl, fun haccepted => ?_⟩
          exact hnowhere ((hanywhere hsettled).2 haccepted)

/-- What the answer reveals to whether a commit leads to another.  A positive one is right, and where
drafts take no part in what is accepted a negative one is right as well.  Then everything behind the
first commit is known, and the accepted commits are stored. -/
def Reveals (w : World) (drafts : List Draft) (project : ProjectName)
    (descendant ancestor : CommitId) : Bool → Prop
  | true => w.Leads drafts project descendant ancestor
  | false => w.Settled drafts project → w.AcceptedStored project ∧
      w.Resolvable drafts project descendant ∧ ¬ w.Leads drafts project descendant ancestor

/-- Asking whether a commit leads to another. -/
theorem yields_isAncestor_reveals (hf : h.Faithful w ds) {ancestor descendant : CommitId} {b : Bool}
    (hy : w.Yields (isAncestor project ancestor descendant) h b h') :
    h'.Faithful w ds ∧ w.Reveals (ds project) project descendant ancestor b := by
  rw [isAncestor] at hy
  split at hy
  · next heq =>
    obtain ⟨rfl, rfl⟩ := yields_pure.1 hy
    exact ⟨hf, heq ▸ Leads.refl⟩
  · simp only [yields_bind, yields_pure] at hy
    obtain ⟨anywhere, h₁, hanywhere, t, _, hwalk, rfl, rfl⟩ := hy
    obtain ⟨hf₁, hexact⟩ := yields_isAccepted hf hanywhere
    obtain ⟨hf', hend⟩ := yields_walkFrom (I := fun h => h.Faithful w ds)
      (P := w.Seeks (ds project) project ancestor) (Q := w.ParentsAre (ds project) project)
      (fun c h v h' hI hv => yields_seek hI (fun hsettled => (hexact hsettled).1) hv)
      (fun c h ps h' hI hps => yields_parents hI hps) hf₁ hwalk
    refine ⟨hf', ?_⟩
    rcases hend with ⟨x, hfound, hstop, hmet⟩ | ⟨hnone, hinv⟩
    · rw [hfound]
      obtain ⟨s, hs, hleads⟩ := leads_of_met hmet
      rw [List.mem_singleton.1 hs, hstop.stop.1 rfl] at hleads
      exact hleads
    · rw [hnone]
      intro hsettled
      have hstored := (hexact hsettled).2
      -- The walk has not stopped, so it has neither entered the ancestor nor passed it by.
      have hcovers : ∀ x, w.Leads (ds project) project descendant x → x ∈ t.entered ∨
          w.Accepted project x ∧ ¬ w.Accepted project ancestor := by
        intro x hleads
        refine (hinv.covers (fun _ _ _ => mem_of_parentsAre hsettled.definite)
          (List.mem_singleton_self descendant) hleads).imp_right ?_
        rintro ⟨z, hz, hzx⟩
        obtain ⟨haccepted, hnot⟩ := hz.pass rfl hsettled
        exact ⟨hsettled.accepted haccepted hzx, hnot⟩
      refine ⟨hstored, fun x hleads => ?_, fun hleads => ?_⟩
      · rcases hcovers x hleads with hentered | ⟨haccepted, _⟩
        · obtain ⟨_, _, ps, ⟨c, hc, _⟩, _⟩ := hinv.entered x hentered
          exact ⟨c, hc⟩
        · obtain ⟨c, hc⟩ := Option.isSome_iff_exists.1 (hstored x haccepted)
          exact ⟨c, .inl hc⟩
      · rcases hcovers ancestor hleads with hentered | ⟨haccepted, hnot⟩
        · obtain ⟨_, henter, _⟩ := hinv.entered ancestor hentered
          cases henter.stop.2 rfl
        · exact hnot haccepted

/-- Asking whether a commit leads to another.  A positive answer is right, and where drafts take no part
in what is accepted a negative one is right as well. -/
theorem yields_isAncestor_exact (hf : h.Faithful w ds) {ancestor descendant : CommitId} {b : Bool}
    (hy : w.Yields (isAncestor project ancestor descendant) h b h') :
    h'.Faithful w ds ∧ (b = true → w.Leads (ds project) project descendant ancestor) ∧
      (w.Settled (ds project) project →
        w.Leads (ds project) project descendant ancestor → b = true) := by
  obtain ⟨hf', htold⟩ := yields_isAncestor_reveals hf hy
  cases b with
  | true => exact ⟨hf', fun _ => htold, fun _ _ => rfl⟩
  | false =>
    refine ⟨hf', fun htrue => ?_, fun hsettled hleads => absurd hleads (htold hsettled).2.2⟩
    cases htrue

/-- Asking whether a commit leads to another; a positive answer is right. -/
theorem yields_isAncestor (hf : h.Faithful w ds) {ancestor descendant : CommitId} {b : Bool}
    (hy : w.Yields (isAncestor project ancestor descendant) h b h') :
    h'.Faithful w ds ∧ (b = true → w.Leads (ds project) project descendant ancestor) :=
  (yields_isAncestor_exact hf hy).imp_right And.left

/-- Searching a merge base keeps the history faithful. -/
theorem yields_mergeBase? (hf : h.Faithful w ds) {a b : CommitId} {base : Option CommitId}
    (hy : w.Yields (mergeBase? project a b) h base h') : h'.Faithful w ds := by
  simp only [mergeBase?, yields_bind, yields_pure] at hy
  obtain ⟨t, h₁, hbehind, t', _, hwalk, _, rfl⟩ := hy
  have hpure : ∀ (f : CommitId → Visit) c h v h', h.Faithful w ds →
      w.Yields (pure (f c) : Reading Visit) h v h' → h'.Faithful w ds ∧ True := by
    intro f c h v h' hI hv
    obtain ⟨_, rfl⟩ := yields_pure.1 hv
    exact ⟨hI, trivial⟩
  have hparents : ∀ c h ps h', h.Faithful w ds →
      w.Yields (parents project c) h ps h' → h'.Faithful w ds ∧ True :=
    fun c h ps h' hI hps => ⟨(yields_parents hI hps).1, trivial⟩
  have hf₁ := (yields_walkFrom (P := fun _ _ => True) (Q := fun _ _ => True)
    (hpure fun _ => .enter) hparents hf hbehind).1
  exact (yields_walkFrom (P := fun _ _ => True) (Q := fun _ _ => True)
    (hpure fun c => if t.entered.contains c then .stop else .enter) hparents hf₁ hwalk).1

end World

/-! ### Walking only asks -/

namespace History

open Study

variable {project : ProjectName}

theorem isInquiry_walk {visit : CommitId → Reading Visit}
    (hvisit : ∀ c, Reading.IsInquiry (visit c)) (budget : Nat) (t : Trail)
    (queue : List CommitId) : Reading.IsInquiry (walk project visit budget t queue) := by
  induction budget generalizing t queue with
  | zero =>
    rw [walk]
    split
    · exact isInquiry_pure t
    · exact Reading.isInquiry_exhausted
  | succ budget ih =>
    rw [walk]
    split
    · exact isInquiry_pure t
    · refine (hvisit _).bind fun v => ?_
      cases v with
      | stop => exact isInquiry_pure _
      | pass => exact ih _ _
      | enter => exact isInquiry_parents.bind fun ps => ih _ _

theorem isInquiry_walkFrom {starts : List CommitId} {visit : CommitId → Reading Visit}
    (hvisit : ∀ c, Reading.IsInquiry (visit c)) :
    Reading.IsInquiry (walkFrom project starts visit) :=
  isInquiry_get.bind fun h => isInquiry_walk hvisit h.budget .start starts

theorem isInquiry_acceptedCommits : Reading.IsInquiry (acceptedCommits project) := by
  refine isInquiry_get.bind fun h => ?_
  split
  · exact isInquiry_pure _
  · refine isInquiry_tips.bind fun ts => ?_
    refine (isInquiry_walkFrom fun c => isInquiry_pure Visit.enter).bind fun t => ?_
    refine (isInquiry_modify fun h => ?_).bind fun _ => isInquiry_pure t.entered
    exact keeps_setView rfl

theorem isInquiry_isAccepted {id : CommitId} : Reading.IsInquiry (isAccepted project id) :=
  isInquiry_acceptedCommits.bind fun ids => isInquiry_pure (ids.contains id)

theorem isInquiry_unacceptedAncestry {starts : List CommitId} :
    Reading.IsInquiry (unacceptedAncestry project starts) := by
  refine (isInquiry_walkFrom fun c => ?_).bind fun t => isInquiry_pure t.entered
  exact isInquiry_isAccepted.bind fun b => isInquiry_pure _

theorem isInquiry_isAncestor {ancestor descendant : CommitId} :
    Reading.IsInquiry (isAncestor project ancestor descendant) := by
  unfold isAncestor
  split
  · exact isInquiry_pure true
  · refine isInquiry_isAccepted.bind fun anywhere => ?_
    refine (isInquiry_walkFrom fun c => ?_).bind fun t => isInquiry_pure _
    split
    · exact isInquiry_pure _
    · split
      · exact isInquiry_pure _
      · exact isInquiry_isAccepted.bind fun b => isInquiry_pure _

theorem isInquiry_mergeBase? {a b : CommitId} : Reading.IsInquiry (mergeBase? project a b) := by
  refine (isInquiry_walkFrom fun c => isInquiry_pure Visit.enter).bind fun t => ?_
  exact (isInquiry_walkFrom fun c => isInquiry_pure _).bind fun t' => isInquiry_pure t'.found

end History
end Landing
