import Xtrax.ZarrDurable

/-! # Committed keys stay as they are

A rename puts a directory only where nothing, or an empty directory, was.  So what has a
`zarr.json` stays (`Keeps.metas`), and the only paths that get a commit record are paths
nothing was below (`Keeps.fresh`).  A `commit_key` past its prefix checks has a parent with a
`zarr.json` and no committed key at or above it; both stay true whatever the others do.  Hence
nothing lands inside a committed key (`Keeps.trees`), which is `Sealed` from then on.

`Keeps` is what every process relies on and what every step guarantees.
-/
namespace Xtrax.ZarrCommit

open Function List Option DirTree Interleaving

/-! ## What a store has at a path -/

/-- There is a `zarr.json`. -/
def HasMeta (store : Store) (k : Path) : Prop := ∃ node json, store.get? k = some node ∧
  node.zarrJson = some json

/-- There is a commit record, valid or not. -/
def HasRecord (store : Store) (k : Path) : Prop := ∃ node, store.get? k = some node ∧
  node.hasCommitAttr = true

variable {D : Digests} {store store' store'' : Store} {k x y p : Path} {r : CommitRecord}

theorem HasRecord.hasMeta (h : HasRecord store k) : HasMeta store k := by
  obtain ⟨node, hnode, hrecord⟩ := h
  cases hjson : node.zarrJson with
  | none => simp [Node.hasCommitAttr, hjson] at hrecord
  | some json => exact ⟨node, json, hnode, hjson⟩

theorem hasRecord_of_readRecord (h : readRecord D (store.get? k) = some r) : HasRecord store k := by
  unfold readRecord at h
  cases hnode : store.get? k with
  | none => simp [hnode] at h
  | some node =>
    rw [hnode, bind_some] at h
    cases hjson : node.zarrJson with
    | none => simp [hjson] at h
    | some json =>
      rw [hjson] at h
      dsimp only at h
      split at h
      · refine ⟨node, hnode, ?_⟩
        cases hcommit : json.commit with
        | none => simp [hcommit, verified] at h
        | some attr => simp [Node.hasCommitAttr, hjson, hcommit]
      · cases h

theorem hasMeta_iff : HasMeta store k ↔ ((store.get? k).bind Node.zarrJson).isSome = true := by
  unfold HasMeta
  cases store.get? k with
  | none => simp
  | some node => cases hjson : node.zarrJson <;> simp [hjson]

theorem hasRecord_iff :
    HasRecord store k ↔ ((store.get? k).map Node.hasCommitAttr).getD false = true := by
  unfold HasRecord
  cases store.get? k <;> simp

theorem not_hasMeta_of_vacant (h : Vacant store k) (hk : k <+: p) : ¬ HasMeta store p := by
  rintro ⟨node, json, hnode, hjson⟩
  obtain ⟨rel, rfl⟩ := hk
  have hmem : (rel, node) ∈ store.sub k := Tree.mem_of_get? (by rwa [Tree.get?_sub])
  exact absurd ((h _ hmem).2.1.symm.trans hjson) (by simp)

theorem HasMeta.isDir (h : HasMeta store p) (hk : k <+: p) : store.IsDir k := by
  obtain ⟨node, -, hnode, -⟩ := h
  exact Tree.isDir_of_get? hnode hk

/-! ## What every step keeps -/

/-- What a process may rely on while the others move. -/
structure Keeps (store store' : Store) : Prop where
  metas : ∀ p, HasMeta store p → store'.get? p = store.get? p
  trees : ∀ k, HasRecord store k → ∀ rel, store'.get? (k ++ rel) = store.get? (k ++ rel)
  fresh : ∀ y, HasRecord store' y → HasRecord store y ∨ ∀ p, y <+: p → ¬ HasMeta store p

theorem Keeps.refl (store : Store) : Keeps store store where
  metas _ _ := rfl
  trees _ _ _ := rfl
  fresh _ h := .inl h

theorem Keeps.hasMeta (h : Keeps store store') (hp : HasMeta store p) : HasMeta store' p := by
  obtain ⟨node, json, hnode, hjson⟩ := id hp
  exact ⟨node, json, (h.metas p hp).trans hnode, hjson⟩

theorem Keeps.hasRecord (h : Keeps store store') (hk : HasRecord store k) : HasRecord store' k := by
  obtain ⟨node, hnode, hrecord⟩ := id hk
  exact ⟨node, (h.metas k hk.hasMeta).trans hnode, hrecord⟩

theorem Keeps.readRecord (h : Keeps store store') (hk : readRecord D (store.get? k) = some r) :
    readRecord D (store'.get? k) = some r := by
  rw [h.metas k (hasRecord_of_readRecord hk).hasMeta]
  exact hk

theorem Keeps.not_hasRecord (h : Keeps store store') (hp : HasMeta store p) (hy : y <+: p)
    (hnone : ¬ HasRecord store y) : ¬ HasRecord store' y := by
  intro hrecord
  rcases h.fresh y hrecord with hold | hbelow
  · exact hnone hold
  · exact hbelow p hy hp

/-- **A landing keeps what is there**, outside committed keys. -/
theorem keeps_graft {tree : Store} (hvacant : Vacant store k)
    (houtside : ∀ y, y <+: k → y ≠ k → ¬ HasRecord store y)
    (htree : ∀ rel, HasRecord tree rel → rel = []) : Keeps store (store.graft k tree) where
  metas p hp :=
    Tree.get?_graft_of_not_prefix _ _ fun hk => not_hasMeta_of_vacant hvacant hk hp
  trees x hx rel := by
    refine Tree.get?_graft_of_not_prefix _ _ fun hk => ?_
    rcases prefix_or_prefix_of_prefix hk (prefix_append x rel) with hkx | hxk
    · exact not_hasMeta_of_vacant hvacant hkx hx.hasMeta
    · by_cases heq : x = k
      · exact not_hasMeta_of_vacant hvacant (heq ▸ prefix_rfl) hx.hasMeta
      · exact houtside x hxk heq hx
  fresh y hy := by
    by_cases hk : k <+: y
    · obtain ⟨rel, rfl⟩ := hk
      obtain ⟨node, hnode, hrecord⟩ := hy
      rw [Tree.get?_graft_append] at hnode
      rw [htree rel ⟨node, hnode, hrecord⟩, append_nil]
      exact .inr fun p hp => not_hasMeta_of_vacant hvacant hp
    · obtain ⟨node, hnode, hrecord⟩ := hy
      rw [Tree.get?_graft_of_not_prefix _ _ hk] at hnode
      exact .inl ⟨node, hnode, hrecord⟩

/-! ## Committed keys -/

/-- What is so of every directory with a commit record. -/
structure Sealed (D : Digests) (store : Store) (k : Path) : Prop where
  ne_nil : k ≠ []
  parent : HasMeta store k.dropLast
  alone : ∀ y, y <+: k → y ≠ k → ¬ HasRecord store y
  valid : ∃ r, readRecord D (store.get? k) = some r ∧ D.content (store.sub k) = some r.contentDigest

theorem Sealed.keeps (hD : D.Lawful) (hkeeps : Keeps store store') (hk : HasRecord store k)
    (h : Sealed D store k) : Sealed D store' k where
  ne_nil := h.ne_nil
  parent := hkeeps.hasMeta h.parent
  alone y hy hne := hkeeps.not_hasRecord hk.hasMeta hy (h.alone y hy hne)
  valid := by
    obtain ⟨r, hr, hcontent⟩ := h.valid
    refine ⟨r, hkeeps.readRecord hr, ?_⟩
    rw [← hcontent]
    refine hD.determined fun rel => ?_
    rw [Tree.get?_sub, Tree.get?_sub, hkeeps.trees k hk]

/-- Every directory with a commit record is a committed key. -/
def AllSealed (D : Digests) (store : Store) : Prop := ∀ k, HasRecord store k → Sealed D store k

/-! ### The staged trees -/

theorem Staged.not_hasRecord (staged : Staged) (rel : Path) : ¬ HasRecord staged.tree rel := by
  rintro ⟨node, hnode, hrecord⟩
  have := staged.plain _ (Tree.mem_of_get? hnode)
  simp [hrecord] at this

def Node.withRecord (r : CommitRecord) (node : Node) : Node :=
  { node with zarrJson := node.zarrJson.map fun j => { j with commit := some (.record r) } }

theorem Node.unrecorded_withRecord (node : Node) :
    (node.withRecord r).unrecorded = node.unrecorded := by
  cases hjson : node.zarrJson <;> simp [Node.unrecorded, Node.withRecord, hjson]

theorem Staged.get?_recorded_nil (staged : Staged) (r : CommitRecord) :
    (staged.recorded r).get? [] = (staged.tree.get? []).map (Node.withRecord r) := by
  unfold Staged.recorded
  induction staged.tree with
  | nil => rfl
  | cons e tree ih =>
    rw [map_cons, Tree.get?_cons, Tree.get?_cons, ih]
    by_cases hroot : e.1 = []
    · rw [if_pos hroot, if_pos hroot, if_pos hroot]
      rfl
    · rw [if_neg hroot, if_neg hroot, if_neg hroot]

theorem Staged.get?_recorded_of_ne (staged : Staged) (r : CommitRecord) {rel : Path}
    (hrel : rel ≠ []) : (staged.recorded r).get? rel = staged.tree.get? rel := by
  unfold Staged.recorded
  induction staged.tree with
  | nil => rfl
  | cons e tree ih =>
    rw [map_cons, Tree.get?_cons, Tree.get?_cons, ih]
    by_cases hroot : e.1 = []
    · have hne : ¬ e.1 = rel := fun h => hrel (h.symm.trans hroot)
      rw [if_pos hroot, if_neg hne, if_neg hne]
    · rw [if_neg hroot]

theorem Staged.hasRecord_recorded (staged : Staged) {rel : Path}
    (h : HasRecord (staged.recorded r) rel) : rel = [] := by
  by_contra hrel
  obtain ⟨node, hnode, hrecord⟩ := h
  rw [staged.get?_recorded_of_ne r hrel] at hnode
  exact staged.not_hasRecord rel ⟨node, hnode, hrecord⟩

theorem Staged.content_recorded (hD : D.Lawful) (staged : Staged) (r : CommitRecord) :
    D.content (staged.recorded r) = D.content staged.tree := by
  refine hD.determined fun rel => ?_
  by_cases hrel : rel = []
  · rw [hrel, staged.get?_recorded_nil, Option.map_map]
    exact congrArg (Option.map · _) (funext fun node => node.unrecorded_withRecord)
  · rw [staged.get?_recorded_of_ne r hrel]

theorem stagedRecord_digests {args : CommitArgs} (h : args.stagedRecord D = some r) :
    D.content args.staged.tree = some r.contentDigest ∧
      D.record r.inputDigest r.contentDigest r.body = some r.recordDigest := by
  obtain ⟨digest, hcontent, hrecord⟩ := Option.bind_eq_some_iff.mp h
  obtain ⟨recordDigest, hdigest, rfl⟩ := Option.map_eq_some_iff.mp hrecord
  exact ⟨hcontent, hdigest⟩

theorem readRecord_recorded (hD : D.Lawful) (args : CommitArgs)
    (h : args.stagedRecord D = some r) :
    readRecord D ((args.staged.recorded r).get? []) = some r := by
  obtain ⟨hcontent, hdigest⟩ := stagedRecord_digests h
  obtain ⟨node, json, hnode, hjson, hgroup⟩ := hD.opens hcontent
  rw [Staged.get?_recorded_nil, hnode]
  simp [readRecord, Node.withRecord, hjson, hgroup, verified, hdigest]

/-! ## `commit_key` -/

/-- A prefix that a key may be committed below. -/
structure Cleared (store : Store) (parent : Path) : Prop where
  hasMeta : HasMeta store parent
  clear : ∀ y, y <+: parent → ¬ HasRecord store y

theorem Cleared.keeps (hkeeps : Keeps store store') (h : Cleared store p) : Cleared store' p where
  hasMeta := hkeeps.hasMeta h.hasMeta
  clear y hy := hkeeps.not_hasRecord h.hasMeta hy (h.clear y hy)

/-- What a `commit_key` has made sure of. -/
def CommitOk (D : Digests) (args : CommitArgs) (store : Store) : CommitPc → Prop
  | .checkingAncestor depth => HasMeta store args.parent ∧
      ∀ y, y <+: args.parent → y.length < depth → ¬ HasRecord store y
  | .digesting => Cleared store args.parent
  | .landing record => Cleared store args.parent ∧ args.stagedRecord D = some record
  | .syncing record | .finished (.committed record) =>
      readRecord D (store.get? args.key) = some record
  | _ => True

variable {args : CommitArgs} {pc pc' : CommitPc}

theorem CommitOk.keeps (hkeeps : Keeps store store') (h : CommitOk D args store pc) :
    CommitOk D args store' pc := by
  cases pc with
  | checkingAncestor depth =>
    exact ⟨hkeeps.hasMeta h.1, fun y hy hlt => hkeeps.not_hasRecord h.1 hy (h.2 y hy hlt)⟩
  | digesting => exact Cleared.keeps hkeeps h
  | landing record => exact ⟨h.1.keeps hkeeps, h.2⟩
  | syncing record => exact hkeeps.readRecord h
  | finished outcome =>
    cases outcome with
    | committed record => exact hkeeps.readRecord h
    | _ => trivial
  | _ => trivial

theorem CommitArgs.prefix_parent (args : CommitArgs) (hy : y <+: args.key) (hne : y ≠ args.key) :
    y <+: args.parent := by
  rw [← dropLast_append_getLast args.key_ne_nil] at hy hne
  exact (prefix_concat_iff.mp hy).resolve_left hne

theorem CommitArgs.parent_prefix (args : CommitArgs) : args.parent <+: args.key :=
  dropLast_prefix args.key

/-- **A commit that lands is sealed**, and it leaves the others as they are. -/
theorem allSealed_landing (hD : D.Lawful) (hall : AllSealed D store)
    (hclear : Cleared store args.parent) (hvacant : Vacant store args.key)
    (hstaged : args.stagedRecord D = some r) :
    AllSealed D (store.graft args.key (args.staged.recorded r)) ∧
      Keeps store (store.graft args.key (args.staged.recorded r)) := by
  have hkeeps : Keeps store (store.graft args.key (args.staged.recorded r)) :=
    keeps_graft hvacant (fun y hy hne => hclear.clear y (args.prefix_parent hy hne))
      fun rel hrel => args.staged.hasRecord_recorded hrel
  refine ⟨fun x hx => ?_, hkeeps⟩
  by_cases hxk : x = args.key
  · subst hxk
    refine ⟨args.key_ne_nil, hkeeps.hasMeta hclear.hasMeta, fun y hy hne => ?_, ?_⟩
    · have hparent := args.prefix_parent hy hne
      exact hkeeps.not_hasRecord hclear.hasMeta hparent (hclear.clear y hparent)
    · refine ⟨r, ?_, ?_⟩
      · have hroot := Tree.get?_graft_append store (args.staged.recorded r) args.key []
        rw [append_nil] at hroot
        rw [hroot]
        exact readRecord_recorded hD args hstaged
      · have hsub : D.content ((store.graft args.key (args.staged.recorded r)).sub args.key) =
            D.content (args.staged.recorded r) := by
          refine hD.determined fun rel => ?_
          rw [Tree.get?_sub, Tree.get?_graft_append]
        rw [hsub, Staged.content_recorded hD]
        exact (stagedRecord_digests hstaged).1
  · have hold : HasRecord store x := by
      obtain ⟨node, hnode, hrecord⟩ := hx
      by_cases hk : args.key <+: x
      · obtain ⟨rel, rfl⟩ := hk
        rw [Tree.get?_graft_append] at hnode
        have hrel := args.staged.hasRecord_recorded ⟨node, hnode, hrecord⟩
        exact absurd (by rw [hrel, append_nil]) hxk
      · rw [Tree.get?_graft_of_not_prefix _ _ hk] at hnode
        exact ⟨node, hnode, hrecord⟩
    exact (hall x hold).keeps hD hkeeps hold

theorem resolve_cases (args : CommitArgs) (record : CommitRecord) (existing : Option CommitRecord) :
    (∃ held reason, args.resolve record existing = .finished (.conflict held reason)) ∨
      (∃ held, args.resolve record existing = .finished (.duplicate held)) ∨
      ∃ held, args.resolve record existing = .verifying held := by
  unfold CommitArgs.resolve
  cases existing with
  | none => exact .inl ⟨_, _, rfl⟩
  | some held =>
    dsimp only
    split
    · split
      · split
        · exact .inl ⟨_, _, rfl⟩
        · exact .inr (.inr ⟨held, rfl⟩)
      · exact .inr (.inl ⟨held, rfl⟩)
    · exact .inl ⟨_, _, rfl⟩

theorem commitStep_ok (hD : D.Lawful) (hall : AllSealed D store) (hok : CommitOk D args store pc)
    (ht : commitStep D args store pc = some (store', pc')) :
    AllSealed D store' ∧ Keeps store store' ∧ CommitOk D args store' pc' := by
  cases commitStep_move D ht with
  | parent hparent =>
    refine ⟨hall, .refl _, hasMeta_iff.mpr hparent, fun y _ hlt hrecord => ?_⟩
    obtain rfl : y = [] := length_eq_zero_iff.mp (by omega)
    exact (hall [] hrecord).ne_nil rfl
  | ancestor hdepth hnone =>
    refine ⟨hall, .refl _, hok.1, fun y hy hlt => ?_⟩
    rcases Nat.lt_succ_iff_lt_or_eq.mp hlt with hlt | heq
    · exact hok.2 y hy hlt
    · -- the ancestor that was looked at
      rw [prefix_iff_eq_take.mp hy, heq]
      exact fun h => hnone (hasRecord_iff.mp h)
  | ancestorsPassed hdepth =>
    refine ⟨hall, .refl _, hok.1, fun y hy => hok.2 y hy ?_⟩
    have := hy.length_le
    omega
  | digested hstaged => exact ⟨hall, .refl _, hok, hstaged⟩
  | @landed record hdir hvacant =>
    obtain ⟨hclear, hstaged⟩ := hok
    obtain ⟨hall', hkeeps⟩ := allSealed_landing hD hall hclear hvacant hstaged
    refine ⟨hall', hkeeps, ?_⟩
    have hroot := Tree.get?_graft_append store (args.staged.recorded record) args.key []
    rw [append_nil] at hroot
    change readRecord D _ = _
    rw [hroot]
    exact readRecord_recorded hD args hstaged
  | synced hdir => exact ⟨hall, .refl _, hok⟩
  | read hdone =>
    refine ⟨hall, .refl _, ?_⟩
    rcases resolve_cases args _ _ with ⟨held, reason, heq⟩ | ⟨held, heq⟩ | ⟨held, heq⟩ <;>
      · rw [heq]
        trivial
  | noParent | inCommitted | notDigested | occupied | notLanded | notSynced | readsOn | notRead
  | notVerified | intact | damaged => exact ⟨hall, .refl _, trivial⟩

/-! ## `create_store` -/

theorem createStep_ok {args : CreateArgs} {pc pc' : CreatePc} (hall : AllSealed D store)
    (ht : createStep args store pc = some (store', pc')) :
    AllSealed D store' ∧ Keeps store store' := by
  cases pc with
  | landing =>
    unfold createStep at ht
    dsimp only at ht
    split at ht
    · next hvacant =>
      cases ht
      have hnone : ∀ rel, ¬ HasRecord args.staged.tree rel := args.staged.not_hasRecord
      refine ⟨fun x hx => ?_, keeps_graft hvacant ?_ fun rel hrel => absurd hrel (hnone rel)⟩
      · obtain ⟨node, hnode, hrecord⟩ := hx
        have hroot := Tree.get?_graft_append store args.staged.tree [] x
        rw [nil_append] at hroot
        exact absurd ⟨node, hroot ▸ hnode, hrecord⟩ (hnone x)
      · exact fun y hy hne => absurd (prefix_nil.mp hy) hne
    · cases ht
      exact ⟨hall, .refl _⟩
  | staging =>
    cases ht
    exact ⟨hall, .refl _⟩
  | syncing =>
    cases ht
    exact ⟨hall, .refl _⟩
  | finished | crashed => exact nomatch ht

/-! ## `lookup` -/

/-- What the walk over a committed key has read so far, and where it still comes by. -/
structure Walked (store : Store) (key : Path) (stack : List Path) (read : Store) : Prop where
  sound : ∀ e ∈ read, store.get? (key ++ e.1) = some e.2
  complete : ∀ rel node, store.get? (key ++ rel) = some node →
    read.get? rel = some node ∨ ∃ v ∈ stack, v <+: rel

theorem walked_start (store : Store) (key : Path) : Walked store key [[]] [] where
  sound _ he := absurd he not_mem_nil
  complete _ _ _ := .inr ⟨[], mem_singleton_self _, nil_prefix⟩

theorem Walked.step {key rel : Path} {stack : List Path} {read : Store}
    (h : Walked store key (rel :: stack) read) :
    Walked store key ((store.children (key ++ rel)).map (fun name => rel ++ [name]) ++ stack)
      (readDir store (key ++ rel) rel read) := by
  have hread : ∀ x node, read.get? x = some node →
      (readDir store (key ++ rel) rel read).get? x = some node := by
    intro x node hx
    unfold readDir
    cases store.get? (key ++ rel) with
    | none => exact hx
    | some here => rw [Tree.get?_append, hx]; rfl
  have hsound : ∀ e ∈ readDir store (key ++ rel) rel read, store.get? (key ++ e.1) = some e.2 := by
    intro e he
    unfold readDir at he
    cases hhere : store.get? (key ++ rel) with
    | none =>
      rw [hhere] at he
      exact h.sound e he
    | some here =>
      rw [hhere] at he
      rcases mem_append.mp he with he | he
      · exact h.sound e he
      · obtain rfl := mem_singleton.mp he
        exact hhere
  refine ⟨hsound, fun x node hx => ?_⟩
  rcases h.complete x node hx with hold | ⟨v, hv, hvx⟩
  · exact .inl (hread x node hold)
  rcases mem_cons.mp hv with rfl | hv
  · obtain ⟨rest, rfl⟩ := hvx
    cases rest with
    | nil =>
      -- the directory that is read in this step
      rw [append_nil] at hx ⊢
      left
      cases hold : read.get? v with
      | some node' =>
        have := h.sound _ (Tree.mem_of_get? hold)
        rw [hread v node' hold, ← hx, this]
      | none =>
        unfold readDir
        rw [hx]
        dsimp only
        rw [Tree.get?_append, hold, Tree.get?_cons, if_pos rfl]
        rfl
    | cons name rest =>
      right
      refine ⟨v ++ [name], mem_append_left _ (mem_map_of_mem ?_), rest, by simp⟩
      have hbelow : store.get? ((key ++ v) ++ name :: rest) = some node := by rwa [append_assoc]
      exact Tree.mem_children hbelow
  · exact .inr ⟨v, mem_append_right _ hv, hvx⟩

theorem Walked.content (hD : D.Lawful) {key : Path} {read : Store}
    (h : Walked store key [] read) : D.content read = D.content (store.sub key) := by
  refine hD.determined fun rel => congrArg _ ?_
  rw [Tree.get?_sub]
  cases hnode : store.get? (key ++ rel) with
  | some node =>
    exact (h.complete rel node hnode).resolve_right fun ⟨v, hv, _⟩ => not_mem_nil hv
  | none =>
    cases hread : read.get? rel with
    | none => rfl
    | some node =>
      have := h.sound _ (Tree.mem_of_get? hread)
      exact absurd (hnode.symm.trans this) (by simp)

/-- What a `lookup` has read of a committed key. -/
def LookupOk (D : Digests) (args : LookupArgs) (store : Store) : LookupPc → Prop
  | .hashing record stack read =>
      readRecord D (store.get? args.key) = some record ∧ Walked store args.key stack read
  | _ => True

variable {look : LookupArgs} {lpc lpc' : LookupPc}

theorem LookupOk.keeps (hkeeps : Keeps store store') (h : LookupOk D look store lpc) :
    LookupOk D look store' lpc := by
  cases lpc with
  | hashing record stack read =>
    have hrecord := hasRecord_of_readRecord h.1
    refine ⟨hkeeps.readRecord h.1, fun e he => ?_, fun rel node hnode => ?_⟩
    · rw [hkeeps.trees _ hrecord]
      exact h.2.sound e he
    · rw [hkeeps.trees _ hrecord] at hnode
      exact h.2.complete rel node hnode
  | _ => trivial

theorem lookupStep_ok (hok : LookupOk D look store lpc)
    (ht : lookupStep D look store lpc = some lpc') : LookupOk D look store lpc' := by
  cases lpc with
  | testing =>
    unfold lookupStep at ht
    dsimp only at ht
    split at ht <;> obtain rfl := some.inj ht <;> trivial
  | reading rpc =>
    unfold lookupStep at ht
    dsimp only at ht
    split at ht
    · obtain rfl := some.inj ht
      trivial
    · obtain rfl := some.inj ht
      trivial
    · obtain rfl := some.inj ht
      trivial
    · next record hdone =>
      split at ht
      · obtain rfl := some.inj ht
        trivial
      · split at ht
        · obtain rfl := some.inj ht
          exact ⟨readRecord_of_done D hdone, walked_start _ _⟩
        · obtain rfl := some.inj ht
          trivial
  | hashing record stack read =>
    cases stack with
    | cons =>
      obtain rfl := some.inj ht
      exact ⟨hok.1, hok.2.step⟩
    | nil =>
      unfold lookupStep at ht
      dsimp only at ht
      split at ht <;> obtain rfl := some.inj ht <;> trivial
  | finished | crashed => exact nomatch ht

/-- **No committed key is corrupt.** -/
theorem lookupStep_not_corrupt (hD : D.Lawful) (hsealed : Sealed D store look.key)
    (hok : LookupOk D look store lpc) (ht : lookupStep D look store lpc = some lpc') :
    lpc' ≠ .finished .corrupt := by
  obtain ⟨r, hr, hcontent⟩ := hsealed.valid
  cases lpc with
  | testing =>
    unfold lookupStep at ht
    dsimp only at ht
    split at ht <;> obtain rfl := some.inj ht <;> nofun
  | reading rpc =>
    unfold lookupStep at ht
    dsimp only at ht
    split at ht
    · obtain rfl := some.inj ht
      nofun
    · obtain rfl := some.inj ht
      nofun
    · next hdone =>
      have := readRecord_of_done D hdone
      exact absurd (hr.symm.trans this) (by simp)
    · split at ht
      · obtain rfl := some.inj ht
        nofun
      · split at ht <;> obtain rfl := some.inj ht <;> nofun
  | hashing record stack read =>
    cases stack with
    | cons =>
      obtain rfl := some.inj ht
      nofun
    | nil =>
      obtain ⟨hrecord, hwalked⟩ := hok
      obtain rfl := some.inj (hr.symm.trans hrecord)
      unfold lookupStep at ht
      dsimp only at ht
      rw [if_pos ((hwalked.content hD).trans hcontent)] at ht
      obtain rfl := some.inj ht
      nofun
  | finished | crashed => exact nomatch ht

/-! ## A later `commit_key` -/

/-- A bound on the steps a `commit_key` has before it. -/
def CommitPc.stepsLeft (args : CommitArgs) : CommitPc → Nat
  | .checkingParent => args.parent.length + 9
  | .checkingAncestor depth => args.parent.length + 1 - depth + 8
  | .digesting => 7
  | .landing _ => 6
  | .reading _ .isFile => 5
  | .reading _ .nodeType => 4
  | .reading _ .attrs => 3
  | .verifying _ => 2
  | .syncing _ => 1
  | .finished _ | .crashed => 0

theorem stepsLeft_of_more {node : Option Node} {rpc rpc' : ReadPc} (record : CommitRecord)
    (h : recordStep D node rpc = .more rpc') :
    (CommitPc.reading record rpc').stepsLeft args < (CommitPc.reading record rpc).stepsLeft args := by
  unfold recordStep at h
  cases rpc with
  | isFile =>
    dsimp only at h
    split at h
    · exact nomatch h
    · obtain rfl := ReadOutcome.more.inj h
      exact Nat.lt_succ_self 4
  | nodeType =>
    dsimp only at h
    split at h
    · exact nomatch h
    · split at h
      · obtain rfl := ReadOutcome.more.inj h
        exact Nat.lt_succ_self 3
      · exact nomatch h
  | attrs =>
    dsimp only at h
    split at h
    · cases h
    · split at h <;> cases h

theorem stepsLeft_resolve (record : CommitRecord) (existing : Option CommitRecord) :
    (args.resolve record existing).stepsLeft args ≤ 2 := by
  rcases resolve_cases args record existing with
    ⟨held, reason, heq⟩ | ⟨held, heq⟩ | ⟨held, heq⟩
  · rw [heq]
    exact Nat.zero_le 2
  · rw [heq]
    exact Nat.zero_le 2
  · rw [heq]
    exact le_refl 2

theorem two_lt_stepsLeft_reading (record : CommitRecord) (rpc : ReadPc) :
    2 < (CommitPc.reading record rpc).stepsLeft args := by
  cases rpc <;> simp only [CommitPc.stepsLeft] <;> omega

theorem CommitMove.stepsLeft_lt (h : CommitMove D args store pc store' pc') :
    pc'.stepsLeft args < pc.stepsLeft args := by
  cases h with
  | readsOn hmore => exact stepsLeft_of_more _ hmore
  | read hdone => exact (stepsLeft_resolve _ _).trans_lt (two_lt_stepsLeft_reading _ _)
  | notRead hraised => exact (Nat.zero_le 2).trans_lt (two_lt_stepsLeft_reading _ _)
  | _ =>
    simp only [CommitPc.stepsLeft]
    omega

theorem commitStep_isSome (h : pc.Running) : (commitStep D args store pc).isSome = true := by
  cases pc with
  | finished | crashed => exact h.elim
  | _ =>
    unfold commitStep
    dsimp only
    repeat' split
    all_goals rfl

theorem commitStep_ends (h : pc.Running) : ∃ store' pc',
    commitStep D args store pc = some (store', pc') ∧ pc'.stepsLeft args < pc.stepsLeft args := by
  obtain ⟨⟨store', pc'⟩, ht⟩ := isSome_iff_exists.mp (commitStep_isSome (D := D) h)
  exact ⟨store', pc', ht, (commitStep_move D ht).stepsLeft_lt⟩

/-- The commit has put its directory in place. -/
def CommitPc.Landed : CommitPc → Prop
  | .syncing _ | .finished (.committed _) => True
  | _ => False

theorem vacant_of_landed (ht : commitStep D args store pc = some (store', pc'))
    (h : pc'.Landed) : pc.Landed ∨ Vacant store args.key := by
  cases commitStep_move D ht with
  | landed hdir hvacant => exact .inr hvacant
  | synced hdir => exact .inl trivial
  | @read record _ existing hdone =>
    rcases resolve_cases args record existing with
      ⟨held, reason, heq⟩ | ⟨held, heq⟩ | ⟨held, heq⟩ <;>
      · rw [heq] at h
        exact h.elim
  | _ => exact h.elim

/-- How a commit at a committed key may end: `Duplicate`, `CommitConflictError`, or what
digesting its own staged directory or its record raises. -/
def Answered (D : Digests) (args : CommitArgs) : CommitPc → Prop
  | .finished (.duplicate _) | .finished (.conflict _ _) => True
  | .finished .raised => args.stagedRecord D = none
  | .finished (.committed _) | .finished (.unknownPrefix _ _) | .syncing _ => False
  | _ => True

theorem resolve_answered (record : CommitRecord) (existing : Option CommitRecord) :
    Answered D args (args.resolve record existing) := by
  rcases resolve_cases args record existing with
    ⟨held, reason, heq⟩ | ⟨held, heq⟩ | ⟨held, heq⟩ <;>
    · rw [heq]
      trivial

theorem recordStep_not_raised (h : readRecord D (store.get? k) = some r) (rpc : ReadPc) :
    recordStep D (store.get? k) rpc ≠ .raised := by
  obtain ⟨node, json, hnode, hjson⟩ := (hasRecord_of_readRecord h).hasMeta
  have hreads := readRaises_of_readRecord D h
  intro hraised
  unfold recordStep at hraised
  rw [readRaises, hnode, bind_some, hjson] at hreads
  rw [hnode, bind_some, hjson] at hraised
  cases rpc with
  | isFile => cases hraised
  | nodeType =>
    dsimp only at hraised
    split at hraised <;> cases hraised
  | attrs =>
    dsimp only at hraised hreads
    rw [hreads] at hraised
    cases hraised

/-- **A commit at a committed key** does not get further. -/
theorem commitStep_answered (hsealed : Sealed D store args.key) (h : Answered D args pc)
    (ht : commitStep D args store pc = some (store', pc')) : Answered D args pc' := by
  obtain ⟨r, hr, -⟩ := hsealed.valid
  have hmeta : HasMeta store args.key := (hasRecord_of_readRecord hr).hasMeta
  have hparent : HasMeta store args.parent := hsealed.parent
  cases commitStep_move D ht with
  | noParent hnone => exact absurd (hasMeta_iff.mp hparent) hnone
  | @inCommitted depth hdepth hattr =>
    have habove : args.parent.take depth <+: args.key :=
      (List.take_prefix _ _).trans args.parent_prefix
    have hne : args.parent.take depth ≠ args.key := by
      intro heq
      have hlength := congrArg length heq
      have hpos := length_pos_iff.mpr args.key_ne_nil
      rw [length_take, CommitArgs.parent, length_dropLast] at hlength
      omega
    exact absurd (hasRecord_iff.mpr hattr) (hsealed.alone _ habove hne)
  | notDigested hnone => exact hnone
  | landed hdir hvacant => exact absurd hmeta (not_hasMeta_of_vacant hvacant prefix_rfl)
  | notLanded hdir => exact absurd (hparent.isDir prefix_rfl) hdir
  | read hdone => exact resolve_answered _ _
  | notRead hraised => exact absurd hraised (recordStep_not_raised hr _)
  | notVerified hraised =>
    rw [readRaises_of_readRecord D hr] at hraised
    cases hraised
  | synced | notSynced => exact h.elim
  | parent | ancestor | ancestorsPassed | digested | occupied | readsOn | intact | damaged => trivial

/-! ## Runs -/

section Runs

variable {C P L : Type} {creates : C → CreateArgs} {commits : P → CommitArgs}
  {lookups : L → LookupArgs} {s t : StoreState C P L}

/-- The invariant of a run. -/
structure StoreSound (D : Digests) (commits : P → CommitArgs) (lookups : L → LookupArgs)
    (s : StoreState C P L) : Prop where
  all_sealed : AllSealed D s.store
  commit : ∀ p, CommitOk D (commits p) s.store (s.commit p)
  lookup : ∀ l, LookupOk D (lookups l) s.store (s.lookup l)
  once : ∀ p q, (s.commit p).Landed → (s.commit q).Landed → (commits p).key = (commits q).key → p = q

theorem hasRecord_of_landed (hok : CommitOk D args store pc) (h : pc.Landed) :
    HasRecord store args.key := by
  cases pc with
  | syncing record => exact hasRecord_of_readRecord hok
  | finished outcome =>
    cases outcome with
    | committed record => exact hasRecord_of_readRecord hok
    | _ => exact h.elim
  | _ => exact h.elim

theorem storeSound_initial (h : StoreInitial s) : StoreSound D commits lookups s where
  all_sealed k hk := absurd hk.hasMeta (not_hasMeta_of_vacant h.vacant nil_prefix)
  commit p := by
    rw [h.commit]
    trivial
  lookup l := by
    rw [h.lookup]
    trivial
  once p q hp := by
    rw [h.commit] at hp
    exact hp.elim

theorem StoreSound.keeps (h : StoreSound D commits lookups s) (hall : AllSealed D store)
    (hkeeps : Keeps s.store store) : StoreSound D commits lookups { s with store := store } where
  all_sealed := hall
  commit p := (h.commit p).keeps hkeeps
  lookup l := (h.lookup l).keeps hkeeps
  once := h.once

variable [DecidableEq C] [DecidableEq P] [DecidableEq L]

omit [DecidableEq C] [DecidableEq L] in
theorem StoreSound.commit_goto (h : StoreSound D commits lookups s) {p : P} {pc : CommitPc}
    (hok : CommitOk D (commits p) s.store pc)
    (honce : pc.Landed → (s.commit p).Landed ∨ ∀ q, (s.commit q).Landed →
      (commits q).key ≠ (commits p).key) :
    StoreSound D commits lookups { s with commit := update s.commit p pc } where
  all_sealed := h.all_sealed
  commit q := by
    dsimp only
    by_cases hq : q = p
    · subst hq
      rwa [update_self]
    · rw [update_of_ne hq]
      exact h.commit q
  lookup := h.lookup
  once := by
    -- a landing of `p` against one of another call
    have hother : ∀ q, q ≠ p → pc.Landed → (s.commit q).Landed →
        (commits q).key ≠ (commits p).key := by
      intro q hq hlanded hlanded' hkey
      rcases honce hlanded with hbefore | hnone
      · exact hq (h.once q p hlanded' hbefore hkey)
      · exact hnone q hlanded' hkey
    intro q q' hq hq' hkey
    dsimp only at hq hq'
    by_cases hqp : q = p
    · by_cases hqp' : q' = p
      · rw [hqp, hqp']
      · rw [hqp, update_self] at hq
        rw [update_of_ne hqp'] at hq'
        exact absurd (hqp ▸ hkey.symm) (hother q' hqp' hq hq')
    · rw [update_of_ne hqp] at hq
      by_cases hqp' : q' = p
      · rw [hqp', update_self] at hq'
        exact absurd (hqp' ▸ hkey) (hother q hqp hq' hq)
      · rw [update_of_ne hqp'] at hq'
        exact h.once q q' hq hq' hkey

omit [DecidableEq C] [DecidableEq P] in
theorem StoreSound.lookup_goto (h : StoreSound D commits lookups s) {l : L} {pc : LookupPc}
    (hok : LookupOk D (lookups l) s.store pc) :
    StoreSound D commits lookups { s with lookup := update s.lookup l pc } where
  all_sealed := h.all_sealed
  commit := h.commit
  lookup l' := by
    dsimp only
    by_cases hl : l' = l
    · subst hl
      rwa [update_self]
    · rw [update_of_ne hl]
      exact h.lookup l'
  once := h.once

/-- **Every step keeps** what the store has, and the invariant. -/
theorem store_step (hD : D.Lawful) {e : StoreEvent C P L} (h : StoreSound D commits lookups s)
    (ht : (storeMachine D creates commits lookups).step s e = some t) :
    StoreSound D commits lookups t ∧ Keeps s.store t.store := by
  cases e with
  | create c =>
    obtain ⟨⟨store, pc⟩, hstep, rfl⟩ := map_eq_some_iff.mp ht
    obtain ⟨hall, hkeeps⟩ := createStep_ok h.all_sealed hstep
    have hsound := h.keeps hall hkeeps
    exact ⟨⟨hsound.all_sealed, hsound.commit, hsound.lookup, hsound.once⟩, hkeeps⟩
  | commit p =>
    obtain ⟨⟨store, pc⟩, hstep, rfl⟩ := map_eq_some_iff.mp ht
    obtain ⟨hall, hkeeps, hok⟩ := commitStep_ok hD h.all_sealed (h.commit p) hstep
    refine ⟨(h.keeps hall hkeeps).commit_goto hok fun hlanded => ?_, hkeeps⟩
    refine (vacant_of_landed hstep hlanded).imp_right fun hvacant q hq hkey => ?_
    have hrecord := hasRecord_of_landed (h.commit q) hq
    exact not_hasMeta_of_vacant hvacant (hkey ▸ prefix_rfl) hrecord.hasMeta
  | lookup l =>
    obtain ⟨pc, hstep, rfl⟩ := map_eq_some_iff.mp ht
    exact ⟨h.lookup_goto (lookupStep_ok (h.lookup l) hstep), .refl _⟩
  | crashCreate c =>
    obtain ⟨-, ht⟩ := ite_none_right_eq_some.mp ht
    obtain rfl := some.inj ht
    exact ⟨⟨h.all_sealed, h.commit, h.lookup, h.once⟩, .refl _⟩
  | crashCommit p =>
    obtain ⟨-, ht⟩ := ite_none_right_eq_some.mp ht
    obtain rfl := some.inj ht
    exact ⟨h.commit_goto trivial False.elim, .refl _⟩
  | crashLookup l =>
    obtain ⟨-, ht⟩ := ite_none_right_eq_some.mp ht
    obtain rfl := some.inj ht
    exact ⟨h.lookup_goto trivial, .refl _⟩

theorem storeSound_of_reachable (hD : D.Lawful)
    (h : (storeMachine D creates commits lookups).Reachable s) :
    StoreSound D commits lookups s :=
  h.invariant (I := StoreSound D commits lookups) (fun _ => storeSound_initial)
    fun _ _ _ hs _ hstep => (store_step hD hs hstep).1

theorem commit_of_step {e : StoreEvent C P L}
    (ht : (storeMachine D creates commits lookups).step s e = some t) (p : P) :
    t.commit p = s.commit p ∨ t.commit p = .crashed ∨
      ∃ store, commitStep D (commits p) s.store (s.commit p) = some (store, t.commit p) := by
  cases e with
  | commit p' =>
    obtain ⟨⟨store, pc⟩, hstep, rfl⟩ := map_eq_some_iff.mp ht
    dsimp only
    by_cases hp : p = p'
    · subst hp
      rw [update_self]
      exact .inr (.inr ⟨store, hstep⟩)
    · exact .inl (update_of_ne hp _ _)
  | crashCommit p' =>
    obtain ⟨-, ht⟩ := ite_none_right_eq_some.mp ht
    obtain rfl := some.inj ht
    dsimp only
    by_cases hp : p = p'
    · subst hp
      exact .inr (.inl (update_self _ _ _))
    · exact .inl (update_of_ne hp _ _)
  | create c =>
    obtain ⟨⟨store, pc⟩, -, rfl⟩ := map_eq_some_iff.mp ht
    exact .inl rfl
  | lookup l =>
    obtain ⟨pc, -, rfl⟩ := map_eq_some_iff.mp ht
    exact .inl rfl
  | crashCreate _ | crashLookup _ =>
    obtain ⟨-, ht⟩ := ite_none_right_eq_some.mp ht
    obtain rfl := some.inj ht
    exact .inl rfl

theorem lookup_of_step {e : StoreEvent C P L}
    (ht : (storeMachine D creates commits lookups).step s e = some t) (l : L) :
    t.lookup l = s.lookup l ∨ t.lookup l = .crashed ∨
      lookupStep D (lookups l) s.store (s.lookup l) = some (t.lookup l) := by
  cases e with
  | lookup l' =>
    obtain ⟨pc, hstep, rfl⟩ := map_eq_some_iff.mp ht
    dsimp only
    by_cases hl : l = l'
    · subst hl
      rw [update_self]
      exact .inr (.inr hstep)
    · exact .inl (update_of_ne hl _ _)
  | crashLookup l' =>
    obtain ⟨-, ht⟩ := ite_none_right_eq_some.mp ht
    obtain rfl := some.inj ht
    dsimp only
    by_cases hl : l = l'
    · subst hl
      exact .inr (.inl (update_self _ _ _))
    · exact .inl (update_of_ne hl _ _)
  | create _ | commit _ =>
    obtain ⟨⟨store, pc⟩, -, rfl⟩ := map_eq_some_iff.mp ht
    exact .inl rfl
  | crashCreate _ | crashCommit _ =>
    obtain ⟨-, ht⟩ := ite_none_right_eq_some.mp ht
    obtain rfl := some.inj ht
    exact .inl rfl

/-- What is promised of a key from the state `s` on, in which it is committed. -/
structure KeyPromises (D : Digests) (commits : P → CommitArgs) (lookups : L → LookupArgs)
    (k : Path) (s t : StoreState C P L) : Prop where
  /-- Arrays, attributes and record are what they were. -/
  unchanged : ∀ rel, t.store.get? (k ++ rel) = s.store.get? (k ++ rel)
  /-- Another commit that had not landed ends in `Duplicate` or `CommitConflictError`, or
  cannot digest its own staged directory or its record. -/
  answered : ∀ p, (commits p).key = k → (s.commit p).Running → ¬ (s.commit p).Landed →
    Answered D (commits p) (t.commit p)
  /-- A lookup that had not answered does not answer `Corrupt`. -/
  not_corrupt : ∀ l, (lookups l).key = k → (s.lookup l).Running → t.lookup l ≠ .finished .corrupt

omit [DecidableEq C] [DecidableEq P] [DecidableEq L] in
theorem keyPromises_start {k : Path} : KeyPromises D commits lookups k s s where
  unchanged _ := rfl
  answered p _ hrunning hlanded := by
    cases hpc : s.commit p <;> rw [hpc] at hrunning hlanded
    case syncing => exact absurd trivial hlanded
    case finished => exact hrunning.elim
    all_goals trivial
  not_corrupt l _ hrunning h := by
    rw [h] at hrunning
    exact hrunning

theorem keyPromises_step (hD : D.Lawful) {k : Path} {s₀ : StoreState C P L}
    {e : StoreEvent C P L} (hs : StoreSound D commits lookups s) (hk : HasRecord s.store k)
    (h : KeyPromises D commits lookups k s₀ s)
    (ht : (storeMachine D creates commits lookups).step s e = some t) :
    KeyPromises D commits lookups k s₀ t where
  unchanged rel := ((store_step hD hs ht).2.trees k hk rel).trans (h.unchanged rel)
  answered p hp hrunning hlanded := by
    have hbefore := h.answered p hp hrunning hlanded
    rcases commit_of_step ht p with heq | heq | ⟨store, hstep⟩
    · rwa [heq]
    · rw [heq]
      trivial
    · exact commitStep_answered (hp ▸ hs.all_sealed k hk) hbefore hstep
  not_corrupt l hl hrunning := by
    rcases lookup_of_step ht l with heq | heq | hstep
    · rw [heq]
      exact h.not_corrupt l hl hrunning
    · rw [heq]
      nofun
    · exact lookupStep_not_corrupt hD (hl ▸ hs.all_sealed k hk) (hs.lookup l) hstep

theorem keyPromises_run (hD : D.Lawful) {k : Path} (hs : StoreSound D commits lookups s)
    (hk : HasRecord s.store k) {events : List (StoreEvent C P L)}
    (ht : (storeMachine D creates commits lookups).run s events = some t) :
    KeyPromises D commits lookups k s t := by
  have hinv := Machine.run_invariant (M := storeMachine D creates commits lookups)
    (I := fun u => StoreSound D commits lookups u ∧ HasRecord u.store k ∧
      KeyPromises D commits lookups k s u)
    (fun u e v ⟨hu, hrecord, hpromises⟩ hstep => by
      obtain ⟨hv, hkeeps⟩ := store_step hD hu hstep
      exact ⟨hv, hkeeps.hasRecord hrecord, keyPromises_step hD hu hrecord hpromises hstep⟩)
    ⟨hs, hk, keyPromises_start⟩ ht
  exact hinv.2.2

/-- The promises of a durable store, in a state of a run. -/
structure DurableCommits (D : Digests) (creates : C → CreateArgs) (commits : P → CommitArgs)
    (lookups : L → LookupArgs) (s : StoreState C P L) : Prop where
  /-- At most one commit of a key returns `Committed`. -/
  once : ∀ p q r r', (commits p).key = (commits q).key →
    s.commit p = .finished (.committed r) → s.commit q = .finished (.committed r') → p = q
  flat : Flat D s.store
  /-- A key with a record that reads back keeps its promises. -/
  promises : ∀ k, Recorded D s.store k → ∀ events t,
    (storeMachine D creates commits lookups).run s events = some t →
      KeyPromises D commits lookups k s t
  ends : ∀ p, (s.commit p).Running → ∃ store pc,
    commitStep D (commits p) s.store (s.commit p) = some (store, pc) ∧
      pc.stepsLeft (commits p) < (s.commit p).stepsLeft (commits p)

end Runs

/-! ## A store with one key -/

namespace OneKey

/-- The digest of a group is the text of its attributes; neither digest takes a `NaN`. -/
def digestOf : Option Node → Option String
  | some ⟨some json, _⟩ =>
    if json.nodeType = .group ∧ json.attributes ≠ "NaN" then some json.attributes else none
  | _ => none

def digests : Digests where
  record inputDigest contentDigest body :=
    if body = "NaN" then none else some (inputDigest ++ contentDigest ++ body)
  content t := digestOf (t.get? [])

theorem digests_lawful : digests.Lawful where
  opens {t digest} h := by
    change digestOf (t.get? []) = some digest at h
    cases hnode : t.get? [] with
    | none => rw [hnode] at h; exact nomatch h
    | some node =>
      obtain ⟨_ | json, files⟩ := node
      · rw [hnode] at h
        exact nomatch h
      · rw [hnode] at h
        refine ⟨_, json, rfl, rfl, ?_⟩
        by_contra hgroup
        rw [digestOf, if_neg fun h => hgroup h.1] at h
        exact nomatch h
  determined {t u} h := by
    have hunrecorded : ∀ node : Option Node, digestOf node = digestOf (node.map Node.unrecorded) := by
      rintro (_ | ⟨_ | json, files⟩) <;> rfl
    change digestOf (t.get? []) = digestOf (u.get? [])
    rw [hunrecorded, hunrecorded (u.get? []), h []]

def stagedGroup (attributes : String) : Staged where
  tree := [([], plainGroup attributes)]
  plain := by
    intro e he
    obtain rfl := List.mem_singleton.mp he
    rfl

/-- A store with the prefix `p`. -/
def creates : Unit → CreateArgs := fun _ =>
  { staged := ⟨[([], plainGroup ""), (["p"], plainGroup "")], by decide⟩ }

/-- Two commits of `p/c`; the second has a `NaN` in its `meta`. -/
def commits : Bool → CommitArgs := fun second =>
  { key := ["p", "c"]
    key_ne_nil := child_ne_nil
    staged := stagedGroup "data"
    inputDigest := "d"
    body := if second then "NaN" else "" }

def lookups : Unit → LookupArgs := fun _ => { key := ["p", "c"], inputDigest := "d" }

def start : StoreState Unit Bool Unit where
  store := []
  create := fun _ => .staging
  commit := fun _ => .checkingParent
  lookup := fun _ => .testing

theorem start_initial : StoreInitial start where
  vacant := by decide
  create _ := rfl
  commit _ := rfl
  lookup _ := rfl

theorem committed : ∃ s, (storeMachine digests creates commits lookups).Reachable s ∧
    Recorded digests s.store ["p", "c"] ∧ s.commit true = .checkingParent := by
  have hr : ∃ s, (storeMachine digests creates commits lookups).run start
      (replicate 3 (.create ()) ++ replicate 6 (.commit false)) = some s ∧
      Recorded digests s.store ["p", "c"] ∧ s.commit true = .checkingParent :=
    ⟨_, rfl, rfl, rfl⟩
  obtain ⟨s, hrun, hs⟩ := hr
  exact ⟨s, Machine.reachable_of_run start_initial hrun, hs⟩

end OneKey

end Xtrax.ZarrCommit
