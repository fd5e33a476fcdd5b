import Xtrax.ZarrCommit

/-! # What a quarantine takes along

`quarantine` refuses a prefix that holds committed keys, and puts a valid group back
that a racing writer made.  The first check comes before the rename and looks below
the key; the second comes after it and looks at the key alone.  A commit that lands
below the key in between is moved out of the store.

`SafeLandings` is the condition on the renames that put a key in place: the walk of
every quarantine above the key will still come by, and no ancestor is a committed key.
-/
namespace Xtrax.ZarrCommit

open Function List Option DirTree Interleaving

variable (D : Digests)

/-- The directory has a record that verifies. -/
def Recorded (store : Store) (x : Path) : Prop := (readRecord D (store.get? x)).isSome

instance (store : Store) (x : Path) : Decidable (Recorded D store x) :=
  inferInstanceAs (Decidable (_ = true))

/-- The visit will come by the path. -/
def Visit.Covers (x : Path) : Visit → Prop
  | child d | dir d | record d _ => d <+: x
  | list d => d <+: x ∧ d ≠ x

instance (x : Path) : ∀ v : Visit, Decidable (v.Covers x)
  | .child d | .dir d | .record d _ => inferInstanceAs (Decidable (d <+: x))
  | .list d => inferInstanceAs (Decidable (d <+: x ∧ d ≠ x))

/-- A quarantine of a key above `k` will notice `k`, or has not looked yet. -/
def Noticed (k : Path) : QuarantinePc → Prop
  | .walking stack found => found ≠ [] ∨ ∃ v ∈ stack, v.Covers k
  | .moving => False
  | _ => True

instance (k : Path) (pc : QuarantinePc) : Decidable (Noticed k pc) := by
  unfold Noticed
  split <;> infer_instance

section
variable {P Q : Type}

/-- A group may be put in place at `k`: no ancestor is a committed key, and every
quarantine of a key above will notice it. -/
def LandsSafely (quarantines : Q → QuarantineArgs) (s : State P Q) (k : Path) : Prop :=
  (∀ y ∈ k.inits, y ≠ [] → y ≠ k → ¬ Recorded D s.store y) ∧
    ∀ q, (quarantines q).key <+: k → (quarantines q).key ≠ k → Noticed k (s.quarantine q)

instance [Fintype Q] (quarantines : Q → QuarantineArgs) (s : State P Q) (k : Path) :
    Decidable (LandsSafely D quarantines s k) :=
  inferInstanceAs (Decidable (_ ∧ _))

/-- Every rename into the store, by a commit or back from the quarantine, is safe. -/
def SafeLandings (commits : P → CommitArgs) (quarantines : Q → QuarantineArgs) (s : State P Q) :
    Event P Q → Prop
  | .commit p =>
    match s.commit p with
    | .landing _ => CanLand s.store (commits p).key → LandsSafely D quarantines s (commits p).key
    | _ => True
  | .quarantine q =>
    match s.quarantine q with
    | .puttingBack _ =>
      CanLand s.store (quarantines q).key → LandsSafely D quarantines s (quarantines q).key
    | _ => True
  | _ => True

instance [Fintype Q] (commits : P → CommitArgs) (quarantines : Q → QuarantineArgs)
    (s : State P Q) : ∀ e, Decidable (SafeLandings D commits quarantines s e)
  | .commit p => by
    unfold SafeLandings
    dsimp only
    split <;> infer_instance
  | .quarantine q => by
    unfold SafeLandings
    dsimp only
    split <;> infer_instance
  | .crashCommit _ | .crashQuarantine _ => .isTrue trivial

end

/-! ## The invariant -/

/-- No directory strictly below the root has a record. -/
def RootOnly (tree : Store) : Prop := ∀ x, Recorded D tree x → x = []

/-- Only the root of a returned tree may be a good commit, and then it is not the one
the caller wanted. -/
def OnlyStale (args : QuarantineArgs) (tree : Store) : Prop :=
  ∀ rel r, readRecord D (tree.get? rel) = some r → D.content (tree.sub rel) = some r.contentDigest →
    rel = [] ∧ ∃ expected, args.expectedInputDigest = some expected ∧ r.inputDigest ≠ expected

/-- What a quarantine has made sure of. -/
def Assured (args : QuarantineArgs) (store : Store) : QuarantinePc → Prop
  | .walking stack found => found = [] →
      ∀ x, Recorded D store x → args.key <+: x → args.key ≠ x → ∃ v ∈ stack, v.Covers x
  | .moving => ∀ x, Recorded D store x → args.key <+: x → args.key = x
  | .syncing tree | .checking tree | .puttingBack tree => RootOnly D tree
  | .finished (.moved tree) => OnlyStale D args tree
  | _ => True

/-- The invariant: committed keys are not nested, and every quarantine is assured. -/
structure Sound {P Q : Type} (quarantines : Q → QuarantineArgs) (s : State P Q) : Prop where
  flat : Flat D s.store
  assured : ∀ q, Assured D (quarantines q) s.store (s.quarantine q)

variable {D} {store : Store} {k x : Path} {args : QuarantineArgs} {pc : QuarantinePc}

theorem recorded_of_remove (h : Recorded D (store.remove k) x) : Recorded D store x := by
  unfold Recorded at h ⊢
  rw [Tree.get?_remove] at h
  split at h
  · simp [readRecord] at h
  · exact h

theorem recorded_sub : Recorded D (store.sub k) x ↔ Recorded D store (k ++ x) := by
  rw [Recorded, Recorded, Tree.get?_sub]

theorem isDir_of_recorded {dir : Path} (h : Recorded D store x) (hdir : dir <+: x) :
    store.IsDir dir := by
  cases hget : store.get? x with
  | none => simp [Recorded, hget, readRecord] at h
  | some node => exact Tree.isDir_of_get? hget hdir

theorem recorded_of_graft {tree : Store} (htree : RootOnly D tree)
    (h : Recorded D (store.graft k tree) x) : x = k ∨ Recorded D store x ∧ ¬ k <+: x := by
  by_cases hk : k <+: x
  · obtain ⟨rest, rfl⟩ := hk
    rw [Recorded, Tree.get?_graft_append] at h
    rw [htree rest h, append_nil]
    exact .inl rfl
  · rw [Recorded, Tree.get?_graft_of_not_prefix _ _ hk] at h
    exact .inr ⟨h, hk⟩

theorem assured_of_subset {store' : Store} (hsub : ∀ x, Recorded D store' x → Recorded D store x)
    (h : Assured D args store pc) : Assured D args store' pc := by
  cases pc with
  | walking stack found => exact fun hfound x hx => h hfound x (hsub x hx)
  | moving => exact fun x hx => h x (hsub x hx)
  | finished outcome => cases outcome <;> exact h
  | _ => exact h

theorem assured_of_noticed {store' : Store}
    (hsub : ∀ x, Recorded D store' x → x = k ∨ Recorded D store x)
    (hnoticed : args.key <+: k → args.key ≠ k → Noticed k pc) (h : Assured D args store pc) :
    Assured D args store' pc := by
  cases pc with
  | walking stack found =>
    intro hfound x hx hkey hne
    rcases hsub x hx with rfl | hold
    · exact (hnoticed hkey hne).resolve_left (not_not_intro hfound)
    · exact h hfound x hold hkey hne
  | moving =>
    intro x hx hkey
    rcases hsub x hx with rfl | hold
    · by_contra hne
      exact hnoticed hkey hne
    · exact h x hold hkey
  | finished outcome => cases outcome <;> exact h
  | _ => exact h

/-! ## The walk -/

/-- **One operation of the walk** leaves every committed key below the quarantined one
before the walk. -/
theorem assured_walkStep {found : List Path} {stack : List Visit} {visit : Visit}
    (h : Assured D args store (.walking (visit :: stack) found)) :
    Assured D args store (walkStep D store found stack visit) := by
  -- the visits that are replaced cover what the first one covered
  have hreplace : ∀ visits : List Visit,
      (∀ x, Recorded D store x → visit.Covers x → ∃ v ∈ visits, v.Covers x) →
      Assured D args store (.walking (visits ++ stack) found) := by
    intro visits hvisits hfound x hx hkey hne
    obtain ⟨v, hv, hcov⟩ := h hfound x hx hkey hne
    rcases mem_cons.mp hv with rfl | hv
    · obtain ⟨w, hw, hwcov⟩ := hvisits x hx hcov
      exact ⟨w, mem_append_left _ hw, hwcov⟩
    · exact ⟨v, mem_append_right _ hv, hcov⟩
  cases visit with
  | child dir =>
    by_cases hd : store.IsDir dir
    · simp only [walkStep, if_pos hd]
      exact hreplace [.dir dir] fun x _ hcov => ⟨_, mem_singleton_self _, hcov⟩
    · simp only [walkStep, if_neg hd]
      exact hreplace [] fun x hx hcov => absurd (isDir_of_recorded hx hcov) hd
  | dir dir =>
    by_cases hd : store.IsDir dir
    · simp only [walkStep, if_pos hd]
      exact hreplace [.record dir .isFile] fun x _ hcov => ⟨_, mem_singleton_self _, hcov⟩
    · simp only [walkStep, if_neg hd]
      exact hreplace [] fun x hx hcov => absurd (isDir_of_recorded hx hcov) hd
  | record dir pc =>
    cases hstep : recordStep D (store.get? dir) pc with
    | more pc' =>
      simp only [walkStep, hstep]
      exact hreplace [.record dir pc'] fun x _ hcov => ⟨_, mem_singleton_self _, hcov⟩
    | raised =>
      simp only [walkStep, hstep]
      trivial
    | done record =>
      cases record with
      | some r =>
        simp only [walkStep, hstep]
        exact fun hfound => absurd hfound (by simp)
      | none =>
        simp only [walkStep, hstep]
        refine hreplace [.list dir] fun x hx hcov => ⟨_, mem_singleton_self _, hcov, ?_⟩
        rintro rfl
        rw [Recorded, readRecord_of_done D hstep] at hx
        cases hx
  | list dir =>
    refine hreplace _ fun x hx hcov => ?_
    obtain ⟨⟨rest, rfl⟩, hne⟩ := hcov
    cases rest with
    | nil => exact absurd (append_nil dir).symm hne
    | cons name rest =>
      cases hget : store.get? (dir ++ name :: rest) with
      | none => simp [Recorded, hget, readRecord] at hx
      | some node =>
        refine ⟨.child (dir ++ [name]), mem_map_of_mem (Tree.mem_children hget), rest, ?_⟩
        simp

/-! ## Steps -/

theorem onlyStale_of_checked {tree : Store} (htree : RootOnly D tree)
    (hback : ¬ (groupIsValid D tree && !args.staleRoot D tree) = true) :
    OnlyStale D args tree := by
  intro rel r hr hcontent
  obtain rfl : rel = [] := htree rel (by simp [Recorded, hr])
  refine ⟨rfl, ?_⟩
  have hsub : tree.sub [] = tree := by simp [Tree.sub]
  rw [hsub] at hcontent
  have hstale : args.staleRoot D tree = true := by simpa [groupIsValid, hr, hcontent] using hback
  unfold QuarantineArgs.staleRoot at hstale
  cases hexpected : args.expectedInputDigest with
  | none => simp [hexpected] at hstale
  | some expected => exact ⟨expected, rfl, by simpa [hexpected, hr] using hstale⟩

theorem rootOnly_recorded (staged : Staged) (r : CommitRecord) : RootOnly D (staged.recorded r) := by
  intro x hx
  by_contra hne
  cases hget : (staged.recorded r).get? x with
  | none => simp [Recorded, hget, readRecord] at hx
  | some node =>
    obtain ⟨e, he, hxe⟩ := mem_map.mp (Tree.mem_of_get? hget)
    have hplain := staged.plain e he
    by_cases hroot : e.1 = []
    · rw [if_pos hroot] at hxe
      have hex : e.1 = x := (Prod.ext_iff.mp hxe).1
      exact hne (hex.symm.trans hroot)
    · rw [if_neg hroot] at hxe
      obtain rfl : e.2 = node := (Prod.ext_iff.mp hxe).2
      simp only [Recorded, hget, readRecord, bind_some] at hx
      cases hj : e.2.zarrJson with
      | none => simp [hj] at hx
      | some json =>
        have hcommit : json.commit = none := by simpa [Node.hasCommitAttr, hj] using hplain
        simp [hj, hcommit, verified] at hx

section
variable {P Q : Type} {commits : P → CommitArgs} {quarantines : Q → QuarantineArgs}
  {s : State P Q}

theorem sound_graft (h : Sound D quarantines s) {tree : Store} (htree : RootOnly D tree)
    (hsafe : LandsSafely D quarantines s k) :
    Sound D quarantines { s with store := s.store.graft k tree } where
  flat x y hx hy hne hyx := by
    rcases recorded_of_graft htree hx with rfl | ⟨hx, hkx⟩
    · rcases recorded_of_graft htree hy with rfl | ⟨hy, -⟩
      · rfl
      · by_contra hyk
        exact hsafe.1 y ((mem_inits _ _).mpr hyx) hne hyk hy
    · rcases recorded_of_graft htree hy with rfl | ⟨hy, -⟩
      · exact absurd hyx hkx
      · exact h.flat x y hx hy hne hyx
  assured q := assured_of_noticed
    (fun x hx => (recorded_of_graft htree hx).imp_right And.left) (hsafe.2 q) (h.assured q)

variable [DecidableEq P] [DecidableEq Q]

omit [DecidableEq P] in
theorem sound_goto (h : Sound D quarantines s) {q : Q} {pc : QuarantinePc} {store : Store}
    (hstore : ∀ x, Recorded D store x → Recorded D s.store x)
    (hpc : Assured D (quarantines q) store pc) :
    Sound D quarantines
      { s with store := store, quarantine := update s.quarantine q pc } where
  flat x y hx hy := h.flat x y (hstore x hx) (hstore y hy)
  assured q' := by
    dsimp only
    by_cases hq : q' = q
    · subst hq
      rwa [update_self]
    · rw [update_of_ne hq]
      exact assured_of_subset hstore (h.assured q')

omit [DecidableEq Q] in
theorem sound_commitStep (h : Sound D quarantines s) {p : P} {store : Store} {pc : CommitPc}
    (hsafe : SafeLandings D commits quarantines s (.commit p))
    (ht : commitStep D (commits p) s.store (s.commit p) = some (store, pc)) :
    Sound D quarantines
      { s with store := store, commit := update s.commit p pc } := by
  have hgoto : ∀ t : Store, Sound D quarantines { s with store := t } →
      Sound D quarantines { s with store := t, commit := update s.commit p pc } :=
    fun _ ht => ⟨ht.flat, ht.assured⟩
  generalize hpc : s.commit p = before at ht
  cases commitStep_move D ht with
  | landed hdir hvacant =>
    have hlands : LandsSafely D quarantines s (commits p).key := by
      simp only [SafeLandings, hpc] at hsafe
      exact hsafe ⟨hdir, hvacant⟩
    exact hgoto _ (sound_graft h (rootOnly_recorded _ _) hlands)
  | _ => exact hgoto _ h -- nothing but the rename changes the store

omit [DecidableEq P] in
theorem sound_quarantineStep (h : Sound D quarantines s) {q : Q} {store : Store}
    {pc : QuarantinePc} (hsafe : SafeLandings D commits quarantines s (.quarantine q))
    (ht : quarantineStep D (quarantines q) s.store (s.quarantine q) = some (store, pc)) :
    Sound D quarantines
      { s with store := store, quarantine := update s.quarantine q pc } := by
  have hassured := h.assured q
  have hsame : ∀ x, Recorded D s.store x → Recorded D s.store x := fun _ => id
  cases hpc : s.quarantine q with
  | testing =>
    rw [hpc] at ht
    by_cases hdir : s.store.IsDir (quarantines q).key
    · obtain ⟨rfl, rfl⟩ := by simpa [quarantineStep, hdir] using ht
      exact sound_goto h hsame trivial
    · obtain ⟨rfl, rfl⟩ := by simpa [quarantineStep, hdir] using ht
      exact sound_goto h hsame trivial
  | reading rpc =>
    rw [hpc] at ht
    cases hstep : recordStep D (s.store.get? (quarantines q).key) rpc with
    | more rpc' =>
      obtain ⟨rfl, rfl⟩ := by simpa [quarantineStep, hstep] using ht
      exact sound_goto h hsame trivial
    | raised =>
      obtain ⟨rfl, rfl⟩ := by simpa [quarantineStep, hstep] using ht
      exact sound_goto h hsame trivial
    | done record =>
      cases record with
      | none =>
        obtain ⟨rfl, rfl⟩ := by simpa [quarantineStep, hstep] using ht
        exact sound_goto h hsame trivial
      | some r =>
        obtain ⟨rfl, rfl⟩ := by simpa [quarantineStep, hstep] using ht
        -- the key itself is committed, and committed keys are not nested
        refine sound_goto h hsame fun x hx hkey => ?_
        refine h.flat x _ hx ?_ (quarantines q).key_ne_nil hkey
        rw [readRecord_of_done D hstep]
        rfl
  | searching =>
    rw [hpc] at ht
    by_cases hdir : s.store.IsDir (quarantines q).key
    · obtain ⟨rfl, rfl⟩ := by simpa [quarantineStep, hdir] using ht
      exact sound_goto h hsame fun _ x _ hkey _ => ⟨_, mem_singleton_self _, hkey⟩
    · obtain ⟨rfl, rfl⟩ := by simpa [quarantineStep, hdir] using ht
      refine sound_goto h hsame fun x hx hkey => ?_
      exact absurd (isDir_of_recorded hx hkey) hdir
  | walking stack found =>
    rw [hpc] at ht hassured
    cases stack with
    | nil =>
      by_cases hfound : found = []
      · obtain ⟨rfl, rfl⟩ := by simpa [quarantineStep, hfound] using ht
        -- the walk is over and has found nothing
        refine sound_goto h hsame fun x hx hkey => ?_
        by_contra hne
        obtain ⟨v, hv, -⟩ := hassured hfound x hx hkey hne
        cases hv
      · obtain ⟨rfl, rfl⟩ := by simpa [quarantineStep, hfound] using ht
        exact sound_goto h hsame trivial
    | cons visit stack =>
      obtain ⟨rfl, rfl⟩ := by simpa [quarantineStep] using ht
      exact sound_goto h hsame (assured_walkStep hassured)
  | moving =>
    rw [hpc] at ht hassured
    by_cases hdir : s.store.IsDir (quarantines q).key
    · obtain ⟨rfl, rfl⟩ := by simpa [quarantineStep, hdir] using ht
      refine sound_goto h (fun x => recorded_of_remove) fun x hx => ?_
      have := hassured _ (recorded_sub.mp hx) (prefix_append _ _)
      simpa using this.symm
    · obtain ⟨rfl, rfl⟩ := by simpa [quarantineStep, hdir] using ht
      exact sound_goto h hsame trivial
  | syncing tree =>
    rw [hpc] at ht hassured
    by_cases hdir : s.store.IsDir (quarantines q).key.dropLast
    · obtain ⟨rfl, rfl⟩ := by simpa [quarantineStep, hdir] using ht
      exact sound_goto h hsame hassured
    · obtain ⟨rfl, rfl⟩ := by simpa [quarantineStep, hdir] using ht
      exact sound_goto h hsame trivial
  | checking tree =>
    rw [hpc] at ht hassured
    by_cases hraises : readRaises D (tree.get? [])
    · obtain ⟨rfl, rfl⟩ := by simpa only [quarantineStep, if_pos hraises, some.injEq,
        Prod.mk.injEq] using ht
      exact sound_goto h hsame trivial
    · by_cases hback : groupIsValid D tree && !(quarantines q).staleRoot D tree
      · obtain ⟨rfl, rfl⟩ := by simpa only [quarantineStep, if_neg hraises, if_pos hback,
          some.injEq, Prod.mk.injEq] using ht
        exact sound_goto h hsame hassured
      · obtain ⟨rfl, rfl⟩ := by simpa only [quarantineStep, if_neg hraises, if_neg hback,
          some.injEq, Prod.mk.injEq] using ht
        exact sound_goto h hsame (onlyStale_of_checked hassured hback)
  | puttingBack tree =>
    rw [hpc] at ht hassured
    by_cases hdir : s.store.IsDir (quarantines q).key.dropLast
    · by_cases hvacant : Vacant s.store (quarantines q).key
      · obtain ⟨rfl, rfl⟩ := by simpa only [quarantineStep, if_pos hdir, if_pos hvacant,
          some.injEq, Prod.mk.injEq] using ht
        have hlands : LandsSafely D quarantines s (quarantines q).key := by
          simp only [SafeLandings, hpc] at hsafe
          exact hsafe ⟨hdir, hvacant⟩
        exact sound_goto (sound_graft h hassured hlands) (fun _ => id) trivial
      · obtain ⟨rfl, rfl⟩ := by simpa only [quarantineStep, if_pos hdir, if_neg hvacant,
          some.injEq, Prod.mk.injEq] using ht
        exact sound_goto h hsame trivial
    · obtain ⟨rfl, rfl⟩ := by simpa only [quarantineStep, if_neg hdir, some.injEq,
        Prod.mk.injEq] using ht
      exact sound_goto h hsame trivial
  | restored =>
    rw [hpc] at ht
    by_cases hdir : s.store.IsDir (quarantines q).key.dropLast
    · obtain ⟨rfl, rfl⟩ := by simpa [quarantineStep, hdir] using ht
      exact sound_goto h hsame trivial
    · obtain ⟨rfl, rfl⟩ := by simpa [quarantineStep, hdir] using ht
      exact sound_goto h hsame trivial
  | finished | crashed => simp [quarantineStep, hpc] at ht

theorem sound_step {t : State P Q} {e : Event P Q} (h : Sound D quarantines s)
    (hsafe : SafeLandings D commits quarantines s e)
    (ht : (machine D commits quarantines).step s e = some t) : Sound D quarantines t := by
  cases e with
  | commit p =>
    obtain ⟨⟨store, pc⟩, hstep, rfl⟩ := map_eq_some_iff.mp ht
    exact sound_commitStep h hsafe hstep
  | quarantine q =>
    obtain ⟨⟨store, pc⟩, hstep, rfl⟩ := map_eq_some_iff.mp ht
    exact sound_quarantineStep h hsafe hstep
  | crashCommit p =>
    obtain rfl := some.inj ht
    exact ⟨h.flat, h.assured⟩
  | crashQuarantine q =>
    obtain rfl := some.inj ht
    exact sound_goto h (fun _ => id) trivial

omit [DecidableEq P] [DecidableEq Q] in
theorem sound_initial (h : Initial D s) : Sound D quarantines s where
  flat := h.flat
  assured q := by
    rw [h.quarantine]
    trivial

/-- **A quarantine takes no good commit along.**  In a run whose landings are all
safe, a tree that `quarantine` returned holds no committed key that matches its
record, except the quarantined key itself when its input digest is not the expected
one. -/
theorem moved_only_stale {s : State P Q}
    (hr : (machine D commits quarantines).Reaches (SafeLandings D commits quarantines) s) {q : Q}
    {tree : Store} (hmoved : s.quarantine q = .finished (.moved tree)) {rel : Path}
    {r : CommitRecord} (hrecord : readRecord D (tree.get? rel) = some r)
    (hcontent : D.content (tree.sub rel) = some r.contentDigest) :
    rel = [] ∧ ∃ expected, (quarantines q).expectedInputDigest = some expected ∧
      r.inputDigest ≠ expected := by
  have h : Sound D quarantines s :=
    hr.invariant (fun _ => sound_initial) fun _ _ _ => sound_step
  have hassured := h.assured q
  rw [hmoved] at hassured
  exact hassured rel r hrecord hcontent

end

/-! ## Two stores -/

/-- Digests that are told apart by the attributes of the groups. -/
def attributeDigests : Digests where
  record := fun inputDigest contentDigest body => some (inputDigest ++ contentDigest ++ body)
  content := fun t => some (String.join (t.map fun e =>
    (e.2.zarrJson.map ZarrJson.attributes).getD ""))

/-- A group without a commit record. -/
def plainGroup (attributes : String) : Node where
  zarrJson := some { nodeType := .group, attributes := attributes }

/-- A store with the empty prefix `p`, before any call. -/
def withPrefix : State Unit Unit where
  store := [([], plainGroup ""), (["p"], plainGroup "")]
  commit := fun _ => .checkingParent
  quarantine := fun _ => .testing

theorem withPrefix_initial : Initial attributeDigests withPrefix where
  flat x y hx := by
    have hnone : ∀ e ∈ withPrefix.store, readRecord attributeDigests (some e.2) = none := by decide
    cases hget : withPrefix.store.get? x with
    | none => simp [hget, readRecord] at hx
    | some node => simp [hget, hnone _ (Tree.mem_of_get? hget)] at hx
  commit _ := rfl
  quarantine _ := rfl

theorem child_ne_nil : ["p", "c"] ≠ [] := by decide

/-- A commit of `p/c`. -/
def commitChild : Unit → CommitArgs := fun _ =>
  { key := ["p", "c"]
    key_ne_nil := by decide
    staged := ⟨[([], plainGroup "data")], by decide⟩
    inputDigest := "d1"
    body := "" }

/-- `quarantine(store, ("p", "c"), expected_input_digest="d2")`. -/
def quarantineStale : Unit → QuarantineArgs := fun _ =>
  { key := ["p", "c"], key_ne_nil := by decide, expectedInputDigest := some "d2" }

/-- A commit that is quarantined because another input digest is wanted. -/
theorem moved_only_stale_child :
    ∃ s tree r, (machine attributeDigests commitChild quarantineStale).Reaches
        (SafeLandings attributeDigests commitChild quarantineStale) s ∧
      s.quarantine () = .finished (.moved tree) ∧
      readRecord attributeDigests (tree.get? []) = some r ∧
      ∃ expected, (quarantineStale ()).expectedInputDigest = some expected ∧
        r.inputDigest ≠ expected := by
  have hr : ∃ s tree r, (machine attributeDigests commitChild quarantineStale).run withPrefix
      (List.replicate 6 (.commit ()) ++ List.replicate 7 (.quarantine ())) = some s ∧
      s.quarantine () = .finished (.moved tree) ∧
      readRecord attributeDigests (tree.get? []) = some r ∧
      attributeDigests.content (tree.sub []) = some r.contentDigest :=
    ⟨_, _, _, rfl, rfl, rfl, rfl⟩
  obtain ⟨s, tree, r, hrun, hmoved, hrecord, hcontent⟩ := hr
  have hreach := Machine.reaches_of_allowed
    (G := SafeLandings attributeDigests commitChild quarantineStale) withPrefix_initial
    (by decide) hrun
  exact ⟨s, tree, r, hreach, hmoved, hrecord, (moved_only_stale hreach hmoved hrecord hcontent).2⟩

/-- `quarantine(store, ("p",))`. -/
def quarantinePrefix : Unit → QuarantineArgs := fun _ => { key := ["p"], key_ne_nil := by decide }

/-- The commit lands below the prefix after the walk has found nothing there. -/
theorem moved_good_child :
    ∃ s tree r, (machine attributeDigests commitChild quarantinePrefix).Reachable s ∧
      s.quarantine () = .finished (.moved tree) ∧
      readRecord attributeDigests (tree.get? ["c"]) = some r ∧
      attributeDigests.content (tree.sub ["c"]) = some r.contentDigest := by
  have hr : ∃ s tree r, (machine attributeDigests commitChild quarantinePrefix).run withPrefix
      (List.replicate 11 (.quarantine ()) ++ List.replicate 6 (.commit ()) ++
        List.replicate 3 (.quarantine ())) = some s ∧
      s.quarantine () = .finished (.moved tree) ∧
      readRecord attributeDigests (tree.get? ["c"]) = some r ∧
      attributeDigests.content (tree.sub ["c"]) = some r.contentDigest :=
    ⟨_, _, _, rfl, rfl, rfl, rfl⟩
  obtain ⟨s, tree, r, hrun, hs⟩ := hr
  exact ⟨s, tree, r, Machine.reachable_of_run withPrefix_initial hrun, hs⟩

end Xtrax.ZarrCommit
