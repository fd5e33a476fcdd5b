import Xtrax.Dict
import Xtrax.LooseMembers

/-! # When a collection is exact

What `os.walk` yields is split by the symlinks it went through.  What is found without one, with
what is lost to failing calls, is the member set (`real_count`); what is found behind one belongs
to no member, as names of a directory are distinct.  So a collection is exact when nothing is lost
and nothing is found behind a symlink, and only then (`collectLooseMembers_exact_iff`).
-/
namespace Xtrax.LooseMembers

open List Results

variable {faults : Faults} {excluded : List String}

instance lawfulBEqPart : LawfulBEq (Char ⊕ UInt8) where
  eq_of_beq {a b} h := by
    cases a <;> cases b
    · exact congrArg Sum.inl (eq_of_beq h)
    · cases h
    · cases h
    · exact congrArg Sum.inr (eq_of_beq h)
  rfl {a} := by
    cases a with
    | inl c => exact beq_self_eq_true c
    | inr b => exact beq_self_eq_true b

/-! ## What is found and what is lost -/

/-- What holds of the listed directory and goes with an entry into the directory it leads to holds
of all directories below. -/
theorem triedBelow_invariant {P : Visit → Prop}
    (hdir : ∀ v name sub, P v → (name, Entry.dir sub) ∈ v.entries →
      P ⟨v.path ++ [name], v.through, sub⟩)
    (hlink : ∀ v name sub, P v → (name, Entry.dirLink sub) ∈ v.entries →
      P ⟨v.path ++ [name], true, sub⟩) :
    ∀ (entries : Listing) (path : Path) (through : Bool) {all : Listing}, P ⟨path, through, all⟩ →
      entries ⊆ all → ∀ v ∈ triedBelow faults entries path through, P v
  | [], _, _, _, _, _, _, hv => by simp [triedBelow] at hv
  | (name, .dir sub) :: rest, path, through, all, hall, hsub, v, hv => by
    rw [triedBelow, triedAt, mem_append] at hv
    rcases hv with hv | hv
    · have hnext := hdir _ name sub hall (hsub mem_cons_self)
      split at hv
      · cases hv
      · rcases mem_cons.mp hv with rfl | hv
        · exact hnext
        · split at hv
          · cases hv
          · exact triedBelow_invariant hdir hlink sub _ _ hnext (List.Subset.refl _) v hv
    · exact triedBelow_invariant hdir hlink rest path _ hall (subset_of_cons_subset hsub) v hv
  | (name, .dirLink sub) :: rest, path, through, all, hall, hsub, v, hv => by
    rw [triedBelow, triedAt, mem_append] at hv
    rcases hv with hv | hv
    · have hnext := hlink _ name sub hall (hsub mem_cons_self)
      split at hv
      · cases hv
      · rcases mem_cons.mp hv with rfl | hv
        · exact hnext
        · split at hv
          · cases hv
          · exact triedBelow_invariant hdir hlink sub _ _ hnext (List.Subset.refl _) v hv
    · exact triedBelow_invariant hdir hlink rest path _ hall (subset_of_cons_subset hsub) v hv
  | (_, .file) :: rest, path, through, all, hall, hsub, v, hv
  | (_, .special) :: rest, path, through, all, hall, hsub, v, hv
  | (_, .link) :: rest, path, through, all, hall, hsub, v, hv => by
    rw [triedBelow, triedAt, nil_append] at hv
    exact triedBelow_invariant hdir hlink rest path _ hall (subset_of_cons_subset hsub) v hv

theorem prefix_of_mem (entries : Listing) (path : Path) {through : Bool} :
    ∀ v ∈ triedBelow faults entries path through, path <+: v.path :=
  triedBelow_invariant (P := fun v => path <+: v.path)
    (fun _ name _ h _ => h.trans (prefix_append _ [name]))
    (fun _ name _ h _ => h.trans (prefix_append _ [name])) entries path through
    prefix_rfl (List.Subset.refl _)

theorem through_of_mem (entries : Listing) (path : Path) :
    ∀ v ∈ triedBelow faults entries path true, v.through = true :=
  triedBelow_invariant (P := fun v => v.through = true) (fun _ _ _ h _ => h) (fun _ _ _ _ _ => rfl)
    entries path true rfl (List.Subset.refl entries)

/-- What a walk finds in a directory and loses there. -/
def accounted (faults : Faults) (excluded : List String) (v : Visit) : List Path :=
  foundAt faults excluded v ++ lostAt faults excluded v

/-- **Found and lost is all there is**: below a listed directory that no symlink led to. -/
theorem real_count (p : Path) : ∀ (entries : Listing) (path : Path),
    (membersBelow excluded entries path).count p =
      (entries.filterMap (memberAt excluded path)).count p +
        (entries.flatMap (lostEntry faults excluded path)).count p +
        (((triedBelow faults entries path false).filter fun v => !v.through).flatMap
          (accounted faults excluded)).count p
  | [], _ => by simp [membersBelow, triedBelow]
  | (name, .dir entries) :: rest, path => by
    have hbelow := real_count p entries (path ++ [name])
    have hrest := real_count p rest path
    rw [membersBelow, membersAt, triedBelow, triedAt, flatMap_cons, filterMap_cons_none rfl]
    simp only [count_append, filter_append, flatMap_append, hrest]
    by_cases hdir : (faults.isDir (path ++ [name])).isSome = true
    · simp only [lostEntry, hdir, if_true, filter_nil, flatMap_nil, count_nil]
      omega
    · by_cases hlist : (faults.listing (path ++ [name])).isSome = true
      · simp [lostEntry, hdir, hlist, accounted, foundAt, lostAt]
        omega
      · have hmembers : membersIn excluded ⟨path ++ [name], false, entries⟩ =
            entries.filterMap (memberAt excluded (path ++ [name])) := rfl
        simp [lostEntry, hdir, hlist, accounted, foundAt, lostAt, hmembers, hbelow]
        omega
  | (name, .dirLink entries) :: rest, path => by
    have hrest := real_count p rest path
    have hthrough : ((triedBelow faults entries (path ++ [name]) true).filter fun v =>
        !v.through) = [] :=
      filter_eq_nil_iff.mpr fun v hv => by simp [through_of_mem entries _ v hv]
    rw [membersBelow, membersAt, triedBelow, triedAt, flatMap_cons,
      filterMap_cons_none rfl, filter_append, flatMap_append, nil_append, hrest]
    split_ifs <;> simp [lostEntry, hthrough]
  | (name, .file) :: rest, path => by
    have hrest := real_count p rest path
    rw [membersBelow, membersAt, triedBelow, triedAt, flatMap_cons]
    by_cases hskip : skipped excluded path name = true
    · rw [filterMap_cons_none (by simp [memberAt, hskip])]
      simp [hskip, hrest, lostEntry]
    · rw [filterMap_cons_some (b := path ++ [name]) (by simp [memberAt, hskip])]
      simp [hskip, hrest, lostEntry, count_cons]
      omega
  | (name, .special) :: rest, path | (name, .link) :: rest, path => by
    have hrest := real_count p rest path
    rw [membersBelow, membersAt, triedBelow, triedAt, flatMap_cons, filterMap_cons_none rfl]
    simp [hrest, lostEntry]

/-! ## What is behind a symlink -/

/-- The names of every directory are distinct and have no slash, also behind symlinks. -/
inductive WellNamed : Listing → Prop
  | mk {entries : Listing} (nodup : (entries.map (·.1)).Nodup)
      (slash : ∀ e ∈ entries, Sum.inl '/' ∉ e.1)
      (below : ∀ name sub, (name, Entry.dir sub) ∈ entries ∨ (name, Entry.dirLink sub) ∈ entries →
        WellNamed sub) : WellNamed entries

/-- The path leads through a symlink, or to one. -/
def crosses : Listing → Path → Bool
  | _, [] => false
  | entries, name :: rest =>
    match entries.find? fun e => e.1 = name with
    | some (_, .dirLink _) => true
    | some (_, .dir sub) => crosses sub rest
    | _ => false

theorem find?_of_mem {entries : Listing} (h : WellNamed entries) {name : Name} {e : Entry}
    (hmem : (name, e) ∈ entries) : entries.find? (fun e => e.1 = name) = some (name, e) := by
  obtain ⟨hnodup, -, -⟩ := h
  have hget : (Dict.mk entries hnodup).get? name = some e := Dict.get?_eq_some_iff.mpr hmem
  obtain ⟨⟨name', e'⟩, hfind, heq⟩ := Option.map_eq_some_iff.mp hget
  have hname : name' = name := by simpa using find?_some hfind
  rw [← hname] at hfind ⊢
  rw [hfind, ← heq]

theorem WellNamed.sub {entries sub : Listing} (h : WellNamed entries) {name : Name}
    (hmem : (name, Entry.dir sub) ∈ entries ∨ (name, Entry.dirLink sub) ∈ entries) :
    WellNamed sub := by
  obtain ⟨-, -, hbelow⟩ := h
  exact hbelow name sub hmem

theorem not_crosses : ∀ (entries : Listing) (path : Path) {all : Listing}, WellNamed all →
    entries ⊆ all → ∀ p ∈ membersBelow excluded entries path,
      ∃ q, p = path ++ q ∧ crosses all q = false
  | [], _, _, _, _, _, hp => by simp [membersBelow] at hp
  | (name, .dir sub) :: rest, path, all, hall, hsub, p, hp => by
    rw [membersBelow, membersAt, mem_append] at hp
    rcases hp with hp | hp
    · have hmem := hsub mem_cons_self
      obtain ⟨q, rfl, hq⟩ :=
        not_crosses sub (path ++ [name]) (hall.sub (.inl hmem)) (List.Subset.refl _) p hp
      refine ⟨name :: q, by simp, ?_⟩
      rw [crosses, find?_of_mem hall hmem]
      exact hq
    · exact not_crosses rest path hall (subset_of_cons_subset hsub) p hp
  | (name, .file) :: rest, path, all, hall, hsub, p, hp => by
    rw [membersBelow, membersAt, mem_append] at hp
    rcases hp with hp | hp
    · split at hp
      · cases hp
      · obtain rfl := mem_singleton.mp hp
        refine ⟨[name], rfl, ?_⟩
        rw [crosses, find?_of_mem hall (hsub mem_cons_self)]
    · exact not_crosses rest path hall (subset_of_cons_subset hsub) p hp
  | (_, .dirLink _) :: rest, path, all, hall, hsub, p, hp
  | (_, .special) :: rest, path, all, hall, hsub, p, hp
  | (_, .link) :: rest, path, all, hall, hsub, p, hp => by
    rw [membersBelow, membersAt, nil_append] at hp
    exact not_crosses rest path hall (subset_of_cons_subset hsub) p hp

theorem crosses_of_through : ∀ (entries : Listing) (path : Path) {all : Listing}, WellNamed all →
    entries ⊆ all → ∀ v ∈ triedBelow faults entries path false, v.through = true →
      ∃ q, v.path = path ++ q ∧ ∀ r, crosses all (q ++ r) = true
  | [], _, _, _, _, _, hv, _ => by simp [triedBelow] at hv
  | (name, .dir sub) :: rest, path, all, hall, hsub, v, hv, hthrough => by
    rw [triedBelow, triedAt, mem_append] at hv
    rcases hv with hv | hv
    · split at hv
      · cases hv
      · rcases mem_cons.mp hv with rfl | hv
        · cases hthrough
        · split at hv
          · cases hv
          · have hmem := hsub mem_cons_self
            obtain ⟨q, hpath, hq⟩ := crosses_of_through sub (path ++ [name])
              (hall.sub (.inl hmem)) (List.Subset.refl _) v hv hthrough
            refine ⟨name :: q, by simp [hpath], fun r => ?_⟩
            rw [cons_append, crosses, find?_of_mem hall hmem]
            exact hq r
    · exact crosses_of_through rest path hall (subset_of_cons_subset hsub) v hv hthrough
  | (name, .dirLink sub) :: rest, path, all, hall, hsub, v, hv, hthrough => by
    rw [triedBelow, triedAt, mem_append] at hv
    rcases hv with hv | hv
    · have hmem := hsub mem_cons_self
      have hprefix : path ++ [name] <+: v.path := by
        split at hv
        · cases hv
        · rcases mem_cons.mp hv with rfl | hv
          · exact prefix_rfl
          · split at hv
            · cases hv
            · exact prefix_of_mem sub _ v hv
      obtain ⟨q, hq⟩ := hprefix
      refine ⟨name :: q, by simp [← hq], fun r => ?_⟩
      rw [cons_append, crosses, find?_of_mem hall hmem]
    · exact crosses_of_through rest path hall (subset_of_cons_subset hsub) v hv hthrough
  | (_, .file) :: rest, path, all, hall, hsub, v, hv, hthrough
  | (_, .special) :: rest, path, all, hall, hsub, v, hv, hthrough
  | (_, .link) :: rest, path, all, hall, hsub, v, hv, hthrough => by
    rw [triedBelow, triedAt, nil_append] at hv
    exact crosses_of_through rest path hall (subset_of_cons_subset hsub) v hv hthrough

/-! ## Relative paths -/

theorem literal_of_nameText {name : Name} {s : String} (h : nameText name = some s) :
    s.toList.map Sum.inl = name := by
  obtain ⟨cs, hcs, rfl⟩ := Option.map_eq_some_iff.mp h
  have hall := mapM_eq_some.mp hcs
  have heq : cs.map Sum.inl = name.map id :=
    map_eq_of_forall₂ (hall.imp fun _ _ hc => (Sum.getLeft?_eq_some_iff.mp hc).symm)
  rw [String.toList_ofList, heq, map_id]

/-- A path of file names. -/
structure Proper (path : Path) : Prop where
  ne_nil : path ≠ []
  slash : ∀ name ∈ path, Sum.inl '/' ∉ name

def pathOf (rel : String) : Path := (rel.toList.splitOn '/').map fun name => name.map Sum.inl

/-- **A path is read back from its relative path.** -/
theorem pathOf_relpath {p : Path} {rel : String} (hp : Proper p) (h : relpath p = some rel) :
    pathOf rel = p := by
  obtain ⟨names, hnames, rfl⟩ := Option.map_eq_some_iff.mp h
  have hall := mapM_eq_some.mp hnames
  have heq : (names.map String.toList).map (fun name => name.map Sum.inl) = p := by
    rw [map_map]
    calc names.map ((fun name => name.map Sum.inl) ∘ String.toList) = p.map id :=
          map_eq_of_forall₂ (hall.imp fun _ _ hn => literal_of_nameText hn)
      _ = p := map_id p
  have hslash : ∀ l ∈ names.map String.toList, '/' ∉ l := by
    intro l hl hmem
    have hname : l.map Sum.inl ∈ p := heq ▸ mem_map_of_mem hl
    exact hp.slash _ hname (mem_map_of_mem hmem)
  have hne : names.map String.toList ≠ [] := by
    rintro hnil
    rw [hnil] at heq
    exact hp.ne_nil heq.symm
  rw [pathOf, String.toList_intercalate]
  exact (congrArg _ (splitOn_intercalate '/' hslash hne)).trans heq

theorem proper_append {path : Path} {name : Name} {entries : Listing} {e : Entry}
    (hpath : ∀ name ∈ path, Sum.inl '/' ∉ name) (hall : WellNamed entries)
    (hmem : (name, e) ∈ entries) : Proper (path ++ [name]) := by
  obtain ⟨-, hslash, -⟩ := hall
  refine ⟨by simp, fun n hn => ?_⟩
  rcases mem_append.mp hn with hn | hn
  · exact hpath n hn
  · rw [mem_singleton.mp hn]
    exact hslash _ hmem

theorem proper_of_member : ∀ (entries : Listing) (path : Path) {all : Listing}, WellNamed all →
    entries ⊆ all → (∀ name ∈ path, Sum.inl '/' ∉ name) →
      ∀ p ∈ membersBelow excluded entries path, Proper p
  | [], _, _, _, _, _, _, hp => by simp [membersBelow] at hp
  | (name, .dir sub) :: rest, path, all, hall, hsub, hpath, p, hp => by
    rw [membersBelow, membersAt, mem_append] at hp
    rcases hp with hp | hp
    · have hmem := hsub mem_cons_self
      exact proper_of_member sub _ (hall.sub (.inl hmem)) (List.Subset.refl _)
        (proper_append hpath hall hmem).slash p hp
    · exact proper_of_member rest path hall (subset_of_cons_subset hsub) hpath p hp
  | (name, .file) :: rest, path, all, hall, hsub, hpath, p, hp => by
    rw [membersBelow, membersAt, mem_append] at hp
    rcases hp with hp | hp
    · split at hp
      · cases hp
      · rw [mem_singleton.mp hp]
        exact proper_append hpath hall (hsub mem_cons_self)
    · exact proper_of_member rest path hall (subset_of_cons_subset hsub) hpath p hp
  | (_, .dirLink _) :: rest, path, all, hall, hsub, hpath, p, hp
  | (_, .special) :: rest, path, all, hall, hsub, hpath, p, hp
  | (_, .link) :: rest, path, all, hall, hsub, hpath, p, hp => by
    rw [membersBelow, membersAt, nil_append] at hp
    exact proper_of_member rest path hall (subset_of_cons_subset hsub) hpath p hp

/-! ## The whole walk -/

section Whole

variable {root : Listing}

theorem mem_membersIn {v : Visit} {p : Path} (h : p ∈ membersIn excluded v) :
    ∃ name, (name, Entry.file) ∈ v.entries ∧ skipped excluded v.path name = false ∧
      p = v.path ++ [name] := by
  obtain ⟨⟨name, e⟩, hmem, he⟩ := mem_filterMap.mp h
  cases e with
  | file =>
    rw [memberAt] at he
    split at he
    · cases he
    · rename_i hskip
      exact ⟨name, hmem, by simpa using hskip, (Option.some.inj he).symm⟩
  | special | link | dirLink entries | dir entries => cases he

theorem proper_of_found (hroot : WellNamed root) {v : Visit} (hv : v ∈ tried faults root) {p : Path}
    (hp : p ∈ membersIn excluded v) : Proper p := by
  have hinv : (∀ name ∈ v.path, Sum.inl '/' ∉ name) ∧ WellNamed v.entries := by
    rcases mem_cons.mp hv with rfl | hv
    · exact ⟨nofun, hroot⟩
    · split at hv
      · cases hv
      · refine triedBelow_invariant
          (P := fun v => (∀ name ∈ v.path, Sum.inl '/' ∉ name) ∧ WellNamed v.entries) ?_ ?_ root []
          false ⟨nofun, hroot⟩ (List.Subset.refl root) v hv
        · intro v name sub h hmem
          exact ⟨(proper_append h.1 h.2 hmem).slash, h.2.sub (.inl hmem)⟩
        · intro v name sub h hmem
          exact ⟨(proper_append h.1 h.2 hmem).slash, h.2.sub (.inr hmem)⟩
  obtain ⟨name, hmem, -, rfl⟩ := mem_membersIn hp
  exact proper_append hinv.1 hinv.2 hmem

theorem count_flatMap_append (p : Path) (f g : Visit → List Path) (vs : List Visit) :
    (vs.flatMap fun v => f v ++ g v).count p = (vs.flatMap f).count p + (vs.flatMap g).count p := by
  induction vs with
  | nil => rfl
  | cons v vs ih =>
    simp only [flatMap_cons, count_append, ih]
    omega

theorem count_flatMap_filter (p : Path) (f : Visit → List Path) (a : Visit → Bool)
    (vs : List Visit) : (vs.flatMap f).count p =
      ((vs.filter a).flatMap f).count p + ((vs.filter fun v => !a v).flatMap f).count p := by
  induction vs with
  | nil => rfl
  | cons v vs ih =>
    by_cases ha : a v = true
    · simp [ha, ih]
      omega
    · simp [ha, ih]
      omega

/-- The directories that a walk comes to without a symlink, and those behind one. -/
def directVisits (faults : Faults) (root : Listing) : List Visit :=
  (tried faults root).filter fun v => !v.through

def throughVisits (faults : Faults) (root : Listing) : List Visit :=
  (tried faults root).filter fun v => v.through

theorem members_count (p : Path) : (membersBelow excluded root []).count p =
    ((directVisits faults root).flatMap (foundAt faults excluded)).count p +
      ((directVisits faults root).flatMap (lostAt faults excluded)).count p := by
  rw [← count_flatMap_append]
  show _ = ((directVisits faults root).flatMap (accounted faults excluded)).count p
  unfold directVisits tried
  by_cases hlist : (faults.listing []).isSome = true
  · simp [hlist, accounted, foundAt, lostAt]
  · have hmembers : membersIn excluded ⟨[], false, root⟩ =
        root.filterMap (memberAt excluded []) := rfl
    have hcount : (membersBelow excluded root []).count p =
        (root.filterMap (memberAt excluded [])).count p +
          (root.flatMap (lostEntry faults excluded [])).count p +
          (((triedBelow faults root [] false).filter fun v => !v.through).flatMap
            (accounted faults excluded)).count p := real_count p root []
    simp [hlist, accounted, foundAt, lostAt, hmembers, hcount]
    omega

theorem found_eq : (osWalk faults root).flatMap (membersIn excluded) =
    (tried faults root).flatMap (foundAt faults excluded) := by
  unfold osWalk
  induction tried faults root with
  | nil => rfl
  | cons v vs ih =>
    rw [flatMap_cons, ← ih, foundAt]
    by_cases hlist : (faults.listing v.path).isSome = true
    · rw [if_pos hlist, nil_append, filter_cons_of_neg]
      rw [Option.isSome_iff_exists] at hlist
      obtain ⟨errno, herrno⟩ := hlist
      simp [herrno]
    · rw [if_neg hlist, filter_cons_of_pos (by simpa using hlist), flatMap_cons]

theorem stray_not_member (hroot : WellNamed root) {p : Path}
    (hp : p ∈ (throughVisits faults root).flatMap (foundAt faults excluded)) :
    p ∉ membersBelow excluded root [] := by
  obtain ⟨v, hv, hfound⟩ := mem_flatMap.mp hp
  obtain ⟨hv, hthrough⟩ := mem_filter.mp hv
  have hin : p ∈ membersIn excluded v := by
    unfold foundAt at hfound
    split at hfound
    · cases hfound
    · exact hfound
  obtain ⟨name, -, -, rfl⟩ := mem_membersIn hin
  intro hmember
  obtain ⟨q, hq, hnot⟩ := not_crosses root [] hroot (List.Subset.refl _) _ hmember
  rcases mem_cons.mp hv with rfl | hv
  · cases hthrough
  · split at hv
    · cases hv
    · obtain ⟨q', hpath, hcross⟩ :=
        crosses_of_through root [] hroot (List.Subset.refl _) v hv hthrough
      have hqq : q = q' ++ [name] := by
        rw [nil_append] at hq hpath
        rw [← hq, hpath]
      rw [hqq, hcross] at hnot
      cases hnot

theorem nothingMissed_iff : NothingMissed faults excluded root ↔
    (directVisits faults root).flatMap (lostAt faults excluded) = [] ∧
      (throughVisits faults root).flatMap (foundAt faults excluded) = [] := by
  unfold NothingMissed directVisits throughVisits
  simp only [flatMap_eq_nil_iff, mem_filter]
  constructor
  · intro h
    constructor
    · rintro v ⟨hv, hdirect⟩
      have := h v hv
      rwa [if_neg (by simpa using hdirect)] at this
    · rintro v ⟨hv, hthrough⟩
      have := h v hv
      rwa [if_pos hthrough] at this
  · rintro ⟨hlost, hstray⟩ v hv
    split
    · rename_i hthrough
      exact hstray v ⟨hv, hthrough⟩
    · rename_i hdirect
      exact hlost v ⟨hv, by simpa using hdirect⟩

theorem found_perm_iff (hroot : WellNamed root) :
    ((osWalk faults root).flatMap (membersIn excluded)).Perm (membersBelow excluded root []) ↔
      NothingMissed faults excluded root := by
  have hfound : ∀ p, ((osWalk faults root).flatMap (membersIn excluded)).count p =
      ((throughVisits faults root).flatMap (foundAt faults excluded)).count p +
        ((directVisits faults root).flatMap (foundAt faults excluded)).count p := by
    intro p
    rw [found_eq]
    exact count_flatMap_filter p _ _ _
  have hmembers : ∀ p, (membersBelow excluded root []).count p =
      ((directVisits faults root).flatMap (foundAt faults excluded)).count p +
        ((directVisits faults root).flatMap (lostAt faults excluded)).count p := members_count
  rw [perm_iff_count, nothingMissed_iff]
  constructor
  · intro hcount
    -- what is lost is as often lost as it is found behind a symlink
    have hsame : ∀ p, ((directVisits faults root).flatMap (lostAt faults excluded)).count p =
        ((throughVisits faults root).flatMap (foundAt faults excluded)).count p := by
      intro p
      have hp := hcount p
      rw [hfound, hmembers] at hp
      omega
    have hstray : (throughVisits faults root).flatMap (foundAt faults excluded) = [] := by
      apply eq_nil_iff_forall_not_mem.mpr
      intro p hp
      refine stray_not_member hroot hp ?_
      have hpos := count_pos_iff.mpr hp
      have hlost := hsame p
      have hp := hmembers p
      apply count_pos_iff.mp
      omega
    refine ⟨?_, hstray⟩
    apply eq_nil_iff_forall_not_mem.mpr
    intro p hp
    have hpos := count_pos_iff.mpr hp
    rw [hsame p, hstray] at hpos
    cases hpos
  · rintro ⟨hlost, hstray⟩ p
    rw [hfound, hmembers, hlost, hstray, count_nil]
    omega

theorem sorted_perm {l l' : List String} :
    l.insertionSort (· ≤ ·) = l'.insertionSort (· ≤ ·) ↔ l.Perm l' := by
  constructor
  · intro h
    have hl := perm_insertionSort (· ≤ ·) l
    rw [h] at hl
    exact hl.symm.trans (perm_insertionSort (· ≤ ·) l')
  · intro h
    have hperm := (perm_insertionSort (· ≤ ·) l).trans
      (h.trans (perm_insertionSort (· ≤ ·) l').symm)
    exact hperm.eq_of_pairwise' (pairwise_insertionSort _ l) (pairwise_insertionSort _ l')

theorem map_pathOf {ps : List Path} {rels : List String} (hps : ∀ p ∈ ps, Proper p)
    (h : ps.mapM relpath = some rels) : rels.map pathOf = ps := by
  have hall := mapM_eq_some.mp h
  clear h
  induction hall with
  | nil => rfl
  | cons hrel _ ih =>
    obtain ⟨hp, hps⟩ := forall_mem_cons.mp hps
    rw [map_cons, pathOf_relpath hp hrel, ih hps]

theorem texts_perm_iff {ps qs : List Path} {rels : List String} (hps : ∀ p ∈ ps, Proper p)
    (hqs : ∀ q ∈ qs, Proper q) (h : ps.mapM relpath = some rels) :
    (∃ texts, qs.mapM relpath = some texts ∧ rels.Perm texts) ↔ ps.Perm qs := by
  constructor
  · rintro ⟨texts, htexts, hperm⟩
    rw [← map_pathOf hps h, ← map_pathOf hqs htexts]
    exact hperm.map pathOf
  · intro hperm
    obtain ⟨texts, htexts, hrels⟩ := perm_comp_forall₂ hperm.symm (mapM_eq_some.mp h)
    exact ⟨texts, mapM_eq_some.mpr htexts, hrels.symm⟩

theorem relpath_of_acceptable {v : Visit} (h : Acceptable faults excluded v) {p : Path}
    (hp : p ∈ membersIn excluded v) : (relpath p).isSome := by
  obtain ⟨name, hmem, hskip, rfl⟩ := mem_membersIn hp
  exact (h.filenames _ hmem rfl hskip).2.2

/-- **When a collection is exact.**  `collect_loose_members` raises or returns the sorted relative
paths of the member set exactly if it refuses something in a listed directory or no member goes
with a call that fails and none is found behind a symlink. -/
theorem collectLooseMembers_exact_iff (hroot : WellNamed root) (recordName : String) :
    (∀ rels, collectLooseMembers faults root recordName = .ok rels →
        ∃ excluded, excludedNames recordName = .ok excluded ∧ Exact excluded root rels) ↔
      ∀ excluded, excludedNames recordName = .ok excluded →
        (∃ v ∈ osWalk faults root, ¬ Acceptable faults excluded v) ∨
          NothingMissed faults excluded root := by
  cases hname : excludedNames recordName with
  | error e =>
    have hraise : ∀ rels, collectLooseMembers faults root recordName ≠ .ok rels := by
      intro rels h
      obtain ⟨excluded, hok, -⟩ := bind_eq_ok.mp h
      rw [hname] at hok
      cases hok
    exact ⟨fun _ => nofun, fun _ rels h => absurd h (hraise rels)⟩
  | ok excluded =>
    simp only [Except.ok.injEq, exists_eq_left', forall_eq']
    have hcollect : ∀ rels, collectLooseMembers faults root recordName = .ok rels ↔
        ∃ found, collectVisits faults excluded (osWalk faults root) = .ok found ∧
          found.insertionSort (· ≤ ·) = rels := by
      intro rels
      unfold collectLooseMembers
      rw [hname]
      show (collectVisits faults excluded (osWalk faults root) >>= fun members =>
        Except.ok (members.insertionSort (· ≤ ·))) = .ok rels ↔ _
      constructor
      · intro h
        obtain ⟨found, hfound, heq⟩ := bind_eq_ok.mp h
        exact ⟨found, hfound, Except.ok.inj heq⟩
      · rintro ⟨found, hfound, rfl⟩
        exact bind_eq_ok.mpr ⟨found, hfound, rfl⟩
    have hproper : ∀ p ∈ (osWalk faults root).flatMap (membersIn excluded), Proper p := by
      intro p hp
      obtain ⟨v, hv, hp⟩ := List.mem_flatMap.mp hp
      exact proper_of_found hroot (List.mem_filter.mp hv).1 hp
    have hmembers : ∀ p ∈ membersBelow excluded root [], Proper p :=
      proper_of_member root [] hroot (List.Subset.refl _) nofun
    -- what is collected is exact when the found paths are the member set
    have hexact : ∀ found, collectVisits faults excluded (osWalk faults root) = .ok found →
        (Exact excluded root (found.insertionSort (· ≤ ·)) ↔ NothingMissed faults excluded root) := by
      intro found hfound
      rw [← found_perm_iff hroot, ← texts_perm_iff hproper hmembers (collectVisits_ok.mp hfound).2]
      unfold Exact
      simp only [sorted_perm]
    constructor
    · intro h
      by_cases hall : ∀ v ∈ osWalk faults root, Acceptable faults excluded v
      · right
        have hrels : ∀ p ∈ (osWalk faults root).flatMap (membersIn excluded),
            (relpath p).isSome := by
          intro p hp
          obtain ⟨v, hv, hp⟩ := List.mem_flatMap.mp hp
          exact relpath_of_acceptable (hall v hv) hp
        obtain ⟨found, hfound⟩ := exists_mapM_some hrels
        have hcollected := collectVisits_ok.mpr ⟨hall, hfound⟩
        obtain hex := h _ ((hcollect _).mpr ⟨found, hcollected, rfl⟩)
        exact (hexact found hcollected).mp hex
      · left
        simpa using hall
    · rintro (⟨v, hv, hno⟩ | hmissed) rels hrels
      · obtain ⟨found, hfound, -⟩ := (hcollect rels).mp hrels
        exact absurd ((collectVisits_ok.mp hfound).1 v hv) hno
      · obtain ⟨found, hfound, rfl⟩ := (hcollect rels).mp hrels
        exact (hexact found hfound).mpr hmissed

end Whole

namespace Unlisted

/-- A unit with one member, in a directory `a`. -/
def unit : Listing := [(literal "a", .dir [(literal "x", .file)])]

/-- The directory `a` cannot be listed (`EACCES`). -/
def denied : Faults where
  listing path := if path = [literal "a"] then some 13 else none
  isDir _ := none
  collectIslink _ := none
  walkIslink _ := none
  lstat _ := none
  openFile _ := none

theorem wellNamed_unit : WellNamed unit := by
  refine .mk (by decide) (by decide) ?_
  rintro name sub (hmem | hmem)
  · obtain ⟨-, hsub⟩ := Prod.mk.inj (mem_singleton.mp hmem)
    obtain rfl := Entry.dir.inj hsub
    refine .mk (by decide) (by decide) ?_
    rintro name sub (hmem | hmem) <;> simp at hmem
  · simp [unit] at hmem

/-- The collection returns without the member, and raises nothing. -/
theorem member_falls_out :
    ¬ ∀ (faults : Faults) (root : Listing) (recordName : String), WellNamed root →
      (∃ e, collectLooseMembers faults root recordName = .error e) ∨
        ∃ excluded rels, collectLooseMembers faults root recordName = .ok rels ∧
          excludedNames recordName = .ok excluded ∧ Exact excluded root rels := by
  intro h
  have hempty : collectLooseMembers denied unit "unit.json" = .ok [] := rfl
  have hexcluded : excludedNames "unit.json" = .ok (artefacts ++ ["unit.json", "unit.json.tmp"]) := rfl
  rcases h denied unit "unit.json" wellNamed_unit with ⟨e, he⟩ | ⟨excluded, rels, hrels, hname, hexact⟩
  · rw [hempty] at he
    cases he
  · rw [hempty] at hrels
    obtain rfl := Except.ok.inj hrels
    obtain rfl := Except.ok.inj (hexcluded.symm.trans hname)
    obtain ⟨texts, htexts, hsorted⟩ := hexact
    have hone : (membersBelow (artefacts ++ ["unit.json", "unit.json.tmp"]) unit []).mapM relpath =
      some ["a/x"] := rfl
    obtain rfl := Option.some.inj (hone.symm.trans htexts)
    cases hsorted

theorem collectLooseMembers_exact_unit :
    (∀ rels, collectLooseMembers denied unit "unit.json" = .ok rels →
        ∃ excluded, excludedNames "unit.json" = .ok excluded ∧ Exact excluded unit rels) ↔
      ∀ excluded, excludedNames "unit.json" = .ok excluded →
        (∃ v ∈ osWalk denied unit, ¬ Acceptable denied excluded v) ∨
          NothingMissed denied excluded unit :=
  collectLooseMembers_exact_iff wellNamed_unit "unit.json"

end Unlisted

end Xtrax.LooseMembers
