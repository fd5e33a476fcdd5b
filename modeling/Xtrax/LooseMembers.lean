import Mathlib
import Xtrax.Results
import Xtrax.UnitPack

/-! # The members a walk collects

`collect_loose_members` goes over what `os.walk` yields, and `os.walk` has a policy of its own for
calls that fail: a directory that cannot be listed yields nothing, an entry whose kind cannot be
told is no directory, and a path that cannot be looked at is no symlink.

A tree is what is on disk, with what is seen behind a symlink to a directory as part of the
symlink.  A fault pattern says which calls fail, by path and with which error number.
-/
namespace Xtrax.LooseMembers

open List Results

/-- A file name as Python decodes it: a byte that is not part of a UTF-8 sequence stands for
itself. -/
abbrev Name := List (Char ⊕ UInt8)

/-- Names from the unit directory down. -/
abbrev Path := List Name

/-- What a name of a directory is. -/
inductive Entry
  | file
  | special
  /-- A symlink to a directory, with what is listed through it. -/
  | dirLink (entries : List (Name × Entry))
  | link
  | dir (entries : List (Name × Entry))

abbrev Listing := List (Name × Entry)

/-- The calls that fail, with their error numbers. -/
structure Faults where
  /-- `os.scandir`, or reading on from it. -/
  listing : Path → Option Nat
  isDir : Path → Option Nat
  /-- The `lstat` of the `os.path.islink` in `collect_loose_members`. -/
  collectIslink : Path → Option Nat
  /-- The `lstat` of the `os.path.islink` in `os.walk`. -/
  walkIslink : Path → Option Nat
  lstat : Path → Option Nat
  /-- The `open` of a file to hash, by its relative path. -/
  openFile : String → Option Nat

inductive Fault
  /-- `UnitPackRefused` with the rule R-U3. -/
  | recordName (name : String)
  | symlink (name : Name)
  | notRegular (path : Path)
  | notUtf8 (path : Path)
  | os (errno : Nat)

/-! ## Names and paths -/

/-- A name without stray bytes. -/
def literal (s : String) : Name := s.toList.map Sum.inl

/-- The text of a name, unless it has stray bytes. -/
def nameText (name : Name) : Option String := (name.mapM Sum.getLeft?).map String.ofList

/-- `os.path.relpath` from the unit directory, when it is valid UTF-8. -/
def relpath (path : Path) : Option String := (path.mapM nameText).map fun names => "/".intercalate names

def artefacts : List String :=
  [Pack.packFile, Pack.partialFile, Pack.packIndex, Pack.packLock]

def excludedNames (recordName : String) : Except Fault (List String) :=
  if !Pack.isPlainRelpath recordName || recordName.toList.contains '/'
      || artefacts.contains recordName then
    .error (.recordName recordName)
  else .ok (artefacts ++ [recordName, recordName ++ ".tmp"])

def isTransient (fname : Name) : Bool :=
  (literal ".").isPrefixOf fname && (literal ".tmp").isSuffixOf fname ||
    (literal ".nfs").isPrefixOf fname

/-- A name that is no member's, in the directory at a path. -/
def skipped (excluded : List String) (path : Path) (fname : Name) : Bool :=
  isTransient fname || path = [] && (excluded.map literal).contains fname

/-! ## `os.walk` -/

/-- A directory that a walk lists, or tries to. -/
structure Visit where
  path : Path
  /-- The walk came here through a symlink. -/
  through : Bool
  entries : Listing

section Walk

variable (faults : Faults)

/-- The entry has its name among the `dirnames`. -/
def listedAsDir (path : Path) (e : Name × Entry) : Bool :=
  match e.2 with
  | .dir _ | .dirLink _ => (faults.isDir (path ++ [e.1])).isNone
  | _ => false

mutual

/-- The directories that `os.walk` tries to list at an entry of a listed directory and below, top
down. -/
def triedAt : Entry → Path → Bool → List Visit
  | .dir entries, path, through =>
    if (faults.isDir path).isSome then []
    else ⟨path, through, entries⟩ ::
      if (faults.listing path).isSome then [] else triedBelow entries path through
  | .dirLink entries, path, _ =>
    -- walked into only where the link test fails
    if (faults.isDir path).isSome || (faults.walkIslink path).isNone then []
    else ⟨path, true, entries⟩ ::
      if (faults.listing path).isSome then [] else triedBelow entries path true
  | .file, _, _ | .special, _, _ | .link, _, _ => []

/-- The directories that `os.walk` tries to list below a listed one. -/
def triedBelow : Listing → Path → Bool → List Visit
  | [], _, _ => []
  | (name, e) :: rest, path, through =>
    triedAt e (path ++ [name]) through ++ triedBelow rest path through

end

/-- The directories that `os.walk` tries to list. -/
def tried (root : Listing) : List Visit :=
  ⟨[], false, root⟩ :: if (faults.listing []).isSome then [] else triedBelow faults root [] false

/-- What `os.walk` yields: the directories that were listed to the end. -/
def osWalk (root : Listing) : List Visit :=
  (tried faults root).filter fun v => (faults.listing v.path).isNone

end Walk

/-! ## `collect_loose_members` -/

section Collect

variable (faults : Faults) (excluded : List String)

/-- The loop over the `dirnames` of a directory. -/
def checkDirnames (path : Path) : Listing → Except Fault Unit
  | [] => .ok ()
  | (name, .dirLink _) :: rest =>
    if (faults.collectIslink (path ++ [name])).isNone then .error (.symlink name)
    else checkDirnames path rest
  | _ :: rest => checkDirnames path rest

/-- The loop over the `filenames` of a directory. -/
def collectFilenames (path : Path) : Listing → Except Fault (List String)
  | [] => .ok []
  | (fname, e) :: rest =>
    if skipped excluded path fname then collectFilenames path rest
    else
      match faults.lstat (path ++ [fname]) with
      | some errno => .error (.os errno)
      | none =>
        match e with
        | .file =>
          match relpath (path ++ [fname]) with
          | none => .error (.notUtf8 (path ++ [fname]))
          | some rel => do return rel :: (← collectFilenames path rest)
        | _ => .error (.notRegular (path ++ [fname]))

/-- The loop over the directories that `os.walk` yields. -/
def collectVisits : List Visit → Except Fault (List String)
  | [] => .ok []
  | v :: rest => do
    checkDirnames faults v.path (v.entries.filter (listedAsDir faults v.path))
    let here ← collectFilenames faults excluded v.path
      (v.entries.filter fun e => !listedAsDir faults v.path e)
    return here ++ (← collectVisits rest)

end Collect

def collectLooseMembers (faults : Faults) (root : Listing) (recordName : String) :
    Except Fault (List String) := do
  let excluded ← excludedNames recordName
  let members ← collectVisits faults excluded (osWalk faults root)
  return members.insertionSort (· ≤ ·)

/-- `_loose_shas`, with `_sha256_file` for a file that is opened. -/
def looseShas (faults : Faults) (root : Listing) (recordName : String)
    (sha256File : String → String) : Except Fault (List (String × String)) := do
  let members ← collectLooseMembers faults root recordName
  members.mapM fun rel =>
    match faults.openFile rel with
    | some errno => .error (.os errno)
    | none => .ok (rel, sha256File rel)

/-! ## The member set -/

mutual

/-- The regular files at an entry of a directory and below that belong to the member set. -/
def membersAt (excluded : List String) : Entry → Path → Name → List Path
  | .file, path, name => if skipped excluded path name then [] else [path ++ [name]]
  | .dir entries, path, name => membersBelow excluded entries (path ++ [name])
  | .special, _, _ | .link, _, _ | .dirLink _, _, _ => []

/-- The regular files below a directory that belong to the member set. -/
def membersBelow (excluded : List String) : Listing → Path → List Path
  | [], _ => []
  | (name, e) :: rest, path => membersAt excluded e path name ++ membersBelow excluded rest path

end

/-- `rels` are the sorted relative paths of the member set. -/
def Exact (excluded : List String) (root : Listing) (rels : List String) : Prop :=
  ∃ texts, (membersBelow excluded root []).mapM relpath = some texts ∧
    rels = texts.insertionSort (· ≤ ·)

/-! ## What a walk misses -/

section Missed

variable (faults : Faults) (excluded : List String)

/-- The entry of a directory as a member. -/
def memberAt (path : Path) : Name × Entry → Option Path
  | (name, .file) => if skipped excluded path name then none else some (path ++ [name])
  | _ => none

/-- The regular files listed in a directory that belong to the member set. -/
def membersIn (v : Visit) : List Path := v.entries.filterMap (memberAt excluded v.path)

/-- The members below an entry that is a directory and not seen to be one. -/
def lostEntry (path : Path) : Name × Entry → List Path
  | (name, .dir entries) =>
    if (faults.isDir (path ++ [name])).isSome then membersBelow excluded entries (path ++ [name])
    else []
  | _ => []

/-- The members below a directory that go with a call that fails there: all, where it cannot be
listed, and otherwise those below an entry not seen to be a directory. -/
def lostAt (v : Visit) : List Path :=
  if (faults.listing v.path).isSome then membersBelow excluded v.entries v.path
  else v.entries.flatMap (lostEntry faults excluded v.path)

/-- What a walk finds in a directory. -/
def foundAt (v : Visit) : List Path :=
  if (faults.listing v.path).isSome then [] else membersIn excluded v

/-- No member goes with a call that fails, and none is found behind a symlink. -/
def NothingMissed (root : Listing) : Prop :=
  ∀ v ∈ tried faults root,
    if v.through then foundAt faults excluded v = [] else lostAt faults excluded v = []

/-- What is accepted among the `filenames` of a directory: a regular file with a relative path,
where the name is not skipped. -/
def AcceptableFile (path : Path) (e : Name × Entry) : Prop :=
  skipped excluded path e.1 = false →
    faults.lstat (path ++ [e.1]) = none ∧ (e.2 matches .file) ∧ (relpath (path ++ [e.1])).isSome

/-- Nothing in a listed directory is refused: no symlink to a directory is seen to be one, and
what is taken for a file is one. -/
structure Acceptable (v : Visit) : Prop where
  dirnames : ∀ name entries, (name, Entry.dirLink entries) ∈ v.entries →
    (faults.isDir (v.path ++ [name])).isSome ∨ (faults.collectIslink (v.path ++ [name])).isSome
  filenames : ∀ e ∈ v.entries, listedAsDir faults v.path e = false →
    AcceptableFile faults excluded v.path e

end Missed

/-! ## The loops -/

section Loops

variable {faults : Faults} {excluded : List String} {v : Visit} {root : Listing}

theorem checkDirnames_ok {path : Path} {dirs : Listing} :
    checkDirnames faults path dirs = .ok () ↔
      ∀ name entries, (name, Entry.dirLink entries) ∈ dirs →
        (faults.collectIslink (path ++ [name])).isSome := by
  fun_induction checkDirnames faults path dirs with
  | case1 => simp
  | case2 name entries rest hnone =>
    constructor
    · nofun
    · intro h
      have hsome := h name entries mem_cons_self
      rw [Option.isSome_iff_ne_none] at hsome
      exact absurd (Option.isNone_iff_eq_none.mp hnone) hsome
  | case3 name entries rest hnone ih =>
    rw [ih]
    constructor
    · intro h n es hmem
      rcases mem_cons.mp hmem with heq | hmem
      · obtain ⟨rfl, -⟩ := Prod.mk.inj heq
        exact Option.isSome_iff_ne_none.mpr (by simpa using hnone)
      · exact h n es hmem
    · exact fun h n es hmem => h n es (mem_cons_of_mem _ hmem)
  | case4 e rest hne ih =>
    rw [ih]
    constructor
    · intro h n es hmem
      rcases mem_cons.mp hmem with heq | hmem
      · exact absurd heq.symm (hne n es)
      · exact h n es hmem
    · exact fun h n es hmem => h n es (mem_cons_of_mem _ hmem)

theorem collectFilenames_ok {path : Path} {files : Listing} {rels : List String} :
    collectFilenames faults excluded path files = .ok rels ↔
      (∀ e ∈ files, AcceptableFile faults excluded path e) ∧
        (files.filterMap (memberAt excluded path)).mapM relpath = some rels := by
  induction files generalizing rels with
  | nil => simp [collectFilenames, eq_comm]
  | cons e rest ih =>
    obtain ⟨fname, kind⟩ := e
    unfold collectFilenames
    rw [List.forall_mem_cons]
    by_cases hskip : skipped excluded path fname = true
    · have hnone : memberAt excluded path (fname, kind) = none := by
        cases kind <;> simp [memberAt, hskip]
      rw [if_pos hskip, ih, List.filterMap_cons_none hnone]
      have hfirst : AcceptableFile faults excluded path (fname, kind) := by
        intro hno
        rw [hskip] at hno
        cases hno
      exact ⟨fun h => ⟨⟨hfirst, h.1⟩, h.2⟩, fun h => ⟨h.1.2, h.2⟩⟩
    · rw [if_neg hskip]
      have hno : skipped excluded path fname = false := by simpa using hskip
      cases hlstat : faults.lstat (path ++ [fname]) with
      | some errno =>
        refine ⟨nofun, fun h => ?_⟩
        have := (h.1.1 hno).1
        rw [hlstat] at this
        cases this
      | none =>
        cases kind with
        | file =>
          have hsome : memberAt excluded path (fname, .file) = some (path ++ [fname]) := by
            simp [memberAt, hno]
          rw [List.filterMap_cons_some hsome, List.mapM_cons]
          cases hrel : relpath (path ++ [fname]) with
          | none =>
            refine ⟨nofun, fun h => ?_⟩
            have := (h.1.1 hno).2.2
            rw [hrel] at this
            cases this
          | some rel =>
            have hfirst : AcceptableFile faults excluded path (fname, .file) :=
              fun _ => ⟨hlstat, rfl, by rw [hrel]; rfl⟩
            simp only [bind_eq_ok, ih, Option.pure_def, Option.bind_eq_bind, Option.bind_some,
              Option.bind_eq_some_iff, Option.some.injEq]
            constructor
            · rintro ⟨rels', ⟨hall, hmap⟩, heq⟩
              exact ⟨⟨hfirst, hall⟩, rels', hmap, Except.ok.inj heq⟩
            · rintro ⟨⟨-, hall⟩, rels', hmap, rfl⟩
              exact ⟨rels', ⟨hall, hmap⟩, rfl⟩
        | special | link | dirLink entries | dir entries =>
          refine ⟨nofun, fun h => ?_⟩
          have := (h.1.1 hno).2.1
          cases this

theorem filterMap_filenames :
    (v.entries.filter fun e => !listedAsDir faults v.path e).filterMap (memberAt excluded v.path) =
      membersIn excluded v := by
  rw [filterMap_filter, membersIn]
  congr 1
  funext e
  obtain ⟨name, kind⟩ := e
  cases kind <;> simp [memberAt, listedAsDir]

theorem acceptable_iff : Acceptable faults excluded v ↔
    (∀ name entries, (name, Entry.dirLink entries) ∈ v.entries.filter (listedAsDir faults v.path) →
      (faults.collectIslink (v.path ++ [name])).isSome) ∧
    ∀ e ∈ v.entries.filter fun e => !listedAsDir faults v.path e,
      AcceptableFile faults excluded v.path e := by
  constructor
  · intro h
    constructor
    · intro name entries hmem
      obtain ⟨hentry, hlisted⟩ := mem_filter.mp hmem
      rcases h.dirnames name entries hentry with hdir | hlink
      · simp [listedAsDir] at hlisted
        simp [hlisted] at hdir
      · exact hlink
    · intro e hmem hskip
      obtain ⟨hentry, hlisted⟩ := mem_filter.mp hmem
      exact h.filenames e hentry (by simpa using hlisted) hskip
  · rintro ⟨hdirs, hfiles⟩
    constructor
    · intro name entries hentry
      by_cases hlisted : listedAsDir faults v.path (name, .dirLink entries) = true
      · exact .inr (hdirs name entries (mem_filter.mpr ⟨hentry, hlisted⟩))
      · refine .inl ?_
        rw [listedAsDir] at hlisted
        exact Option.isSome_iff_ne_none.mpr (by simpa using hlisted)
    · intro e hentry hlisted hskip
      exact hfiles e (mem_filter.mpr ⟨hentry, by simp [hlisted]⟩) hskip

theorem collectVisits_ok {vs : List Visit} {rels : List String} :
    collectVisits faults excluded vs = .ok rels ↔
      (∀ v ∈ vs, Acceptable faults excluded v) ∧
        (vs.flatMap (membersIn excluded)).mapM relpath = some rels := by
  induction vs generalizing rels with
  | nil => simp [collectVisits, eq_comm]
  | cons v vs ih =>
    rw [collectVisits, List.forall_mem_cons, List.flatMap_cons, List.mapM_append, acceptable_iff]
    simp only [bind_eq_ok, collectFilenames_ok, filterMap_filenames, ih,
      Option.pure_def, Option.bind_eq_bind, Option.bind_eq_some_iff, Option.some.injEq]
    constructor
    · rintro ⟨⟨⟩, hdirs, here, ⟨hfiles, hhere⟩, below, ⟨hall, hbelow⟩, heq⟩
      exact ⟨⟨⟨checkDirnames_ok.mp hdirs, hfiles⟩, hall⟩, here, hhere, below, hbelow,
        Except.ok.inj heq⟩
    · rintro ⟨⟨⟨hdirs, hfiles⟩, hall⟩, here, hhere, below, hbelow, rfl⟩
      exact ⟨(), checkDirnames_ok.mpr hdirs, here, ⟨hfiles, hhere⟩, below, ⟨hall, hbelow⟩, rfl⟩

end Loops

end Xtrax.LooseMembers
