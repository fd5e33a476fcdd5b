import Mathlib.Data.List.Sort
import Mathlib.Data.List.Dedup
import Xtrax.PyJsonSpaced
import Xtrax.Results
import Xtrax.Utf8

/-!
# The evaluator closure lock

A manifest is locked with one hash over the evaluator's closure: the text and the content of
every declared path, in the order of the paths, then the content of the pinned-deps file and
the canonical JSON of the config.  `verifyClosure` computes the hash again, and raises if it is
another one, or if the candidate touched a declared path.

The members are hashed back to back, so a drift that only moves bytes across the boundary
between two members (`Slipped`) is not seen.  Every other drift is
(`verifyClosure_detects_iff`).
-/

namespace Xtrax.ClosureLock

open Except Results List

/-! ### The files and the manifest -/

/-- Why a manifest cannot be built: a file is not there, or anything else. -/
inductive BuildError where
  | fileNotFound
  | other
  deriving DecidableEq

/-- The files: where a path leads, and what is read there. -/
structure Files where
  resolve : String → String
  readBytes : String → Except BuildError (List UInt8)
  resolve_resolve : ∀ p, resolve (resolve p) = resolve p
  readBytes_resolve : ∀ p, readBytes (resolve p) = readBytes p

structure ClosureManifest (Config Digest : Type) where
  evaluatorPaths : List String
  splitPaths : List String
  metricDefPaths : List String
  pinnedDepsSource : String
  config : Config
  closureHash : Digest

section

variable {Config Digest : Type}

def protectedPaths (locked : ClosureManifest Config Digest) : List String :=
  locked.evaluatorPaths ++ locked.splitPaths ++ locked.metricDefPaths

def pathParts (p : String) : List (List Char) := p.toList.splitOn '/'

/-- Paths are compared by their parts. -/
def pathLE (p q : String) : Prop := ¬ pathParts q < pathParts p

instance : DecidableRel pathLE :=
  fun p q => inferInstanceAs (Decidable (¬ pathParts q < pathParts p))

/-- `sorted` of a set of paths. -/
def sortedPaths (paths : List String) : List String := paths.dedup.insertionSort pathLE

/-- The text and the content of every path. -/
def memberBytes (files : Files) : List String → Except BuildError (List (List UInt8))
  | [] => .ok []
  | p :: ps => do
    let content ← files.readBytes p
    let rest ← memberBytes files ps
    return utf8 p.toList :: content :: rest

variable (sha256 : List UInt8 → Digest)
-- `_canonical_config_bytes`, unless it raises
variable (canonicalConfigBytes : Config → Except BuildError (List UInt8))

/-- What is hashed, piece by piece: `declared` and `pinned` are resolved paths. -/
def closureMembers (files : Files) (declared : List String) (pinned : String) (config : Config) :
    Except BuildError (List (List UInt8)) := do
  let members ← memberBytes files (sortedPaths declared)
  let deps ← files.readBytes pinned
  let json ← canonicalConfigBytes config
  return members ++ [deps, json]

def buildClosureManifest (files : Files) (evaluatorPaths splitPaths metricDefPaths : List String)
    (config : Config) (pinnedDepsSource : String) :
    Except BuildError (ClosureManifest Config Digest) := do
  let evaluatorPaths := evaluatorPaths.map files.resolve
  let splitPaths := splitPaths.map files.resolve
  let metricDefPaths := metricDefPaths.map files.resolve
  let pinnedDepsSource := files.resolve pinnedDepsSource
  let members ← closureMembers canonicalConfigBytes files
    (evaluatorPaths ++ splitPaths ++ metricDefPaths) pinnedDepsSource config
  return ⟨evaluatorPaths, splitPaths, metricDefPaths, pinnedDepsSource, config,
    sha256 members.flatten⟩

/-- Why `verify_closure` raises. -/
inductive VerifyError where
  | closureHashMismatch
  | protectedPathMutated
  | other
  deriving DecidableEq

variable [DecidableEq Digest]

def verifyClosure (files : Files) (locked : ClosureManifest Config Digest)
    (currentConfig : Config) (candidateTouchedPaths : List String) : Except VerifyError Unit :=
  match buildClosureManifest sha256 canonicalConfigBytes files locked.evaluatorPaths
    locked.splitPaths locked.metricDefPaths currentConfig locked.pinnedDepsSource with
  | .error .fileNotFound => .error .closureHashMismatch
  | .error .other => .error .other
  | .ok current =>
    if current.closureHash ≠ locked.closureHash then .error .closureHashMismatch
    else if candidateTouchedPaths.any (· ∈ protectedPaths locked) then
      .error .protectedPathMutated
    else .ok ()

end

/-! ### Pieces hashed back to back -/

/-- Bytes have slipped across a boundary: after a common start, a piece of one list goes on where
that of the other one ends. -/
inductive Slipped : List (List UInt8) → List (List UInt8) → Prop
  | extended {p d : List UInt8} {ps qs : List (List UInt8)} : d ≠ [] →
      ps.flatten = d ++ qs.flatten → Slipped (p :: ps) ((p ++ d) :: qs)
  | shortened {q d : List UInt8} {ps qs : List (List UInt8)} : d ≠ [] →
      d ++ ps.flatten = qs.flatten → Slipped ((q ++ d) :: ps) (q :: qs)
  | later {p : List UInt8} {ps qs : List (List UInt8)} : Slipped ps qs → Slipped (p :: ps) (p :: qs)
  /-- Empty pieces come to the end of a list, or go. -/
  | appeared {q : List UInt8} {qs : List (List UInt8)} : (q :: qs).flatten = [] →
      Slipped [] (q :: qs)
  | vanished {p : List UInt8} {ps : List (List UInt8)} : (p :: ps).flatten = [] →
      Slipped (p :: ps) []

theorem Slipped.flatten_eq {ps qs : List (List UInt8)} (h : Slipped ps qs) :
    ps.flatten = qs.flatten := by
  induction h with
  | extended _ h => rw [flatten_cons, flatten_cons, h, append_assoc]
  | shortened _ h => rw [flatten_cons, flatten_cons, ← h, append_assoc]
  | later _ ih => rw [flatten_cons, flatten_cons, ih]
  | appeared h => exact h.symm
  | vanished h => exact h

theorem Slipped.ne {ps qs : List (List UInt8)} (h : Slipped ps qs) : ps ≠ qs := by
  induction h with
  | extended hd _ =>
    intro heq
    exact hd (self_eq_append_right.mp (cons.inj heq).1)
  | shortened hd _ =>
    intro heq
    exact hd (self_eq_append_right.mp (cons.inj heq).1.symm)
  | later _ ih => exact fun heq => ih (cons.inj heq).2
  | appeared _ => nofun
  | vanished _ => nofun

/-- **Lists of pieces that are the same back to back are the same, or bytes have slipped.** -/
theorem flatten_eq_iff {ps qs : List (List UInt8)} :
    ps.flatten = qs.flatten ↔ ps = qs ∨ Slipped ps qs := by
  constructor
  · intro h
    induction ps generalizing qs with
    | nil =>
      cases qs with
      | nil => exact Or.inl rfl
      | cons q qs => exact Or.inr (.appeared h.symm)
    | cons p ps ih =>
      cases qs with
      | nil => exact Or.inr (.vanished h)
      | cons q qs =>
        rw [flatten_cons, flatten_cons] at h
        rcases append_eq_append_iff.mp h with ⟨d, rfl, hd⟩ | ⟨d, rfl, hd⟩
        · by_cases hnil : d = []
          · subst hnil
            rcases ih (hd.trans (nil_append _)) with rfl | hslip
            · exact Or.inl (by rw [append_nil])
            · rw [append_nil]
              exact Or.inr (.later hslip)
          · exact Or.inr (.extended hnil hd)
        · by_cases hnil : d = []
          · subst hnil
            rcases ih (hd.trans (nil_append _)).symm with rfl | hslip
            · exact Or.inl (by rw [append_nil])
            · rw [append_nil]
              exact Or.inr (.later hslip)
          · exact Or.inr (.shortened hnil hd.symm)
  · rintro (rfl | h)
    · rfl
    · exact h.flatten_eq

/-! ### What the members tell -/

theorem mem_sortedPaths {paths : List String} {p : String} : p ∈ sortedPaths paths ↔ p ∈ paths := by
  rw [sortedPaths, mem_insertionSort, mem_dedup]

theorem memberBytes_cons {files : Files} {p : String} {ps : List String} {l : List (List UInt8)} :
    memberBytes files (p :: ps) = .ok l ↔ ∃ content rest, files.readBytes p = .ok content ∧
      memberBytes files ps = .ok rest ∧ l = utf8 p.toList :: content :: rest := by
  rw [memberBytes, bind_eq_ok]
  constructor
  · rintro ⟨content, hcontent, h⟩
    obtain ⟨rest, hrest, h⟩ := bind_eq_ok.mp h
    exact ⟨content, rest, hcontent, hrest, (ok.inj h).symm⟩
  · rintro ⟨content, rest, hcontent, hrest, rfl⟩
    exact ⟨content, hcontent, bind_eq_ok.mpr ⟨rest, hrest, rfl⟩⟩

theorem memberBytes_inj {files later : Files} : ∀ {ps qs : List String} {l : List (List UInt8)},
    memberBytes files ps = .ok l → memberBytes later qs = .ok l →
    ps = qs ∧ ∀ p ∈ ps, ∃ content, files.readBytes p = .ok content ∧
      later.readBytes p = .ok content
  | [], [], _, _, _ => ⟨rfl, nofun⟩
  | [], _ :: _, _, h, h' => by
    obtain ⟨_, _, _, _, hl⟩ := memberBytes_cons.mp h'
    exact absurd ((ok.inj h).trans hl) (by simp)
  | _ :: _, [], _, h, h' => by
    obtain ⟨_, _, _, _, hl⟩ := memberBytes_cons.mp h
    exact absurd ((ok.inj h').trans hl) (by simp)
  | p :: ps, q :: qs, _, h, h' => by
    obtain ⟨content, rest, hp, hps, rfl⟩ := memberBytes_cons.mp h
    obtain ⟨content', rest', hq, hqs, hl⟩ := memberBytes_cons.mp h'
    obtain ⟨hpath, hl⟩ := cons.inj hl
    obtain ⟨rfl, rfl⟩ := cons.inj hl
    obtain rfl := String.toList_inj.mp (utf8_injective hpath)
    obtain ⟨rfl, hmem⟩ := memberBytes_inj hps hqs
    refine ⟨rfl, fun p' hp' => ?_⟩
    rcases mem_cons.mp hp' with rfl | hp'
    · exact ⟨content, hp, hq⟩
    · exact hmem p' hp'

theorem memberBytes_congr {files later : Files} {ps : List String} {l : List (List UInt8)}
    (h : memberBytes files ps = .ok l)
    (hsame : ∀ p ∈ ps, files.readBytes p = later.readBytes p) : memberBytes later ps = .ok l := by
  induction ps generalizing l with
  | nil => exact h
  | cons p ps ih =>
    obtain ⟨content, rest, hp, hps, rfl⟩ := memberBytes_cons.mp h
    refine memberBytes_cons.mpr ⟨content, rest, ?_, ih hps ?_, rfl⟩
    · rw [← hsame p mem_cons_self, hp]
    · exact fun q hq => hsame q (mem_cons_of_mem _ hq)

section

variable {Config Digest : Type} {sha256 : List UInt8 → Digest}
variable {canonicalConfigBytes : Config → Except BuildError (List UInt8)}

theorem closureMembers_eq_ok {files : Files} {declared : List String} {pinned : String}
    {config : Config} {l : List (List UInt8)} :
    closureMembers canonicalConfigBytes files declared pinned config = .ok l ↔
      ∃ members deps json, memberBytes files (sortedPaths declared) = .ok members ∧
        files.readBytes pinned = .ok deps ∧ canonicalConfigBytes config = .ok json ∧
        l = members ++ [deps, json] := by
  rw [closureMembers, bind_eq_ok]
  constructor
  · rintro ⟨members, hmembers, h⟩
    obtain ⟨deps, hdeps, h⟩ := bind_eq_ok.mp h
    obtain ⟨json, hjson, h⟩ := bind_eq_ok.mp h
    exact ⟨members, deps, json, hmembers, hdeps, hjson, (ok.inj h).symm⟩
  · rintro ⟨members, deps, json, hmembers, hdeps, hjson, rfl⟩
    refine ⟨members, hmembers, bind_eq_ok.mpr ⟨deps, hdeps, ?_⟩⟩
    exact bind_eq_ok.mpr ⟨json, hjson, rfl⟩

theorem buildClosureManifest_eq_ok {files : Files} {es ss ms : List String} {config : Config}
    {pinned : String} {manifest : ClosureManifest Config Digest} :
    buildClosureManifest sha256 canonicalConfigBytes files es ss ms config pinned = .ok manifest ↔
      ∃ l, closureMembers canonicalConfigBytes files ((es ++ ss ++ ms).map files.resolve)
          (files.resolve pinned) config = .ok l ∧
        manifest = ⟨es.map files.resolve, ss.map files.resolve, ms.map files.resolve,
          files.resolve pinned, config, sha256 l.flatten⟩ := by
  rw [buildClosureManifest, bind_eq_ok, map_append, map_append]
  exact exists_congr fun l => and_congr_right' ⟨fun h => (ok.inj h).symm, fun h => h ▸ rfl⟩

/-! ### What `verify_closure` detects -/

/-- Nothing has drifted: every declared path still leads to its file, which reads as it did, as
does the pinned-deps file, the config has the same canonical JSON, and the candidate touched no
declared path. -/
structure Unchanged (canonicalConfigBytes : Config → Except BuildError (List UInt8))
    (atLock later : Files) (locked : ClosureManifest Config Digest) (currentConfig : Config)
    (touched : List String) : Prop where
  resolve : ∀ p ∈ protectedPaths locked, later.resolve p = p
  files : ∀ p ∈ protectedPaths locked, ∃ content, atLock.readBytes p = .ok content ∧
    later.readBytes p = .ok content
  deps : ∃ content, atLock.readBytes locked.pinnedDepsSource = .ok content ∧
    later.readBytes locked.pinnedDepsSource = .ok content
  config : ∃ json, canonicalConfigBytes locked.config = .ok json ∧
    canonicalConfigBytes currentConfig = .ok json
  touched : ∀ p ∈ touched, p ∉ protectedPaths locked

/-- The candidate touched no declared path, and bytes have slipped across a boundary between
two members. -/
def Unseen (canonicalConfigBytes : Config → Except BuildError (List UInt8))
    (atLock later : Files) (locked : ClosureManifest Config Digest) (currentConfig : Config)
    (touched : List String) : Prop :=
  (∀ p ∈ touched, p ∉ protectedPaths locked) ∧ ∃ old new,
    closureMembers canonicalConfigBytes atLock (protectedPaths locked) locked.pinnedDepsSource
      locked.config = .ok old ∧
    closureMembers canonicalConfigBytes later ((protectedPaths locked).map later.resolve)
      (later.resolve locked.pinnedDepsSource) currentConfig = .ok new ∧
    Slipped old new

theorem resolve_eq_of_sortedPaths {files : Files} {paths : List String}
    (h : sortedPaths paths = sortedPaths (paths.map files.resolve)) :
    ∀ p ∈ paths, files.resolve p = p := by
  intro p hp
  have hmem : p ∈ paths.map files.resolve := by
    rw [← mem_sortedPaths, ← h, mem_sortedPaths]
    exact hp
  obtain ⟨q, -, rfl⟩ := mem_map.mp hmem
  exact files.resolve_resolve q

variable {atLock later : Files} {locked : ClosureManifest Config Digest} {currentConfig : Config}
variable {touched : List String}

theorem unchanged_iff_members {old new : List (List UInt8)}
    (hold : closureMembers canonicalConfigBytes atLock (protectedPaths locked)
      locked.pinnedDepsSource locked.config = .ok old)
    (hnew : closureMembers canonicalConfigBytes later ((protectedPaths locked).map later.resolve)
      (later.resolve locked.pinnedDepsSource) currentConfig = .ok new)
    (htouched : ∀ p ∈ touched, p ∉ protectedPaths locked) :
    Unchanged canonicalConfigBytes atLock later locked currentConfig touched ↔ old = new := by
  obtain ⟨members, deps, json, hmembers, hdeps, hjson, rfl⟩ := closureMembers_eq_ok.mp hold
  obtain ⟨members', deps', json', hmembers', hdeps', hjson', rfl⟩ := closureMembers_eq_ok.mp hnew
  rw [later.readBytes_resolve] at hdeps'
  constructor
  · intro h
    have hmap : (protectedPaths locked).map later.resolve = protectedPaths locked :=
      (map_congr_left h.resolve).trans (map_id _)
    have hsame : memberBytes later (sortedPaths (protectedPaths locked)) = .ok members := by
      refine memberBytes_congr hmembers fun p hp => ?_
      obtain ⟨content, hc, hc'⟩ := h.files p (mem_sortedPaths.mp hp)
      rw [hc, hc']
    rw [hmap, hsame] at hmembers'
    obtain ⟨content, hc, hc'⟩ := h.deps
    obtain ⟨text, ht, ht'⟩ := h.config
    rw [ok.inj hmembers', ← ok.inj (hc.symm.trans hdeps),
      ← ok.inj (hc'.symm.trans hdeps'), ← ok.inj (ht.symm.trans hjson),
      ← ok.inj (ht'.symm.trans hjson')]
  · intro h
    obtain ⟨rfl, hpair⟩ := append_inj' h rfl
    obtain ⟨rfl, hlast⟩ := cons.inj hpair
    obtain ⟨rfl, -⟩ := cons.inj hlast
    obtain ⟨hpaths, hmem⟩ := memberBytes_inj hmembers hmembers'
    exact ⟨resolve_eq_of_sortedPaths hpaths, fun p hp => hmem p (mem_sortedPaths.mpr hp),
      ⟨deps, hdeps, hdeps'⟩, ⟨json, hjson, hjson'⟩, htouched⟩

variable [DecidableEq Digest]

theorem verifyClosure_eq_ok :
    verifyClosure sha256 canonicalConfigBytes later locked currentConfig touched = .ok () ↔
      (∀ p ∈ touched, p ∉ protectedPaths locked) ∧ ∃ new,
        closureMembers canonicalConfigBytes later ((protectedPaths locked).map later.resolve)
          (later.resolve locked.pinnedDepsSource) currentConfig = .ok new ∧
        sha256 new.flatten = locked.closureHash := by
  have hany : touched.any (· ∈ protectedPaths locked) = true ↔
      ¬ ∀ p ∈ touched, p ∉ protectedPaths locked := by
    simp
  unfold verifyClosure
  cases hbuild : buildClosureManifest sha256 canonicalConfigBytes later locked.evaluatorPaths
      locked.splitPaths locked.metricDefPaths currentConfig locked.pinnedDepsSource with
  | error e =>
    have hnone : ¬ ∃ new, closureMembers canonicalConfigBytes later
        ((protectedPaths locked).map later.resolve) (later.resolve locked.pinnedDepsSource)
        currentConfig = .ok new ∧ sha256 new.flatten = locked.closureHash := by
      rintro ⟨new, hnew, -⟩
      exact nomatch hbuild.symm.trans (buildClosureManifest_eq_ok.mpr ⟨new, hnew, rfl⟩)
    cases e <;> exact ⟨nofun, fun h => absurd h.2 hnone⟩
  | ok current =>
    obtain ⟨new, hnew, rfl⟩ := buildClosureManifest_eq_ok.mp hbuild
    dsimp only
    constructor
    · intro h
      split at h
      · exact nomatch h
      · split at h
        · exact nomatch h
        · exact ⟨not_not.mp fun hne => ‹¬ touched.any _ = true› (hany.mpr hne), new, hnew,
            not_not.mp ‹¬ _ ≠ _›⟩
    · rintro ⟨huntouched, new', hnew', hdigest⟩
      obtain rfl := ok.inj (hnew.symm.trans hnew')
      rw [if_neg (not_not.mpr hdigest), if_neg fun h => hany.mp h huntouched]

/-- **What the closure lock detects.**  The hash having no collisions, a manifest that was
locked and a later state of the files, config in effect and candidate: that `verify_closure`
returns only if nothing has drifted means that no bytes have slipped across a boundary between
two members. -/
theorem verifyClosure_detects_iff (hsha : Function.Injective sha256) {es ss ms : List String}
    {config : Config} {pinned : String}
    (hlock : buildClosureManifest sha256 canonicalConfigBytes atLock es ss ms config pinned =
      .ok locked) :
    (verifyClosure sha256 canonicalConfigBytes later locked currentConfig touched = .ok () →
        Unchanged canonicalConfigBytes atLock later locked currentConfig touched) ↔
      ¬ Unseen canonicalConfigBytes atLock later locked currentConfig touched := by
  obtain ⟨old, hold, heq⟩ := buildClosureManifest_eq_ok.mp hlock
  have hhash : locked.closureHash = sha256 old.flatten := by rw [heq]
  have hmembers : closureMembers canonicalConfigBytes atLock (protectedPaths locked)
      locked.pinnedDepsSource locked.config = .ok old := by
    rw [heq]
    simpa [protectedPaths] using hold
  rw [verifyClosure_eq_ok, hhash]
  constructor
  · rintro h ⟨htouched, old', new, hold', hnew, hslip⟩
    obtain rfl := Except.ok.inj (hmembers.symm.trans hold')
    have hunchanged := h ⟨htouched, new, hnew, congrArg sha256 hslip.flatten_eq.symm⟩
    exact hslip.ne ((unchanged_iff_members hmembers hnew htouched).mp hunchanged)
  · rintro h ⟨htouched, new, hnew, hdigest⟩
    refine (unchanged_iff_members hmembers hnew htouched).mpr ?_
    rcases flatten_eq_iff.mp (hsha hdigest).symm with heq | hslip
    · exact heq
    · exact absurd ⟨htouched, old, new, hmembers, hnew, hslip⟩ h

end

namespace Sample

open PyJson

/-- Two declared files and a pinned-deps file, none of them a link. -/
def filesOf (judge split deps : List UInt8) : Files where
  resolve p := p
  readBytes p :=
    if p = "/e/judge.py" then .ok judge
    else if p = "/e/split.csv" then .ok split
    else if p = "/uv.lock" then .ok deps
    else .error .fileNotFound
  resolve_resolve _ := rfl
  readBytes_resolve _ := rfl

/-- `_canonical_config_bytes` of a config without floats. -/
def configBytes (config : PyVal) : Except BuildError (List UInt8) :=
  match dumpsSpaced (fun _ => []) 1000 config.sortKeys with
  | some text => .ok (utf8 text)
  | none => .error .other

def config : PyVal := .obj [("seed", .int 1)]

def configText : List UInt8 := utf8 "\x7b\"seed\": 1\x7d".toList

theorem configBytes_config : configBytes config = .ok configText := by decide +kernel

/-- The manifest of the sample, locked with an identity for the hash. -/
def manifest : ClosureManifest PyVal (List UInt8) :=
  ⟨["/e/judge.py"], ["/e/split.csv"], [], "/uv.lock", config,
    [utf8 "/e/judge.py".toList, [1, 2], utf8 "/e/split.csv".toList, [3, 4], [5],
      configText].flatten⟩

theorem sortedPaths_declared :
    sortedPaths ["/e/judge.py", "/e/split.csv"] = ["/e/judge.py", "/e/split.csv"] := by
  decide

theorem manifest_locked :
    buildClosureManifest id configBytes (filesOf [1, 2] [3, 4] [5]) ["/e/judge.py"]
      ["/e/split.csv"] [] config "/uv.lock" = .ok manifest := by
  refine buildClosureManifest_eq_ok.mpr ⟨_, ?_, rfl⟩
  refine closureMembers_eq_ok.mpr ⟨[utf8 "/e/judge.py".toList, [1, 2],
    utf8 "/e/split.csv".toList, [3, 4]], [5], configText, ?_, rfl, configBytes_config, rfl⟩
  show memberBytes _ (sortedPaths ["/e/judge.py", "/e/split.csv"]) = _
  rw [sortedPaths_declared]
  rfl

theorem verifyClosure_detects_changed_split :
    (verifyClosure id configBytes (filesOf [1, 2] [3, 9] [5]) manifest config [] = .ok () →
        Unchanged configBytes (filesOf [1, 2] [3, 4] [5]) (filesOf [1, 2] [3, 9] [5]) manifest
          config []) ↔
      ¬ Unseen configBytes (filesOf [1, 2] [3, 4] [5]) (filesOf [1, 2] [3, 9] [5]) manifest config
        [] :=
  verifyClosure_detects_iff Function.injective_id manifest_locked

/-- The last byte of the split file has moved to the front of the pinned-deps file: the lock
does not see it. -/
theorem verifyClosure_misses_slip :
    buildClosureManifest id configBytes (filesOf [1, 2] [3, 4] [5]) ["/e/judge.py"]
        ["/e/split.csv"] [] config "/uv.lock" = .ok manifest ∧
      verifyClosure id configBytes (filesOf [1, 2] [3] [4, 5]) manifest config [] = .ok () ∧
      ¬ Unchanged configBytes (filesOf [1, 2] [3, 4] [5]) (filesOf [1, 2] [3] [4, 5]) manifest
        config [] := by
  refine ⟨manifest_locked, ?_, fun h => ?_⟩
  · refine verifyClosure_eq_ok.mpr ⟨nofun, [utf8 "/e/judge.py".toList, [1, 2],
      utf8 "/e/split.csv".toList, [3], [4, 5], configText], ?_, rfl⟩
    refine closureMembers_eq_ok.mpr ⟨[utf8 "/e/judge.py".toList, [1, 2],
      utf8 "/e/split.csv".toList, [3]], [4, 5], configText, ?_, rfl, configBytes_config,
      rfl⟩
    show memberBytes _ (sortedPaths ["/e/judge.py", "/e/split.csv"]) = _
    rw [sortedPaths_declared]
    rfl
  · obtain ⟨content, hold, hnew⟩ := h.deps
    exact absurd ((Except.ok.inj hold).trans (Except.ok.inj hnew).symm) (by decide)

end Sample

end Xtrax.ClosureLock
