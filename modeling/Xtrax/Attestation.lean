import Xtrax.TomlRoundTrip

/-!
# Attestations as TOML

The texts of `build_repro_floor_attestation_toml` and `build_metrics_provenance_attestation_toml`.
The text of a result that passed, or of a record, is read back as one `[attestation]` table of its
fields (`attestation_reads`).
-/

namespace Xtrax.Attestation

open List Toml
open PyJson (hexValue4 hexValue4_digitChar intText maxDigits)
open Results (bind_eq_ok exists_mapM exists_of_forall₂ mapM_eq_ok)

/-- How a text is refused: `_divergent_result_error` shows the digests, and an integer may have too
many digits to be written. -/
inductive BuildError
  | divergent (mismatchedDigests : List String)
  | digits
  deriving DecidableEq

/-! ### Strings -/

def tomlNamedEscapes : List (Char × List Char) :=
  [('\\', ['\\', '\\']), ('"', ['\\', '"']), ('\x08', ['\\', 'b']), ('\t', ['\\', 't']),
    ('\n', ['\\', 'n']), ('\x0c', ['\\', 'f']), ('\r', ['\\', 'r'])]

/-- `f"\\u{codepoint:04x}"`. -/
def unicodeEscape (codepoint : Nat) : List Char :=
  ['\\', 'u', Nat.digitChar (codepoint / 4096), Nat.digitChar (codepoint / 256 % 16),
    Nat.digitChar (codepoint / 16 % 16), Nat.digitChar (codepoint % 16)]

/-- What `toml_escape_basic_string` puts out for a character. -/
def tomlEscape (char : Char) : List Char :=
  match tomlNamedEscapes.lookup char with
  | some escape => escape
  | none => if char.toNat < 0x20 ∨ char.toNat = 0x7F then unicodeEscape char.toNat else [char]

def tomlEscapeBasicString (value : String) : List Char := value.toList.flatMap tomlEscape

def tomlQuote (value : String) : List Char := '"' :: (tomlEscapeBasicString value ++ ['"'])

theorem tomlEscape_cases (c : Char) : (c, tomlEscape c) ∈ tomlNamedEscapes ∨
    (c.toNat < 0x80 ∧ tomlEscape c = unicodeEscape c.toNat) ∨
    (c ≠ '\\' ∧ c ≠ '"' ∧ c ≠ '\n' ∧ isIllegal c = false ∧ tomlEscape c = [c]) := by
  unfold tomlEscape
  cases hnamed : tomlNamedEscapes.lookup c with
  | some escape =>
    left
    obtain ⟨l₁, l₂, heq, -⟩ := List.lookup_eq_some_iff.mp hnamed
    rw [heq]
    exact List.mem_append_right _ List.mem_cons_self
  | none =>
    right
    have hnot := List.lookup_eq_none_iff.mp hnamed
    dsimp only
    split_ifs with hcontrol
    · exact .inl ⟨by omega, rfl⟩
    · have hne : ∀ d ∈ tomlNamedEscapes.map Prod.fst, c ≠ d := by
        intro d hd heq
        obtain ⟨e, he, rfl⟩ := List.mem_map.mp hd
        exact absurd heq (by simpa using hnot e he)
      obtain ⟨hlow, hdelete⟩ := not_or.mp hcontrol
      refine .inr ⟨hne _ (by decide), hne _ (by decide), hne _ (by decide), ?_, rfl⟩
      rw [isIllegal, decide_eq_false hlow, decide_eq_false hdelete]
      rfl

theorem escapes_tomlEscape : Escapes tomlEscape := by
  intro c rest
  rcases tomlEscape_cases c with hnamed | ⟨hlow, hnumber⟩ | ⟨hslash, hquote, -, hlegal, hplain⟩
  · generalize tomlEscape c = escape at hnamed
    simp only [tomlNamedEscapes, mem_cons, Prod.mk.injEq, not_mem_nil, or_false] at hnamed
    rcases hnamed with ⟨rfl, rfl⟩ | ⟨rfl, rfl⟩ | ⟨rfl, rfl⟩ | ⟨rfl, rfl⟩ | ⟨rfl, rfl⟩ | ⟨rfl, rfl⟩ |
      ⟨rfl, rfl⟩ <;> rfl
  · have hscalar : scalar c.toNat = some c := by
      have hvalid : c.toNat.isValidChar := c.valid
      rw [scalar, if_pos hvalid, Char.ofNat_toNat]
    rw [hnumber]
    show scanBody ('\\' :: 'u' :: _ :: _ :: _ :: _ :: rest) = _
    rw [scanBody, hexValue4_digitChar (Nat.lt_trans hlow (by decide)), Option.bind_eq_bind,
      Option.bind_some, hscalar]
  · rw [hplain, singleton_append, scanBody]
    · rw [hlegal, decide_eq_false hslash]
      rfl
    · exact hquote
    all_goals
      intros
      exact absurd ‹_› hslash

theorem newline_not_mem_tomlEscape (c : Char) : '\n' ∉ tomlEscape c := by
  rcases tomlEscape_cases c with hnamed | ⟨hlow, hnumber⟩ | ⟨-, -, hline, -, hplain⟩
  · have hall : ∀ e ∈ tomlNamedEscapes, '\n' ∉ e.2 := by decide
    exact hall _ hnamed
  · have hall : ∀ n < 0x80, '\n' ∉ unicodeEscape n := by decide
    rw [hnumber]
    exact hall _ hlow
  · rw [hplain, mem_singleton]
    exact hline.symm

/-! ### Records -/

section Records

variable {F : Type} (floats : Toml.FloatText F)

/-- `int.__repr__`. -/
def strInt (n : Int) : Except BuildError (List Char) :=
  if maxDigits < (Nat.toDigits 10 n.natAbs).length then .error .digits else .ok (intText n)

/-- The values of a fitness: an `int` is a `float` to the type checker. -/
inductive Number (F : Type)
  | int (n : Int)
  | float (x : F)

/-- `f"{v}"`. -/
def Number.str : Number F → Except BuildError (List Char)
  | int n => strInt n
  | float x => .ok (floats.repr x)

structure ReproFloorResult where
  passed : Bool
  seedPin : Int
  rerunCount : Int
  rerunDigests : List String
  contentHash : String
  runId : String
  outputPath : String
  mismatchedDigests : List String := []
  createdBy : String := "xtrax.run.repro_floor"
  createdAt : String := ""

/-- `MetricsProvenanceRecord`, whose fitness is a mapping. -/
structure MetricsProvenanceRecord (F : Type) where
  fitness : List (String × Number F)
  keys : (fitness.map Prod.fst).Nodup
  evaluatorClosureHash : String
  runId : String
  createdBy : String := "xtrax.loop.metrics_provenance"
  createdAt : String := ""

/-- `sorted(record.fitness.items())`; no two keys are equal, so no two values are compared. -/
def MetricsProvenanceRecord.sortedItems (record : MetricsProvenanceRecord F) :
    List (String × Number F) := record.fitness.mergeSort fun a b => a.1 ≤ b.1

/-- `{ a, b }` -/
def inlineTable (members : List (List Char)) : List Char :=
  '{' :: ' ' :: (joined members ++ [' ', '}'])

def inlineArray (items : List (List Char)) : List Char := '[' :: (joined items ++ [']'])

def heading (kind module : String) : List (List Char) :=
  [("# Attestation (" ++ kind ++ ")").toList,
    ("# Generated via " ++ module ++ " -- register with bathos's").toList,
    "# attestation_register MCP tool (or `bth attestation register <path>`)".toList,
    "# to anchor into the bathos catalog (see module docstring).".toList, []]

/-- The lines under the header of a result. -/
def ReproFloorResult.lines (result : ReproFloorResult) (seedPin rerunCount : List Char) :
    List (List Char) :=
  [member "kind".toList (tomlQuote "repro_floor"), member "verdict".toList (tomlQuote "PASS"),
    member "attested".toList (inlineTable [member "run_id".toList (tomlQuote result.runId),
      member "output_path".toList (tomlQuote result.outputPath),
      member "content_hash".toList (tomlQuote result.contentHash)]),
    member "seed_pin".toList seedPin,
    member "rerun_count".toList rerunCount,
    member "rerun_digests".toList (inlineArray (result.rerunDigests.map tomlQuote)),
    member "created_by".toList (tomlQuote result.createdBy),
    member "created_at".toList (tomlQuote result.createdAt)]

/-- The lines under the header of a record. -/
def MetricsProvenanceRecord.lines (record : MetricsProvenanceRecord F)
    (fitness : List (List Char)) : List (List Char) :=
  [member "kind".toList (tomlQuote "metrics_provenance"),
    member "attested".toList (inlineTable [member "run_id".toList (tomlQuote record.runId),
      member "evaluator_closure_hash".toList (tomlQuote record.evaluatorClosureHash)]),
    member "fitness".toList (inlineTable fitness),
    member "created_by".toList (tomlQuote record.createdBy),
    member "created_at".toList (tomlQuote record.createdAt)]

def buildReproFloorAttestationToml (result : ReproFloorResult) : Except BuildError (List Char) := do
  if !result.passed then throw (.divergent result.mismatchedDigests)
  let seedPin ← strInt result.seedPin
  let rerunCount ← strInt result.rerunCount
  return document (heading "repro_floor" "xtrax.run.repro_floor" ++ "[attestation]".toList ::
    result.lines seedPin rerunCount)

def fitnessMember (item : String × Number F) : Except BuildError (List Char) := do
  let v ← item.2.str floats
  return member (tomlQuote item.1) v

def buildMetricsProvenanceAttestationToml (record : MetricsProvenanceRecord F) :
    Except BuildError (List Char) := do
  let fitness ← record.sortedItems.mapM (fitnessMember floats)
  return document (heading "metrics_provenance" "xtrax.loop.metrics_provenance" ++
    "[attestation]".toList :: record.lines fitness)

end Records

/-! ### What the texts are read as -/

section Reads

variable {F : Type} {floats : Toml.FloatText F} {text : List Char} {Finite : F → Prop}
  {levels : Nat} {v : Value F}

def Number.value : Number F → Value F
  | int n => .integer n
  | float x => .float x

def ReproFloorResult.table (result : ReproFloorResult) : Entries F :=
  [("kind", .text "repro_floor"), ("verdict", .text "PASS"),
    ("attested", .table [("run_id", .text result.runId), ("output_path", .text result.outputPath),
      ("content_hash", .text result.contentHash)]),
    ("seed_pin", .integer result.seedPin), ("rerun_count", .integer result.rerunCount),
    ("rerun_digests", .array (result.rerunDigests.map .text)),
    ("created_by", .text result.createdBy), ("created_at", .text result.createdAt)]

/-- The table of a record, its fitness in the order given. -/
def MetricsProvenanceRecord.table (record : MetricsProvenanceRecord F)
    (fitness : List (String × Number F)) : Entries F :=
  [("kind", .text "metrics_provenance"),
    ("attested", .table [("run_id", .text record.runId),
      ("evaluator_closure_hash", .text record.evaluatorClosureHash)]),
    ("fitness", .table (fitness.map fun (k, v) => (k, v.value))),
    ("created_by", .text record.createdBy), ("created_at", .text record.createdAt)]

theorem reads_tomlQuote (s : String) : ReadsValue floats 1 (tomlQuote s) (.text s) := by
  have hread : ReadsValue floats 1 (Toml.quote tomlEscape s.toList) _ :=
    reads_quote escapes_tomlEscape newline_not_mem_tomlEscape s.toList
  rw [String.ofList_toList] at hread
  exact hread

theorem readsLine (key : String) (hne : key.toList ≠ []) (hbare : key.toList.all isBareKey = true)
    (hv : ReadsValue floats levels text v) (hlevels : levels ≤ 3) :
    ReadsEntry floats (member key.toList text) (key, v) := by
  have hlength : 3 ≤ (member key.toList text).length := by
    rw [member, length_append, length_append]
    exact Nat.le_trans (Nat.le_add_left 3 _) (Nat.le_add_right _ _)
  have hread := readsLine_member hne (all_eq_true.mp hbare) hv (Nat.le_trans hlevels hlength)
  rw [String.ofList_toList] at hread
  exact hread

theorem strInt_eq_ok {n : Int} : strInt n = .ok text ↔
    (Nat.toDigits 10 n.natAbs).length ≤ maxDigits ∧ text = intText n := by
  rw [strInt]
  split_ifs with h
  · exact ⟨nofun, fun h' => absurd h (not_lt.mpr h'.1)⟩
  · exact ⟨fun heq => ⟨not_lt.mp h, (Except.ok.inj heq).symm⟩, fun h' => congrArg _ h'.2.symm⟩

theorem reads_strInt {n : Int} (h : strInt n = .ok text) :
    ReadsValue floats 1 text (.integer n) := by
  obtain ⟨hdigits, rfl⟩ := strInt_eq_ok.mp h
  exact reads_integer hdigits

theorem reads_quotedMember (key : String) (hv : ReadsValue floats levels text v) :
    ReadsMember floats levels (member (tomlQuote key) text) (key, v) := by
  have hkey : ReadsKey (tomlQuote key) key.toList :=
    readsKey_quote escapes_tomlEscape newline_not_mem_tomlEscape key.toList
  have hread := readsMember hkey hv
  rw [String.ofList_toList] at hread
  exact hread

theorem reads_bareMember (key : String) (hne : key.toList ≠ [])
    (hbare : key.toList.all isBareKey = true) (hv : ReadsValue floats levels text v) :
    ReadsMember floats levels (member key.toList text) (key, v) := by
  have hread := readsMember (readsKey_bare hne (all_eq_true.mp hbare)) hv
  rw [String.ofList_toList] at hread
  exact hread

theorem reads_digests (digests : List String) :
    ReadsValue floats 2 (inlineArray (digests.map tomlQuote)) (.array (digests.map .text)) := by
  apply reads_array
  rw [forall₂_map_left_iff, forall₂_map_right_iff, forall₂_same]
  exact fun s _ => reads_tomlQuote s

theorem readsLine_comment {comment : List Char} (hinline : '\n' ∉ comment)
    (hlegal : comment.all (fun c => !isIllegal c) = true) :
    ReadsLine floats ('#' :: comment) .blank where
  inline := not_mem_cons_of_ne_of_not_mem (by decide) hinline
  scan := if_pos hlegal

theorem loads_heading {kind module : String} {ls : List (List Char)} {entries : Entries F}
    (hkind : ReadsLine floats ("# Attestation (" ++ kind ++ ")").toList .blank)
    (hmodule : ReadsLine floats
      ("# Generated via " ++ module ++ " -- register with bathos's").toList .blank)
    (h : List.Forall₂ (ReadsEntry floats) ls entries) (hkeys : (entries.map Prod.fst).Nodup) :
    loads floats (document (heading kind module ++ "[attestation]".toList :: ls)) =
      some [("attestation", .table entries)] := by
  refine loads_document ?_ ⟨by decide, rfl⟩ h hkeys
  simp only [heading, forall_mem_cons]
  refine ⟨hkind, hmodule, ?_, ?_, readsLine_nil, nofun⟩
  · exact readsLine_comment (by decide) (by decide)
  · exact readsLine_comment (by decide) (by decide)

theorem loads_reproFloor (result : ReproFloorResult) {seedPin rerunCount : List Char}
    (hseed : strInt result.seedPin = .ok seedPin)
    (hcount : strInt result.rerunCount = .ok rerunCount) :
    loads floats (document (heading "repro_floor" "xtrax.run.repro_floor" ++
      "[attestation]".toList :: result.lines seedPin rerunCount)) =
      some [("attestation", .table result.table)] := by
  have hattested : ReadsValue floats 2 (inlineTable [
      member "run_id".toList (tomlQuote result.runId),
      member "output_path".toList (tomlQuote result.outputPath),
      member "content_hash".toList (tomlQuote result.contentHash)])
      (.table [("run_id", .text result.runId), ("output_path", .text result.outputPath),
        ("content_hash", .text result.contentHash)]) := by
    refine reads_table (.cons ?_ (.cons ?_ (.cons ?_ .nil)))
      (by simp only [map_cons, map_nil]; decide)
    all_goals exact reads_bareMember _ (by decide) (by decide) (reads_tomlQuote _)
  refine loads_heading (readsLine_comment (by decide) (by decide))
    (readsLine_comment (by decide) (by decide)) ?_
    (by simp only [ReproFloorResult.table, map_cons, map_nil]; decide)
  refine .cons ?_ (.cons ?_ (.cons ?_ (.cons ?_ (.cons ?_ (.cons ?_ (.cons ?_ (.cons ?_ .nil)))))))
  · exact readsLine _ (by decide) (by decide) (reads_tomlQuote _) (by decide)
  · exact readsLine _ (by decide) (by decide) (reads_tomlQuote _) (by decide)
  · exact readsLine _ (by decide) (by decide) hattested (by decide)
  · exact readsLine _ (by decide) (by decide) (reads_strInt hseed) (by decide)
  · exact readsLine _ (by decide) (by decide) (reads_strInt hcount) (by decide)
  · exact readsLine _ (by decide) (by decide) (reads_digests _) (by decide)
  · exact readsLine _ (by decide) (by decide) (reads_tomlQuote _) (by decide)
  · exact readsLine _ (by decide) (by decide) (reads_tomlQuote _) (by decide)

/-- An integer, or a float that is neither infinite nor a NaN. -/
def Number.IsFinite (Finite : F → Prop) : Number F → Prop
  | int _ => True
  | float x => Finite x

/-- An integer of not too many digits, or a float. -/
def Number.Short : Number F → Prop
  | int n => (Nat.toDigits 10 n.natAbs).length ≤ maxDigits
  | float _ => True

theorem exists_strInt {n : Int} :
    (∃ text, strInt n = .ok text) ↔ (Nat.toDigits 10 n.natAbs).length ≤ maxDigits :=
  ⟨fun ⟨_, h⟩ => (strInt_eq_ok.mp h).1, fun h => ⟨_, strInt_eq_ok.mpr ⟨h, rfl⟩⟩⟩

theorem Number.exists_str {v : Number F} : (∃ text, v.str floats = .ok text) ↔ v.Short := by
  cases v with
  | int n => exact exists_strInt
  | float x => exact ⟨fun _ => trivial, fun _ => ⟨_, rfl⟩⟩

theorem Number.reads_str (hfloats : ∀ x, Finite x → floats.Writes x) {v : Number F}
    (hv : v.IsFinite Finite) (h : v.str floats = .ok text) : ReadsValue floats 1 text v.value := by
  cases v with
  | int n => exact reads_strInt h
  | float x =>
    obtain rfl := Except.ok.inj h
    exact reads_float (hfloats x hv)

theorem fitnessMember_eq_ok {item : String × Number F} :
    fitnessMember floats item = .ok text ↔
      ∃ v, item.2.str floats = .ok v ∧ text = member (tomlQuote item.1) v := by
  rw [fitnessMember, bind_eq_ok]
  exact exists_congr fun v => and_congr_right fun _ => ⟨fun h => (Except.ok.inj h).symm,
    fun h => congrArg _ h.symm⟩

theorem reads_fitness (hfloats : ∀ x, Finite x → floats.Writes x) {items : List (String × Number F)}
    (hkeys : (items.map Prod.fst).Nodup) (hfinite : ∀ item ∈ items, item.2.IsFinite Finite)
    {texts : List (List Char)} (h : items.mapM (fitnessMember floats) = .ok texts) :
    ReadsValue floats 2 (inlineTable texts) (.table (items.map fun (k, v) => (k, v.value))) := by
  have hitems := (forall₂_and_left items texts).mpr ⟨hfinite, mapM_eq_ok.mp h⟩
  apply reads_table
  · rw [forall₂_map_right_iff]
    refine List.Forall₂.flip (hitems.imp ?_)
    rintro ⟨k, v⟩ text ⟨hv, htext⟩
    obtain ⟨vtext, hvtext, rfl⟩ := fitnessMember_eq_ok.mp htext
    exact reads_quotedMember k (Number.reads_str hfloats hv hvtext)
  · rw [map_map]
    exact hkeys

theorem loads_metricsProvenance (hfloats : ∀ x, Finite x → floats.Writes x)
    (record : MetricsProvenanceRecord F) (hfinite : ∀ item ∈ record.fitness, item.2.IsFinite Finite)
    {fitness : List (List Char)} (h : record.sortedItems.mapM (fitnessMember floats) = .ok fitness) :
    loads floats (document (heading "metrics_provenance" "xtrax.loop.metrics_provenance" ++
      "[attestation]".toList :: record.lines fitness)) =
      some [("attestation", .table (record.table record.sortedItems))] := by
  have hattested : ReadsValue floats 2 (inlineTable [
      member "run_id".toList (tomlQuote record.runId),
      member "evaluator_closure_hash".toList (tomlQuote record.evaluatorClosureHash)])
      (.table [("run_id", .text record.runId),
        ("evaluator_closure_hash", .text record.evaluatorClosureHash)]) := by
    refine reads_table (.cons ?_ (.cons ?_ .nil)) (by simp only [map_cons, map_nil]; decide)
    all_goals exact reads_bareMember _ (by decide) (by decide) (reads_tomlQuote _)
  have hperm : record.sortedItems.Perm record.fitness := mergeSort_perm _ _
  have hread := reads_fitness hfloats ((hperm.map Prod.fst).nodup_iff.mpr record.keys)
    (fun item hitem => hfinite item (hperm.mem_iff.mp hitem)) h
  refine loads_heading (readsLine_comment (by decide) (by decide))
    (readsLine_comment (by decide) (by decide)) ?_
    (by simp only [MetricsProvenanceRecord.table, map_cons, map_nil]; decide)
  refine .cons ?_ (.cons ?_ (.cons ?_ (.cons ?_ (.cons ?_ .nil))))
  · exact readsLine _ (by decide) (by decide) (reads_tomlQuote _) (by decide)
  · exact readsLine _ (by decide) (by decide) hattested (by decide)
  · exact readsLine _ (by decide) (by decide) hread (by decide)
  · exact readsLine _ (by decide) (by decide) (reads_tomlQuote _) (by decide)
  · exact readsLine _ (by decide) (by decide) (reads_tomlQuote _) (by decide)

theorem buildReproFloor_eq_ok {result : ReproFloorResult} (hpassed : result.passed = true) :
    buildReproFloorAttestationToml result = .ok text ↔
      ∃ seedPin, strInt result.seedPin = .ok seedPin ∧
        ∃ rerunCount, strInt result.rerunCount = .ok rerunCount ∧
          text = document (heading "repro_floor" "xtrax.run.repro_floor" ++
            "[attestation]".toList :: result.lines seedPin rerunCount) := by
  rw [buildReproFloorAttestationToml, hpassed]
  show (strInt result.seedPin >>= _) = _ ↔ _
  rw [bind_eq_ok]
  refine exists_congr fun seedPin => and_congr_right fun _ => ?_
  rw [bind_eq_ok]
  exact exists_congr fun rerunCount => and_congr_right fun _ =>
    ⟨fun h => (Except.ok.inj h).symm, fun h => congrArg _ h.symm⟩

theorem buildMetricsProvenance_eq_ok {record : MetricsProvenanceRecord F} :
    buildMetricsProvenanceAttestationToml floats record = .ok text ↔
      ∃ fitness, record.sortedItems.mapM (fitnessMember floats) = .ok fitness ∧
        text = document (heading "metrics_provenance" "xtrax.loop.metrics_provenance" ++
          "[attestation]".toList :: record.lines fitness) := by
  rw [buildMetricsProvenanceAttestationToml, bind_eq_ok]
  exact exists_congr fun fitness => and_congr_right fun _ =>
    ⟨fun h => (Except.ok.inj h).symm, fun h => congrArg _ h.symm⟩

theorem exists_fitness {items : List (String × Number F)} :
    (∃ texts, items.mapM (fitnessMember floats) = .ok texts) ↔ ∀ item ∈ items, item.2.Short := by
  constructor
  · rintro ⟨texts, h⟩ item hitem
    obtain ⟨text, -, htext⟩ := exists_of_forall₂ (mapM_eq_ok.mp h) hitem
    obtain ⟨v, hv, -⟩ := fitnessMember_eq_ok.mp htext
    exact Number.exists_str.mp ⟨v, hv⟩
  · intro h
    apply exists_mapM
    intro item hitem
    obtain ⟨v, hv⟩ := Number.exists_str.mpr (h item hitem)
    exact ⟨_, fitnessMember_eq_ok.mpr ⟨v, hv, rfl⟩⟩

/-- **The texts of attestations say what their records say.**  For floats whose text is read back,
the text of every result that passed, and of every record whose numbers are finite, is read as one
table `attestation` of the record's fields; a text is built unless an integer has too many digits
to be written. -/
theorem attestation_reads {Finite : F → Prop} (hfloats : ∀ x, Finite x → floats.Writes x) :
    (∀ result : ReproFloorResult, result.passed = true →
      ((∃ text, buildReproFloorAttestationToml result = .ok text) ↔
        (Nat.toDigits 10 result.seedPin.natAbs).length ≤ maxDigits ∧
          (Nat.toDigits 10 result.rerunCount.natAbs).length ≤ maxDigits) ∧
      ∀ text, buildReproFloorAttestationToml result = .ok text →
        loads floats text = some [("attestation", .table result.table)]) ∧
    ∀ record : MetricsProvenanceRecord F, (∀ item ∈ record.fitness, item.2.IsFinite Finite) →
      ((∃ text, buildMetricsProvenanceAttestationToml floats record = .ok text) ↔
        ∀ item ∈ record.fitness, item.2.Short) ∧
      ∀ text, buildMetricsProvenanceAttestationToml floats record = .ok text →
        ∃ fitness, fitness.Perm record.fitness ∧
          loads floats text = some [("attestation", .table (record.table fitness))] := by
  refine ⟨fun result hpassed => ⟨?_, ?_⟩, fun record hfinite => ⟨?_, ?_⟩⟩
  · rw [← exists_strInt, ← exists_strInt]
    constructor
    · rintro ⟨text, h⟩
      obtain ⟨seedPin, hseed, rerunCount, hcount, -⟩ := (buildReproFloor_eq_ok hpassed).mp h
      exact ⟨⟨seedPin, hseed⟩, ⟨rerunCount, hcount⟩⟩
    · rintro ⟨⟨seedPin, hseed⟩, ⟨rerunCount, hcount⟩⟩
      exact ⟨_, (buildReproFloor_eq_ok hpassed).mpr ⟨seedPin, hseed, rerunCount, hcount, rfl⟩⟩
  · intro text h
    obtain ⟨seedPin, hseed, rerunCount, hcount, rfl⟩ := (buildReproFloor_eq_ok hpassed).mp h
    exact loads_reproFloor result hseed hcount
  · have hperm : record.sortedItems.Perm record.fitness := List.mergeSort_perm _ _
    have hshort : (∀ item ∈ record.fitness, item.2.Short) ↔
        ∀ item ∈ record.sortedItems, item.2.Short :=
      forall_congr' fun item => imp_congr_left hperm.mem_iff.symm
    rw [hshort, ← exists_fitness]
    constructor
    · rintro ⟨text, h⟩
      obtain ⟨fitness, hfitness, -⟩ := buildMetricsProvenance_eq_ok.mp h
      exact ⟨fitness, hfitness⟩
    · rintro ⟨fitness, hfitness⟩
      exact ⟨_, buildMetricsProvenance_eq_ok.mpr ⟨fitness, hfitness, rfl⟩⟩
  · intro text h
    obtain ⟨fitness, hfitness, rfl⟩ := buildMetricsProvenance_eq_ok.mp h
    exact ⟨record.sortedItems, List.mergeSort_perm _ _,
      loads_metricsProvenance hfloats record hfinite hfitness⟩

end Reads

/-! ### A result and a record -/

namespace Sample

def floats : Toml.FloatText (List Char) := ⟨id, id⟩

/-- A loss of `0.5` and a step of `1e-05`. -/
def Finite (x : List Char) : Prop := x = "0.5".toList ∨ x = "1e-05".toList

theorem writes (x : List Char) (h : Finite x) : floats.Writes x := by
  rcases h with rfl | rfl
  · refine ⟨[], ['0'], ['.', '5'], [], ⟨⟨.inl rfl, ⟨nofun, all_eq_true.mp rfl, fun _ => rfl⟩, ?_, .none⟩,
      .inl nofun⟩, rfl, rfl⟩
    exact .digits nofun (all_eq_true.mp rfl)
  · refine ⟨[], ['1'], [], ['e', '-', '0', '5'], ⟨⟨.inl rfl, ⟨nofun, all_eq_true.mp rfl, ?_⟩, .none, ?_⟩,
      .inr nofun⟩, rfl, rfl⟩
    · exact fun h => nomatch h
    · exact .digits (.inr rfl) nofun (all_eq_true.mp rfl)

/-- Its run would end its string and open a table of its own. -/
def result : ReproFloorResult where
  passed := true
  seedPin := -7
  rerunCount := 2
  rerunDigests := ["d\x7f", "d\x7f"]
  contentHash := "d\x7f"
  runId := "r\"\n[attestation]\nverdict = \"FAIL"
  outputPath := "C:\\runs\\1"

def record : MetricsProvenanceRecord (List Char) where
  fitness := [("loss\" \x7d", .float "0.5".toList), ("", .int 3), ("a.b", .float "1e-05".toList)]
  keys := by decide
  evaluatorClosureHash := "h"
  runId := "r\x00"

theorem attestation_reads_injections :
    (∃ text, buildReproFloorAttestationToml result = .ok text ∧
      loads floats text = some [("attestation", .table result.table)]) ∧
    ∃ text, buildMetricsProvenanceAttestationToml floats record = .ok text ∧
      ∃ fitness, fitness.Perm record.fitness ∧
        loads floats text = some [("attestation", .table (record.table fitness))] := by
  obtain ⟨hresult, hrecord⟩ := attestation_reads writes
  obtain ⟨hbuilt, hread⟩ := hresult result rfl
  have hfinite : ∀ item ∈ record.fitness, item.2.IsFinite Finite := by
    simp only [record, List.forall_mem_cons]
    exact ⟨.inl rfl, trivial, .inr rfl, nofun⟩
  have hthree : (Nat.toDigits 10 3).length ≤ maxDigits := by decide
  have hshort : ∀ item ∈ record.fitness, item.2.Short := by
    simp only [record, List.forall_mem_cons]
    exact ⟨trivial, hthree, trivial, nofun⟩
  obtain ⟨hbuilt', hread'⟩ := hrecord record hfinite
  obtain ⟨text, htext⟩ := hbuilt.mpr ⟨by decide, by decide⟩
  obtain ⟨text', htext'⟩ := hbuilt'.mpr hshort
  exact ⟨⟨text, htext, hread text htext⟩, text', htext', hread' text' htext'⟩

end Sample

end Xtrax.Attestation
