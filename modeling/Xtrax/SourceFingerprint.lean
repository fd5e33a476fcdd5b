import Xtrax.Dict
import Xtrax.JsonText
import Xtrax.Results

/-! # The fingerprint of sources

`source_fingerprint` reads the files that labels lead to and hashes them by their names, each name
being a label, a slash and the path below it.  The files of all labels go into one dictionary, so of
files with one name only the last is hashed: the label `a` with the path `b/x.py`, and the label `a/b`
with `x.py`, are named alike.

It tells the hashed files, as long as the names can be read back from the stream, which a label with a
NUL may prevent, and not the files that others hide (`source_fingerprint_tells_iff`).
-/
namespace Xtrax.SourceFingerprint

open Dict List

/-! ## What is read -/

/-- A directory: the components of its path, and what is below it.  What cannot be read as a file has
no content. -/
structure Directory where
  parts : List String
  below : List (List String × Option (List UInt8))
  nodup : (below.map (·.1)).Nodup

/-- What is at the path of a label. -/
inductive Source
  | missing
  | file (name : String) (content : Option (List UInt8))
  | dir (d : Directory)
  | other

inductive FingerprintError
  | doesNotExist (label : String)
  | noPyFiles (label : String)
  | neither (label : String)
  | unreadable
  | nothing
  deriving DecidableEq

/-- The pattern `*.py`. -/
def isPyFile (path : List String) : Bool :=
  path.getLast?.any fun name => ".py".toList.isSuffixOf name.toList

/-- `sorted(p for p in path.rglob("*.py") if "__pycache__" not in p.parts)`. -/
def Directory.pyFiles (d : Directory) : List (List String × Option (List UInt8)) :=
  (d.below.filter fun e => isPyFile e.1 ∧ "__pycache__" ∉ d.parts ++ e.1).insertionSort fun e e' =>
    e.1 ≤ e'.1

/-- The entry of one file. -/
def readEntry (name : String) (content : Option (List UInt8)) :
    Except FingerprintError (String × List UInt8) :=
  match content with
  | none => .error .unreadable
  | some bytes => .ok (name, bytes)

/-- The files that a label selects, by their names. -/
def selectedBy (label : String) : Source → Except FingerprintError (List (String × List UInt8))
  | .missing => .error (.doesNotExist label)
  | .file name content => do
    let e ← readEntry (label ++ "/" ++ name) content
    return [e]
  | .dir d =>
    if d.pyFiles = [] then .error (.noPyFiles label)
    else d.pyFiles.mapM fun e => readEntry (label ++ "/" ++ "/".intercalate e.1) e.2
  | .other => .error (.neither label)

/-- The files that all labels select. -/
def selected : List (String × Source) → Except FingerprintError (List (String × List UInt8))
  | [] => .ok []
  | (label, source) :: rest => do
    let files ← selectedBy label source
    let more ← selected rest
    return files ++ more

/-! ## What is hashed -/

/-- The part of the stream for one entry. -/
def frame (e : String × List UInt8) : List UInt8 :=
  utf8 e.1.toList ++ [0] ++ utf8 e.2.length.repr.toList ++ [0] ++ e.2

def entriesOf (files : List (String × List UInt8)) : Dict String (List UInt8) := (∅ : Dict String _).update files

def stream (files : List (String × List UInt8)) : List UInt8 :=
  (sortByKey (entriesOf files).entries).flatMap frame

def sourceFingerprint {Digest : Type} (sha256 : List UInt8 → Digest) (paths : Dict String Source) :
    Except FingerprintError Digest := do
  let files ← selected paths.entries
  if (entriesOf files).entries = [] then .error .nothing else .ok (sha256 (stream files))

/-! ## What the fingerprint should tell -/

/-- The contents of the files with this name. -/
def contents (files : List (String × List UInt8)) (name : String) : List (List UInt8) :=
  (files.filter (·.1 = name)).map (·.2)

/-- At every name the same files, each counted. -/
def SameSources (files files' : List (String × List UInt8)) : Prop :=
  ∀ name, (contents files name).Perm (contents files' name)

/-- **The condition**: the same names, and the same files hidden behind others. -/
structure Settled (files files' : List (String × List UInt8)) : Prop where
  names : ∀ name, name ∈ files.map (·.1) ↔ name ∈ files'.map (·.1)
  hidden : ∀ name, (contents files name).dropLast.Perm (contents files' name).dropLast

/-- No file hides another, and no name has a NUL. -/
structure Clear (files : List (String × List UInt8)) : Prop where
  nodup : (files.map (·.1)).Nodup
  noNul : ∀ e ∈ files, '\x00' ∉ e.1.toList

/-! ## Reading the stream back -/

theorem frame_append (e : String × List UInt8) (r : List UInt8) : frame e ++ r =
    utf8 (e.1.toList ++ ['\x00']) ++ (utf8 (e.2.length.repr.toList ++ ['\x00']) ++ (e.2 ++ r)) := by
  have hnul : utf8 ['\x00'] = [0] := by decide
  simp only [frame, utf8_append, hnul, append_assoc]

theorem nul_notMem_repr (n : Nat) : '\x00' ∉ n.repr.toList := by
  intro h
  rw [Nat.toList_repr] at h
  exact absurd (Nat.isDigit_of_mem_toDigits (by decide) (by decide) h) (by decide)

theorem content_inj {b b' r r' : List UInt8}
    (h : utf8 (b.length.repr.toList ++ ['\x00']) ++ (b ++ r) =
      utf8 (b'.length.repr.toList ++ ['\x00']) ++ (b' ++ r')) : b = b' ∧ r = r' := by
  obtain ⟨hdigits, hrest⟩ := utf8_until_inj (nul_notMem_repr _) (nul_notMem_repr _) h
  exact append_inj hrest (Nat.repr_injective (String.toList_inj.mp hdigits))

theorem stream_inj_of_names : ∀ {l l' : List (String × List UInt8)}, l.map (·.1) = l'.map (·.1) →
    l.flatMap frame = l'.flatMap frame → l = l'
  | [], [], _, _ => rfl
  | [], _ :: _, hnames, _ => by simp at hnames
  | _ :: _, [], hnames, _ => by simp at hnames
  | e :: l, e' :: l', hnames, h => by
    obtain ⟨hname, hrest⟩ := cons.inj hnames
    have hname : e.1 = e'.1 := hname
    rw [flatMap_cons, flatMap_cons, frame_append, frame_append, hname] at h
    obtain ⟨hcontent, hstream⟩ := content_inj (append_cancel_left h)
    rw [Prod.ext hname hcontent, stream_inj_of_names hrest hstream]

theorem stream_inj : ∀ {l l' : List (String × List UInt8)},
    (∀ e ∈ l, '\x00' ∉ e.1.toList) → (∀ e ∈ l', '\x00' ∉ e.1.toList) →
    l.flatMap frame = l'.flatMap frame → l = l'
  | [], [], _, _, _ => rfl
  | [], e :: _, _, _, h => by simp [frame] at h
  | e :: _, [], _, _, h => by simp [frame] at h
  | e :: l, e' :: l', hnul, hnul', h => by
    obtain ⟨hhead, htail⟩ := forall_mem_cons.mp hnul
    obtain ⟨hhead', htail'⟩ := forall_mem_cons.mp hnul'
    rw [flatMap_cons, flatMap_cons, frame_append, frame_append] at h
    obtain ⟨hname, hrest⟩ := utf8_until_inj hhead hhead' h
    obtain ⟨hcontent, hstream⟩ := content_inj hrest
    rw [Prod.ext (String.toList_inj.mp hname) hcontent, stream_inj htail htail' hstream]

/-! ## What the fingerprint tells -/

section

variable {files files' : List (String × List UInt8)} {name : String}

theorem get?_entriesOf (files : List (String × List UInt8)) (name : String) :
    (entriesOf files).get? name = (contents files name).getLast? := by
  rw [entriesOf, get?_update, get?_empty, Option.or_none, contents, getLast?_map]

theorem contents_eq_nil_iff : contents files name = [] ↔ name ∉ files.map (·.1) := by
  rw [contents, map_eq_nil_iff, filter_eq_nil_iff]
  constructor
  · intro h hmem
    obtain ⟨e, he, rfl⟩ := mem_map.mp hmem
    exact h e he (by simp)
  · intro h e he heq
    exact h (mem_map.mpr ⟨e, he, by simpa using heq⟩)

theorem mem_keys_entriesOf : name ∈ (entriesOf files).entries.map (·.1) ↔ name ∈ files.map (·.1) := by
  rw [mem_keys_iff, get?_entriesOf, ne_eq, getLast?_eq_none_iff, contents_eq_nil_iff, not_not]

theorem sorted_entriesOf_eq_iff :
    sortByKey (entriesOf files).entries = sortByKey (entriesOf files').entries ↔
      ∀ name, (contents files name).getLast? = (contents files' name).getLast? := by
  constructor
  · intro h name
    rw [← get?_entriesOf, ← get?_entriesOf]
    refine Option.ext fun b => ?_
    rw [get?_eq_some_iff, get?_eq_some_iff, ← (sortByKey_perm _).mem_iff, h,
      (sortByKey_perm _).mem_iff]
  · intro h
    refine sortByKey_of_perm ?_ (entriesOf files).nodup
    refine (perm_ext_iff_of_nodup (entriesOf files).nodup.of_map (entriesOf files').nodup.of_map).mpr
      fun e => ?_
    rw [← get?_eq_some_iff, ← get?_eq_some_iff, get?_entriesOf, get?_entriesOf, h]

theorem stream_eq_iff (hnames : ∀ name, name ∈ files.map (·.1) ↔ name ∈ files'.map (·.1)) :
    stream files = stream files' ↔
      ∀ name, (contents files name).getLast? = (contents files' name).getLast? := by
  rw [← sorted_entriesOf_eq_iff]
  constructor
  · refine stream_inj_of_names ?_
    have hsorted : ∀ l : List (String × List UInt8),
        ((sortByKey l).map (·.1)).Pairwise (· ≤ ·) := fun l =>
      pairwise_map.mpr (sortByKey_sorted l)
    refine List.Perm.eq_of_pairwise (fun _ _ _ _ => le_antisymm) (hsorted _) (hsorted _) ?_
    refine (perm_ext_iff_of_nodup (sortByKey_keys_nodup (nodup _))
      (sortByKey_keys_nodup (nodup _))).mpr fun name => ?_
    rw [((sortByKey_perm _).map _).mem_iff, ((sortByKey_perm _).map _).mem_iff, mem_keys_entriesOf,
      mem_keys_entriesOf, hnames]
  · intro h
    rw [stream, stream, h]

theorem same_of_clear (hclear : Clear files) (hclear' : Clear files')
    (h : stream files = stream files') : SameSources files files' := by
  have hentries : ∀ {l : List (String × List UInt8)}, Clear l → (entriesOf l).entries = l := by
    intro l hl
    rw [entriesOf, entries_update (by simpa using hl.nodup)]
    rfl
  have hnul : ∀ {l : List (String × List UInt8)}, Clear l → ∀ e ∈ sortByKey l, '\x00' ∉ e.1.toList :=
    fun hl e he => hl.noNul e ((sortByKey_perm _).mem_iff.mp he)
  rw [stream, stream, hentries hclear, hentries hclear'] at h
  have hsorted := stream_inj (hnul hclear) (hnul hclear') h
  have hperm : files.Perm files' := by
    have hfirst := (sortByKey_perm files).symm
    rw [hsorted] at hfirst
    exact hfirst.trans (sortByKey_perm files')
  exact fun name => (hperm.filter _).map _

theorem contents_change {front back : List (String × List UInt8)} {b : List UInt8} (n : String) :
    contents (front ++ (name, b) :: back) n =
      contents front n ++ ((if name = n then [b] else []) ++ contents back n) := by
  by_cases hn : name = n <;> simp [contents, hn]

theorem stream_change_iff {front back : List (String × List UInt8)} {b b' : List UInt8} (hne : b ≠ b') :
    stream (front ++ (name, b) :: back) ≠ stream (front ++ (name, b') :: back) ↔
      name ∉ back.map (·.1) := by
  rw [ne_eq, stream_eq_iff (by simp), ← contents_eq_nil_iff]
  simp only [contents_change]
  constructor
  · intro h
    by_contra hback
    refine h fun n => ?_
    by_cases hn : name = n
    · rw [← hn, getLast?_append_of_ne_nil _ (by simp), getLast?_append_of_ne_nil _ hback,
        getLast?_append_of_ne_nil _ (by simp), getLast?_append_of_ne_nil _ hback]
    · rw [if_neg hn, if_neg hn]
  · intro hback h
    have hlast := h name
    rw [hback] at hlast
    exact hne (by simpa using hlast)

theorem perm_iff_dropLast {α : Type} {l l' : List α} (h : l.getLast? = l'.getLast?) :
    l.Perm l' ↔ l.dropLast.Perm l'.dropLast := by
  rcases eq_nil_or_concat l with rfl | ⟨front, a, rfl⟩
  · have hnil : l' = [] := getLast?_eq_none_iff.mp h.symm
    rw [hnil]
    exact Iff.rfl
  · rcases eq_nil_or_concat l' with rfl | ⟨front', a', rfl⟩
    · simp at h
    · obtain rfl : a = a' := by simpa using h
      simp [concat_eq_append, perm_append_right_iff]

end

section

variable {Digest : Type} {sha256 : List UInt8 → Digest} {paths paths' : Dict String Source}
  {files files' : List (String × List UInt8)} {d d' : Digest}

theorem sourceFingerprint_eq_ok (h : sourceFingerprint sha256 paths = .ok d)
    (hfiles : selected paths.entries = .ok files) : d = sha256 (stream files) := by
  unfold sourceFingerprint at h
  obtain ⟨files', hfiles', h⟩ := Results.bind_eq_ok.mp h
  obtain rfl := Except.ok.inj (hfiles.symm.trans hfiles')
  split at h
  · cases h
  · exact (Except.ok.inj h).symm

/-- **What the fingerprint tells.**  Mappings with one fingerprint select the same files at every name
exactly when they select the same names and hide the same files; so they do when no file hides another
and no name has a NUL.  And a changed file is seen exactly when it is not hidden. -/
theorem source_fingerprint_tells_iff (hsha : Function.Injective sha256)
    (h : sourceFingerprint sha256 paths = .ok d) (h' : sourceFingerprint sha256 paths' = .ok d')
    (hfiles : selected paths.entries = .ok files) (hfiles' : selected paths'.entries = .ok files') :
    (d = d' → (SameSources files files' ↔ Settled files files')) ∧
      (d = d' → Clear files → Clear files' → SameSources files files') ∧
      ∀ front name b b' back, files = front ++ (name, b) :: back → files' = front ++ (name, b') :: back →
        b ≠ b' → (d ≠ d' ↔ name ∉ back.map (·.1)) := by
  have hdigest : d = d' ↔ stream files = stream files' := by
    rw [sourceFingerprint_eq_ok h hfiles, sourceFingerprint_eq_ok h' hfiles']
    exact hsha.eq_iff
  rw [hdigest, ne_eq, hdigest]
  have hiff : stream files = stream files' → (SameSources files files' ↔ Settled files files') := by
    intro hstream
    constructor
    · intro hsame
      have hnames : ∀ name, name ∈ files.map (·.1) ↔ name ∈ files'.map (·.1) := by
        intro name
        rw [← not_iff_not, ← contents_eq_nil_iff, ← contents_eq_nil_iff]
        constructor
        · intro hnil
          exact List.nil_perm.mp (hnil ▸ hsame name)
        · intro hnil
          exact List.perm_nil.mp (hnil ▸ hsame name)
      refine ⟨hnames, fun name => ?_⟩
      exact (perm_iff_dropLast ((stream_eq_iff hnames).mp hstream name)).mp (hsame name)
    · intro hsettled name
      exact (perm_iff_dropLast ((stream_eq_iff hsettled.names).mp hstream name)).mpr
        (hsettled.hidden name)
  refine ⟨hiff, fun hstream hclear hclear' => ?_, fun front name b b' back hf hf' hne => ?_⟩
  · exact same_of_clear hclear hclear' hstream
  · rw [hf, hf']
    exact stream_change_iff hne

end

/-! ## Two labels -/

namespace TwoLabels

def tree (path : List String) (b : UInt8) : Source := .dir ⟨["src"], [(path, some [b])], by simp⟩

/-- The files are `a/x.py` and `b/x.py`. -/
def beside (b : UInt8) : Dict String Source := ⟨[("a", tree ["x.py"] b), ("b", tree ["x.py"] 2)], by simp⟩

/-- Both files are `a/b/x.py`. -/
def alike (b : UInt8) : Dict String Source :=
  ⟨[("a", tree ["b", "x.py"] b), ("a/b", tree ["x.py"] 2)], by simp⟩

/-- A change of the first file is seen. -/
theorem change_seen : ∃ d d', sourceFingerprint id (beside 1) = .ok d ∧
    sourceFingerprint id (beside 3) = .ok d' ∧ d ≠ d' := by
  have h : sourceFingerprint id (beside 1) = .ok _ := rfl
  have h' : sourceFingerprint id (beside 3) = .ok _ := rfl
  exact ⟨_, _, h, h', ((source_fingerprint_tells_iff Function.injective_id h h' rfl rfl).2.2 []
    "a/x.py" [1] [3] [("b/x.py", [2])] rfl rfl (by decide)).mpr (by decide)⟩

/-- A change of the first file is not seen. -/
theorem hidden_change : ¬ ∀ d files files', sourceFingerprint id (alike 1) = .ok d →
    sourceFingerprint id (alike 3) = .ok d → selected (alike 1).entries = .ok files →
    selected (alike 3).entries = .ok files' → SameSources files files' := by
  intro h
  have hsame := h _ _ _ rfl rfl rfl rfl "a/b/x.py"
  exact absurd hsame (by decide)

end TwoLabels

end Xtrax.SourceFingerprint
