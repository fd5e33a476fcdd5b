import Xtrax.FileGuard

/-! # Checks that raise

A refused `check` leaves the guard alone.  A `check` that is admitted and then meets a re-read that
raises has counted its files already, and raises all the same: the caller writes nothing, and when it
tries again its files are counted once more.  `check_changes_nothing_iff` says when a `check` that raises
leaves the guard as it was, and that a caller whose failed checks all do so has the guard it would have
without them.
-/
namespace Xtrax.FileGuard

/-- The re-read raises, in the reading or in the writing of the record. -/
def Take.Raises : Take → Prop
  | .readings _ => False
  | .unreadable _ => True
  | .persistFails _ _ => True

/-- `read_quotas` returns a reading of the user or of the filesystem. -/
def Take.HasReading : Take → Prop
  | .readings rs => rs ≠ []
  | .unreadable _ => True
  | .persistFails _ _ => True

theorem Take.Raises.takeReadings {take : Take} (h : take.Raises) (location : LocationInfo)
    (implicit : Bool) : ∃ events e, takeReadings location implicit take = (events, .error e) := by
  cases take with
  | readings rs => exact h.elim
  | unreadable detail => exact ⟨_, _, rfl⟩
  | persistFails rs detail => exact ⟨_, _, rfl⟩

namespace FileCapGuard

section
variable (fmul : ℚ → Int → ℚ) (g : FileCapGuard)

/-- **The condition fails** for a check of some files that every reading admits and whose re-read is due
and raises. -/
structure ChargedInVain (n : Int) (take : Take) : Prop where
  some_files : 0 < n
  admitted : g.refusing fmul n = none
  due : g.rereadEvery ≤ g.filesWrittenSinceRead + n
  raises : take.Raises

/-- The guard after some calls. -/
def after (g : FileCapGuard) : List (Int × Take) → FileCapGuard
  | [] => g
  | c :: calls => after (g.check fmul c.1 c.2).guard calls

/-- The calls that return. -/
def returning (g : FileCapGuard) : List (Int × Take) → List (Int × Take)
  | [] => []
  | c :: calls =>
    let rest := returning (g.check fmul c.1 c.2).guard calls
    match (g.check fmul c.1 c.2).answer with
    | .ok _ => c :: rest
    | .error _ => rest

/-- No call is charged in vain. -/
def Fair (g : FileCapGuard) : List (Int × Take) → Prop
  | [] => True
  | c :: calls => ¬ g.ChargedInVain fmul c.1 c.2 ∧ Fair (g.check fmul c.1 c.2).guard calls

variable {fmul g} {n : Int} {take : Take}

theorem raises_of_takeReadings {location : LocationInfo} {implicit : Bool} {events : List Event} {e : Error}
    (h : takeReadings location implicit take = (events, .error e)) : take.Raises := by
  cases take with
  | readings rs => simp [takeReadings] at h
  | unreadable detail => trivial
  | persistFails rs detail => trivial

theorem lastReadings_check (hne : g.lastReadings ≠ []) (htake : take.HasReading) :
    (g.check fmul n take).guard.lastReadings ≠ [] := by
  have hends := g.check_ends fmul hne n take
  generalize g.check fmul n take = r at hends ⊢
  cases hends with
  | negative => exact hne
  | refused => exact hne
  | counted => exact hne
  | raised => exact hne
  | reread p events rs _ _ _ hrs =>
    cases take with
    | readings rs' =>
      obtain rfl : rs' = rs := by simpa [takeReadings] using congrArg Prod.snd hrs
      exact htake
    | unreadable detail => simp [takeReadings] at hrs
    | persistFails rs' detail => simp [takeReadings] at hrs

/-- **One call** that raises leaves the guard alone unless it is charged in vain. -/
theorem check_unchanged_iff (hne : g.lastReadings ≠ []) :
    (∀ e, (g.check fmul n take).answer = .error e → (g.check fmul n take).guard = g) ↔
      ¬ g.ChargedInVain fmul n take := by
  have hends := g.check_ends fmul hne n take
  generalize g.check fmul n take = r at hends ⊢
  cases hends with
  | negative hneg => exact ⟨fun _ h => absurd h.some_files (by omega), fun _ _ _ => rfl⟩
  | refused refusal hrefusing =>
    refine ⟨fun _ h => ?_, fun _ _ _ => rfl⟩
    rw [h.admitted] at hrefusing
    cases hrefusing
  | counted p _ _ hnot =>
    refine ⟨fun _ h => absurd h.due (by omega), fun _ e he => ?_⟩
    have hok : Except.ok p = Except.error e := he
    cases hok
  | reread p events rs _ _ _ hrs =>
    refine ⟨fun _ h => ?_, fun _ e he => ?_⟩
    · obtain ⟨events', e, herror⟩ := h.raises.takeReadings g.location g.groupImplicit
      rw [hrs] at herror
      cases herror
    · have hok : Except.ok p = Except.error e := he
      cases hok
  | raised e events hn hadmitted hdue htake =>
    constructor
    · intro h hvain
      have hwritten := congrArg filesWrittenSinceRead (h e rfl)
      have hpos := hvain.some_files
      rw [count_filesWrittenSinceRead] at hwritten
      omega
    · intro hfair _ _
      have hzero : n = 0 := by
        by_contra hne'
        exact hfair ⟨by omega, hadmitted, hdue, raises_of_takeReadings htake⟩
      show g.count n = g
      rw [hzero, count, add_zero]

/-- **A run** without such calls leaves the guard as the calls that return do. -/
theorem after_returning (hne : g.lastReadings ≠ []) {calls : List (Int × Take)}
    (htakes : ∀ c ∈ calls, c.2.HasReading) (hfair : g.Fair fmul calls) :
    g.after fmul (g.returning fmul calls) = g.after fmul calls := by
  induction calls generalizing g with
  | nil => rfl
  | cons c calls ih =>
    obtain ⟨hhead, hfair⟩ := hfair
    obtain ⟨htake, htakes⟩ := List.forall_mem_cons.mp htakes
    have hrest := ih (lastReadings_check hne htake) htakes hfair
    simp only [returning, after]
    cases hanswer : (g.check fmul c.1 c.2).answer with
    | ok p => exact hrest
    | error e =>
      have hsame := (check_unchanged_iff hne).mpr hhead e hanswer
      rw [hsame] at hrest ⊢
      exact hrest

/-- **When a failed check changes nothing.**  A `check` that raises leaves the guard as it was unless it is
charged in vain; and a caller none of whose checks is charged in vain has the guard that its checks that
return make, so that a check which is tried again counts once. -/
theorem check_changes_nothing_iff (hne : g.lastReadings ≠ []) :
    (∀ n take, (∀ e, (g.check fmul n take).answer = .error e → (g.check fmul n take).guard = g) ↔
      ¬ g.ChargedInVain fmul n take) ∧
      ∀ calls, (∀ c ∈ calls, c.2.HasReading) → g.Fair fmul calls →
        g.after fmul (g.returning fmul calls) = g.after fmul calls :=
  ⟨fun _ _ => check_unchanged_iff hne, fun _ htakes hfair => after_returning hne htakes hfair⟩

end

/-! ## A guard that re-reads at every file -/

namespace EveryFile

def reading : QuotaReading where
  filesUsed := 0
  filesLimit := some 100
  source := .df
  command := "df -i -P /data"
  raw := ""
  path := "/data"
  takenAt := "now"
  scope := .filesystem

def guard : FileCapGuard where
  path := "/data"
  capFraction := 1
  rereadEvery := 1
  location := ⟨"/data", 0, none, false⟩
  group := none
  groupImplicit := false
  lastReadings := [reading]
  filesWrittenSinceRead := 0
  carried := [0]
  nReads := 1
  capFraction_pos := whole_pos
  capFraction_le_one := whole_le_one
  rereadEvery_pos := one_le_reread
  carried_length := carried_one

/-- A check that is refused, and one whose re-read returns. -/
theorem refused_changes_nothing :
    guard.after (fun c l => c * l) (guard.returning (fun c l => c * l)
        [(200, .readings [reading]), (5, .readings [reading])]) =
      guard.after (fun c l => c * l) [(200, .readings [reading]), (5, .readings [reading])] := by
  have hreadings : ([reading] : List QuotaReading) ≠ [] := List.cons_ne_nil _ _
  refine (check_changes_nothing_iff hreadings).2 _ ?_ ⟨fun h => ?_, fun h => h.raises, trivial⟩
  · simp [Take.HasReading]
  · exact absurd h.admitted (by decide +kernel)

/-- The file whose check raised is counted. -/
theorem unreadable_counts : ¬ ∀ n take e,
    (guard.check (fun c l => c * l) n take).answer = .error e →
      (guard.check (fun c l => c * l) n take).guard = guard := by
  intro h
  have hsame := h 1 (.unreadable "df rc=1") (.unreadable "df rc=1") (by decide +kernel)
  exact absurd (congrArg filesWrittenSinceRead hsame) (by decide +kernel)

end EveryFile

end FileCapGuard

end Xtrax.FileGuard
